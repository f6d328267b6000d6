import Scripting.Proofs.Syntax.Rules
import Scripting.Proofs.Syntax.Formulas
import Scripting.Syntax.Format

/-!
# Texts of one line

A list of statements that is read without reports grows by one statement a round (`yields_stmtRound`), so
a text of one statement is one line: the end of input follows the statement (`read_eq_singleton_iff`).
-/

namespace Scripting.Parser

open Parse ParseState

variable {r : Rules} {c : Context} {s t : ParseState}

def pastSeparators (s : ParseState) : ParseState :=
  { s with tokens := skipWhile.go [.newline, .semicolon] s.tokens }

theorem yields_stmtRound (hr : Sound r) {list : List (Stmt .parsed)}
    {y : List (Stmt .parsed) ⊕ List (Stmt .parsed)}
    (h : (stmtRound r c .eof list).Yields s y t) :
    ((pastSeparators s).current.kind = .eof ∧ y = .inr list ∧ t = pastSeparators s) ∨
    (∃ st u, (pastSeparators s).current.kind ≠ .eof ∧ (stmt r c).Yields (pastSeparators s) st u ∧
      y = .inl (st :: list) ∧ t = u.advance) ∨
    s.errors.length < t.errors.length := by
  rw [stmtRound, yields_skipWhile_bind, yields_current_bind, yields_ite] at h
  change if _ then Yields _ (pastSeparators s) y t else Yields _ (pastSeparators s) y t at h
  split at h
  · rename_i heof
    obtain ⟨rfl, rfl⟩ := yields_pure.mp h
    exact .inl ⟨by simpa [pastSeparators] using heof, rfl, rfl⟩
  · rename_i heof
    obtain ⟨st?, u, hst, h⟩ := yields_bind.mp h
    rcases yields_cleanStmt hst with ⟨rfl, hgrown⟩ | ⟨st, rfl, hform⟩
    · dsimp only at h
      rw [yields_skipBroken_bind] at h
      obtain ⟨-, rfl⟩ := yields_pure.mp h
      exact .inr (.inr hgrown)
    · have hle := (reads_stmt hr c (P := fun _ => True) _ st u trivial hform).1
      simp only [yields_currentIs_bind, yields_advance_bind, yields_current_bind, yields_ite] at h
      split at h
      · obtain ⟨rfl, rfl⟩ := yields_pure.mp h
        exact .inr (.inl ⟨st, u, by simpa [pastSeparators] using heof, hform, rfl, rfl⟩)
      · rw [yields_report_bind, yields_skipBroken_bind] at h
        obtain ⟨-, rfl⟩ := yields_pure.mp h
        simp only [pastSeparators] at hle
        exact .inr (.inr (by simpa using Nat.lt_succ_of_le hle))

theorem yields_stmtRound_of_stmt {list : List (Stmt .parsed)} {st : Stmt .parsed} {u : ParseState}
    (h : (stmt r c).Yields (pastSeparators s) st u) (hstart : (pastSeparators s).current.kind ≠ .eof)
    (hquiet : u.errors = s.errors) (hend : u.advance.current.kind = .newline) :
    (stmtRound r c .eof list).Yields s (.inl (st :: list)) u.advance := by
  have hclean := yields_cleanStmt_of_quiet h (show u.errors = (pastSeparators s).errors from hquiet)
  have hnext : u.advance.current.kind == .newline := by rw [hend]; rfl
  rw [stmtRound, yields_skipWhile_bind, yields_current_bind, yields_ite]
  change if _ then Yields _ (pastSeparators s) _ _ else Yields _ (pastSeparators s) _ _
  rw [if_neg (by simpa [pastSeparators] using hstart)]
  refine yields_bind.mpr ⟨some st, u, hclean, ?_⟩
  simp only [yields_currentIs_bind, yields_advance_bind, yields_current_bind, hnext, Bool.true_or, if_true]
  exact yields_pure.mpr ⟨rfl, rfl⟩

theorem yields_stmtRounds (hr : Sound r) {n : Nat} {list stmts : List (Stmt .parsed)}
    (h : (iterate (stmtRound r c .eof) n list).Yields s stmts t) :
    Clean s t (∃ added, stmts = added ++ list) := by
  refine Yields.iterate_induct
    (I := fun found t => Clean s t (∃ added, found = added ++ list))
    (Q := fun found t => Clean s t (∃ added, found = added ++ list)) ?_ ?_ h
    ⟨Nat.le_refl _, fun _ => ⟨[], rfl⟩⟩
  · rintro found u y v hround ⟨hle, hadded⟩
    have hmonotone := (reads_stmtRound hr (P := fun _ => True) c .eof found u _ v trivial hround).1
    refine ⟨Nat.le_trans hle hmonotone, fun heq => ?_⟩
    rcases yields_stmtRound hr hround with ⟨-, ⟨⟩, -⟩ | ⟨st, w, -, -, ⟨⟩, -⟩ | hgrown
    · obtain ⟨added, rfl⟩ := hadded (by omega)
      exact ⟨st :: added, rfl⟩
    · omega
  · rintro found u y v hround ⟨hle, hadded⟩
    have hmonotone := (reads_stmtRound hr (P := fun _ => True) c .eof found u _ v trivial hround).1
    refine ⟨Nat.le_trans hle hmonotone, fun heq => ?_⟩
    rcases yields_stmtRound hr hround with ⟨-, ⟨⟩, -⟩ | ⟨st, w, -, -, ⟨⟩, -⟩ | hgrown
    · exact hadded (by omega)
    · omega

theorem yields_stmt_expr {st : Stmt .parsed} (hkind : s.current.kind ∈ .leftParen :: Atom.kinds) :
    (stmt r c).Yields s st t ↔ ∃ e, (r.expr 1 c).Yields s e t ∧ st = .expr s.current e := by
  have hskip : skipWhile.go [.kwPub] s.tokens = s.tokens := by
    have hpub : s.current.kind ∉ [Token.Kind.kwPub] := fun h => by
      rw [List.mem_singleton.mp h] at hkind
      simp [Atom.kinds] at hkind
    exact congrArg ParseState.tokens (skipWhile_of_current hpub)
  rw [stmt, yields_skipWhile_bind, hskip, yields_current_bind]
  change Yields _ s st t ↔ _
  split
  case h_13 =>
    rw [yields_bind]
    simp only [yields_pure]
    constructor
    · rintro ⟨e, u, he, rfl, rfl⟩
      exact ⟨e, he, rfl⟩
    · rintro ⟨e, he, rfl⟩
      exact ⟨e, t, he, rfl, rfl⟩
  all_goals simp_all [Atom.kinds]

theorem eof_of_stmtRounds (hr : Sound r) {n : Nat} {list : List (Stmt .parsed)}
    (h : (iterate (stmtRound r c .eof) n list).Yields s list t)
    (hquiet : t.errors.length = s.errors.length) : (pastSeparators s).current.kind = .eof := by
  cases n with
  | zero => exact absurd h not_yields_iterate_zero
  | succ n =>
    rcases yields_iterate_succ.mp h with hround | ⟨found, u, hround, hrest⟩
    · rcases yields_stmtRound hr hround with ⟨heof, -, -⟩ | ⟨_, _, -, -, ⟨⟩, -⟩ | hgrown
      · exact heof
      · omega
    · obtain ⟨hle, hadded⟩ := yields_stmtRounds hr hrest
      have hmonotone := (reads_stmtRound hr (P := fun _ => True) c .eof list s _ u trivial hround).1
      rcases yields_stmtRound hr hround with ⟨-, ⟨⟩, -⟩ | ⟨st, w, -, -, ⟨⟩, -⟩ | hgrown
      · obtain ⟨added, hlist⟩ := hadded (by omega)
        have hlength := congrArg List.length hlist
        simp only [List.length_append, List.length_cons] at hlength
        omega
      · omega

theorem exists_expr_of_stmtList (hr : Sound r) {tok : Token} {e : Expr .parsed}
    (hkind : (pastSeparators s).current.kind ∈ .leftParen :: Atom.kinds)
    (h : (stmtList r c .eof).Yields s [.expr tok e] t) (hquiet : t.errors.length = s.errors.length) :
    ∃ u, (r.expr 1 c).Yields (pastSeparators s) e u ∧ u.errors.length = s.errors.length ∧
      (pastSeparators u.advance).current.kind = .eof := by
  obtain ⟨stmts, t', hrounds, h⟩ := yields_bind.mp h
  obtain ⟨hstmts, rfl⟩ := yields_pure.mp h
  obtain rfl : stmts = [.expr tok e] := by simpa using congrArg List.reverse hstmts
  have hstart : (pastSeparators s).current.kind ≠ .eof := fun heof => by
    rw [heof] at hkind
    simp [Atom.kinds] at hkind
  cases hfuel : r.rounds with
  | zero => exact absurd (hfuel ▸ hrounds) not_yields_iterate_zero
  | succ n =>
    rw [hfuel] at hrounds
    rcases yields_iterate_succ.mp hrounds with hround | ⟨found, u, hround, hrest⟩
    · rcases yields_stmtRound hr hround with ⟨heof, -, -⟩ | ⟨_, _, -, -, ⟨⟩, -⟩ | hgrown
      · exact absurd heof hstart
      · omega
    · obtain ⟨hle, hadded⟩ := yields_stmtRounds hr hrest
      have hmonotone := (reads_stmtRound hr (P := fun _ => True) c .eof [] s _ u trivial hround).1
      rcases yields_stmtRound hr hround with ⟨-, ⟨⟩, -⟩ | ⟨st, w, -, hform, ⟨⟩, rfl⟩ | hgrown
      · obtain ⟨added, hlist⟩ := hadded (by omega)
        obtain rfl : added = [] := by
          have hlength := congrArg List.length hlist
          simp only [List.length_append, List.length_singleton] at hlength
          exact List.length_eq_zero_iff.mp (by omega)
        have hst : st = .expr tok e := (List.singleton_inj.mp hlist).symm
        obtain ⟨e', he', hexpr⟩ := (yields_stmt_expr hkind).mp hform
        obtain ⟨-, rfl⟩ : tok = _ ∧ e = e' := by simpa using hst.symm.trans hexpr
        refine ⟨w, he', ?_, eof_of_stmtRounds hr (hst ▸ hrest) ?_⟩
        · rw [errors_advance] at hle hmonotone
          omega
        · omega
      · omega

theorem stmtList_of_expr {e : Expr .parsed} {u : ParseState}
    (hkind : (pastSeparators s).current.kind ∈ .leftParen :: Atom.kinds)
    (h : (r.expr 1 c).Yields (pastSeparators s) e u) (hquiet : u.errors = s.errors)
    (hend : u.advance.current.kind = .newline) (heof : (pastSeparators u.advance).current.kind = .eof)
    (hrounds : 2 ≤ r.rounds) : (stmtList r c .eof).Yields s
      [.expr (pastSeparators s).current e] (pastSeparators u.advance) := by
  have hstart : (pastSeparators s).current.kind ≠ .eof := fun heof => by
    rw [heof] at hkind
    simp [Atom.kinds] at hkind
  have hstmt := (yields_stmt_expr hkind).mpr ⟨e, h, rfl⟩
  obtain ⟨n, hn⟩ : ∃ n, r.rounds = n + 1 + 1 := ⟨r.rounds - 2, by omega⟩
  have hlast : (stmtRound r c .eof [.expr (pastSeparators s).current e]).Yields u.advance
      (.inr [.expr (pastSeparators s).current e]) (pastSeparators u.advance) := by
    rw [stmtRound, yields_skipWhile_bind, yields_current_bind, yields_ite]
    change if _ then Yields _ (pastSeparators u.advance) _ _ else Yields _ (pastSeparators u.advance) _ _
    rw [if_pos (by simpa [pastSeparators] using heof)]
    exact yields_pure.mpr ⟨rfl, rfl⟩
  refine yields_bind.mpr ⟨[.expr (pastSeparators s).current e], _, ?_, yields_pure.mpr ⟨rfl, rfl⟩⟩
  rw [hn]
  refine yields_iterate_succ.mpr (.inr ⟨_, _, yields_stmtRound_of_stmt hstmt hstart hquiet hend, ?_⟩)
  exact yields_iterate_succ.mpr (.inl hlast)

theorem closed_eq {ts : List Token} (h : Closed ts) : closed ts = ts := by
  obtain ⟨t, ht, hk⟩ := h
  simp [closed, Option.mem_def.mp ht, hk]

theorem read_eq_ok_iff {text file : String} {ts : List Token} {stmts : List (Stmt .parsed)}
    (hscan : Token.scan text file = (ts, [])) (hclosed : Closed ts) (hne : stmts ≠ []) :
    Source.read text file = .ok ⟨file, stmts⟩ ↔
      ∃ t, (stmtList (rulesFor ts) {} .eof).Yields ⟨ts, []⟩ stmts t ∧ t.errors = [] := by
  rcases hrun : (stmtList (rulesFor ts) {} .eof).run ⟨ts, []⟩ with ⟨stmts?, t⟩
  have hyields : (∃ t', (stmtList (rulesFor ts) {} .eof).Yields ⟨ts, []⟩ stmts t' ∧ t'.errors = []) ↔
      stmts? = some stmts ∧ t.errors = [] := by
    constructor
    · rintro ⟨t', h, herrors⟩
      obtain ⟨rfl, rfl⟩ := Prod.mk.inj (hrun.symm.trans h)
      exact ⟨rfl, herrors⟩
    · rintro ⟨rfl, herrors⟩
      exact ⟨t, hrun, herrors⟩
  have hparse : Source.parse file ts = (⟨file, stmts?.getD []⟩, t.errors.reverse) := by
    rw [Source.parse, closed_eq hclosed, hrun]
  unfold Source.read
  rw [hscan]
  simp only [hparse]
  rw [hyields]
  cases herrors : t.errors with
  | nil => cases stmts? <;> simp [eq_comm, hne]
  | cons d ds =>
    cases hreverse : (d :: ds).reverse with
    | nil => simp at hreverse
    | cons => simp

theorem pastSeparators_line (tok last : Token) (errors : List Diagnostic) {newline : Token}
    (hnewline : newline.kind = .newline) :
    pastSeparators (ParseState.mk [tok, newline, last] errors).advance = ⟨[last], errors⟩ := by
  simp [pastSeparators, ParseState.advance, skipWhile.go, hnewline]

end Scripting.Parser
