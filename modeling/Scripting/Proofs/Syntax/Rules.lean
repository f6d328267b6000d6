import Scripting.Proofs.Syntax.Grammar

/-!
# Every rule of the grammar reads balanced brackets: statements

Statements, the blocks that hold them, and with them the whole family of rules (`sound_rules`).
-/

namespace Scripting.Parser

open Parse ParseState

section Statements

variable {P : ParseState → Prop} {r : Rules} (hr : Sound r)

include hr

theorem reads_letStmt (c : Context) : Reads P (letStmt r c) ahead 0 (fun _ => ahead) fun _ => 0 := by
  refine .current fun tok => .peekIs (.advanceOver .kwMut (fun _ h => h.2) ?_ (by decide) rfl) ?_
  all_goals
    refine .expectPeek (.currentName fun name => ?_) (by decide) rfl
    refine (readsType_typeAfterColon hr).bind (fun ty => ?_) fun ty t b u ht h => ?_
    · refine .expectPeek (.advance (.skipNewlines ?_)) (by decide) rfl
      exact .bind (hr.expr 1 c) fun _ => .pure rfl rfl
    · simp [ht] at h

theorem reads_returnStmt (c : Context) :
    Reads P (returnStmt r c) ahead 0 (fun _ => ahead) fun _ => 0 := by
  refine .current fun tok => .peek fun next => ?_
  split
  case h_5 => exact .advance (.bind (hr.expr 1 c) fun _ => .pure rfl rfl)
  all_goals exact .pure rfl rfl

theorem reads_whileStmt (c : Context) :
    Reads P (whileStmt r c) ahead 0 (fun _ => ahead) fun _ => 0 := by
  refine .current fun tok => .advance (.bind (hr.expr 1 c.head) fun _ => ?_)
  exact .expectPeek (.bind (hr.block c) fun _ => .pure rfl rfl) (by decide) rfl

theorem reads_forStmt (c : Context) : Reads P (forStmt r c) ahead 0 (fun _ => ahead) fun _ => 0 := by
  refine .current fun tok => .expectPeek (.currentName fun name => ?_) (by decide) rfl
  refine .expectPeek (.advance (.bind (hr.expr 1 c.head) fun _ => ?_)) (by decide) rfl
  exact .expectPeek (.bind (hr.block c) fun _ => .pure rfl rfl) (by decide) rfl

theorem readsType_param (inImpl first : Bool) : ReadsType (param r inImpl first) ParseState.tokens := by
  intro s p? t h
  rw [param, yields_current_bind] at h
  by_cases hident : s.current.kind = .ident
  · simp only [hident, bne_self_eq_false, Bool.false_eq_true, if_false] at h
    rw [yields_peekIs_bind, yields_ite] at h
    have hname (hs : Closed s.tokens) : Span 0 s.tokens 0 s.ahead :=
      span_current hs hident (by decide) rfl
    split at h
    · rw [yields_ite] at h
      split at h
      · obtain ⟨-, rfl⟩ := yields_pure.mp h
        exact ⟨Nat.le_refl _, fun _ hs => .inl (hname hs)⟩
      · exact absurd h not_yields_fail
    · obtain ⟨ty, u, hty, h⟩ := yields_bind.mp h
      obtain ⟨-, rfl⟩ := yields_pure.mp h
      obtain ⟨hle, hend⟩ := readsType_typeAfterColon hr s ty u hty
      exact ⟨hle, fun heq hs => .of_span (hname hs) (hend heq (hname hs).closed)⟩
  · simp [bne_iff_ne.mpr hident] at h

omit hr in
theorem TypeEnd.advance {ts : List Token} {t : ParseState} (h : TypeEnd ts t) :
    Span 0 ts 0 t.advance.tokens ∨ t.advance.current.kind = .gt := by
  rcases h with h | h
  · exact .inl (h.trans (span_advance h.closed))
  · exact .inr (by rw [current_advance, h.peek])

omit hr in
theorem TypeEnd.skipNewlines {ts : List Token} {t : ParseState} (h : TypeEnd ts t) :
    Span 0 ts 0 (dropNewlines t.advance.tokens) ∨
      { t.advance with tokens := dropNewlines t.advance.tokens }.current.kind = .gt := by
  rcases h.advance with h | h
  · exact .inl (h.trans (span_dropNewlines h.closed))
  · have hne : t.advance.current.kind ≠ .newline := by simp [h, -current_advance]
    exact .inr (by rw [dropNewlines_of_current hne, h])

theorem reads_params (inImpl : Bool) :
    Reads P (params r inImpl) ParseState.tokens 1 (fun _ => ahead) fun _ => 0 := by
  -- Inside a `>>` no further parameter can be read.
  refine .skipNewlines (.iterate (S := fun x t => x.1 = false ∧ t.current.kind = .gt) ?_ _ _)
  rintro ⟨first, hasSelf, ps⟩ s y t h
  dsimp only at h
  rw [yields_current_bind, yields_ite] at h
  have hparam {u : ParseState} {g : Option (Param .parsed) → Parse ((Bool × Bool × List (Param .parsed)) ⊕
        (Bool × List (Param .parsed)))} (hu : Clean s u (Closed s.tokens → Span 0 s.tokens 0 u.tokens))
      (hg : ∀ p?, ∃ z, g p? = pure (.inl (false, z)))
      (h : (param r inImpl first >>= fun p? => Parse.advance >>= fun _ => Parse.skipNewlines >>=
        fun _ => g p?).Yields u y t) :
      Clean s t (Closed s.tokens → Lands (fun x t => x.1 = false ∧ t.current.kind = .gt)
        ParseState.tokens 1 ahead 0 s t y) := by
    obtain ⟨p?, v, hv, h⟩ := yields_bind.mp h
    obtain ⟨z, hz⟩ := hg p?
    rw [yields_advance_bind, yields_skipNewlines_bind, hz] at h
    obtain ⟨rfl, rfl⟩ := yields_pure.mp h
    obtain ⟨hle, hend⟩ := readsType_param hr inImpl first u p? v hv
    have hle' := hu.1
    refine ⟨by simpa using Nat.le_trans hu.1 hle, fun heq hs => ?_⟩
    simp only [errors_advance] at heq
    have h₁ := hu.2 (by omega) hs
    have h₂ := TypeEnd.of_span h₁ (hend (by omega) h₁.closed)
    exact h₂.skipNewlines.imp (fun h => h.add 1) fun h => ⟨rfl, h⟩
  split at h
  · rename_i hclose
    have hclose : s.current.kind = .rightParen := by simpa using hclose
    obtain ⟨rfl, rfl⟩ := yields_pure.mp h
    refine ⟨fun hs => by simp [hclose] at hs, Nat.le_refl _, fun _ hs => ?_⟩
    exact span_current hs hclose (by decide) rfl
  · rw [yields_ite, yields_ite] at h
    split at h
    · split at h
      · rename_i hcomma
        have hcomma : s.current.kind = .comma := by simpa using hcomma
        rw [yields_advance_bind, yields_skipNewlines_bind] at h
        refine ⟨fun hs => by simp [hcomma] at hs, hparam ⟨by simp, fun _ hs => ?_⟩ ?_ h⟩
        · have h₁ := span_current (n := 0) hs hcomma (by decide) rfl
          have h₂ := h₁.trans (span_advance h₁.closed)
          exact h₂.trans (span_dropNewlines h₂.closed)
        · rintro (_ | p) <;> exact ⟨_, rfl⟩
      · exact absurd h (by simp)
    · rename_i hfirst
      refine ⟨fun hs => hfirst (by rw [show first = false from hs.1]; rfl),
        hparam ⟨Nat.le_refl _, fun _ hs => .refl hs⟩ ?_ h⟩
      rintro (_ | p) <;> exact ⟨_, rfl⟩

theorem reads_funDecl (c : Context) (inImpl : Bool) :
    Reads P (funDecl r c inImpl) ahead 0 (fun _ => ahead) fun _ => 0 := by
  refine .current fun tok => .expectPeek (.currentName fun name => ?_) (by decide) rfl
  refine .expectPeek (.advance (.bind (reads_params hr inImpl) fun ⟨hasSelf, ps⟩ => ?_)) (by decide) rfl
  have hbody {Q : ParseState → Prop} (result : Option TypeExpr) : Reads Q (do
      expectPeek .leftBrace
      return FunDecl.mk tok name () hasSelf ps result (← r.block c)) ahead 0 (fun _ => ahead) fun _ => 0 :=
    .expectPeek (.bind (hr.block c) fun _ => .pure rfl rfl) (by decide) rfl
  have hresult : Reads (fun _ => True) (do
      Parse.advance
      let type ← r.type
      expectPeek .leftBrace
      return FunDecl.mk tok name () hasSelf ps (some type) (← r.block c)) ahead 0 (fun _ => ahead)
        fun _ => 0 :=
    .advance (hr.type.bind (fun _ => hbody _) fun ty t b u ht h => by simp [ht] at h)
  simp only [pure_bind]
  refine .peekIs (.peekIs ?_ ?_) (.peekIs ?_ ?_)
  · exact .advanceOver .colon (fun _ h => h.1.2) (by simpa using hresult) (by decide) rfl
  · exact .advanceOver .colon (fun _ h => h.1.2) (by simpa using hresult) (by decide) rfl
  · exact .advanceOver .arrow (fun _ h => h.2) (by simpa using hresult) (by decide) rfl
  · exact hbody none

theorem reads_fieldDecls {close : Token.Kind} (positional : Bool) (hplain : close.Plain)
    (hgt : close ≠ .gt) (hshift : close.shift 1 = some 0) :
    Reads P (fieldDecls r close positional) ParseState.tokens 1 (fun _ => ahead) fun _ => 0 := by
  -- Inside a `>>` no further field can be read.
  refine .iterate (S := fun _ t => t.current.kind = .gt) (fun fields s y t h => ?_) _ _
  rw [yields_skipWhile_bind, yields_current_bind, yields_ite] at h
  generalize hu : { s with tokens := Parse.skipWhile.go [.newline, .comma] s.tokens } = u at h
  have hskip : Clean s u (Closed s.tokens → Span 1 s.tokens 1 u.tokens) := by
    subst hu
    exact ⟨Nat.le_refl _, fun _ hs => span_skipWhile hs (by decide)⟩
  have hfree {k : Token.Kind} (hk : u.current.kind = k) (hkgt : k ≠ .gt) : s.current.kind ≠ .gt := by
    intro hs
    rw [← hu, skipWhile_of_current (by simp [hs]), hs] at hk
    exact hkgt hk.symm
  have htype {v : ParseState} {name : String} (hv : Clean s v (Closed s.tokens → Span 1 s.tokens 1 v.tokens))
      (h : (if fields.any fun f => f.name == name then
          Parse.fail .malformed u.current ("duplicate field " ++ name)
        else do
          let type ← r.type
          Parse.advance
          return .inl (fields ++ [⟨u.current, name, type⟩]) :
        Parse (List FieldDecl ⊕ List FieldDecl)).Yields v y t) :
      v.current.kind = .ident ∧ Clean s t (Closed s.tokens →
        Lands (fun _ t => t.current.kind = .gt) ParseState.tokens 1 ahead 0 s t y) := by
    rw [yields_ite] at h
    split at h
    · exact absurd h not_yields_fail
    · obtain ⟨ty, w, hty, h⟩ := yields_bind.mp h
      rw [yields_advance_bind] at h
      obtain ⟨rfl, rfl⟩ := yields_pure.mp h
      obtain ⟨hle, hend⟩ := hr.type v ty w hty
      have hle' := hv.1
      refine ⟨hr.type_ident v ty w hty, by simpa using Nat.le_trans hv.1 hle, fun heq hs => ?_⟩
      rw [errors_advance] at heq
      have h₁ := hv.2 (by omega) hs
      rcases (hend (by omega) h₁.closed).advance with h₂ | hstuck
      · exact .inl (h₁.trans (h₂.add 1))
      · exact .inr hstuck
  split at h
  · rename_i hclose
    have hclose : u.current.kind = close := by simpa using hclose
    obtain ⟨rfl, rfl⟩ := yields_pure.mp h
    refine ⟨hfree hclose hgt, hskip.1, fun heq hs => ?_⟩
    have h₁ := hskip.2 heq hs
    exact h₁.trans (span_current h₁.closed hclose hplain hshift)
  · rw [yields_peekIs_bind] at h
    dsimp only at h
    rw [yields_ite] at h
    split at h
    · rename_i hnamed
      obtain ⟨hident, hcolon⟩ : u.current.kind = .ident ∧ u.peek.kind = .colon := by simpa using hnamed
      rw [yields_advance_bind, yields_advance_bind, pure_bind] at h
      refine ⟨hfree hident (by decide), (htype ?_ h).2⟩
      rw [Clean, errors_advance, errors_advance]
      refine ⟨hskip.1, fun heq hs => ?_⟩
      have h₁ := hskip.2 heq hs
      have h₂ := h₁.trans (span_current h₁.closed hident (by decide) rfl)
      have h₃ := h₂.trans (span_peek h₂.closed hcolon (by decide) rfl)
      exact h₃.trans (span_advance h₃.closed)
    · rw [yields_ite] at h
      split at h
      · rw [pure_bind] at h
        obtain ⟨hident, hclean⟩ := htype hskip h
        exact ⟨hfree hident (by decide), hclean⟩
      · exact absurd h (by simp)

theorem reads_typeStmt : Reads P (typeStmt r) ahead 0 (fun _ => ahead) fun _ => 0 := by
  refine .current fun tok => .expectPeek (.currentName fun name => .ite (fun _ => ?_) fun _ => .fail)
    (by decide) rfl
  refine .expectPeek (.advance ?_) (by decide) rfl
  exact .bind (reads_fieldDecls hr false (by decide) (by decide) rfl) fun _ => .pure rfl rfl

theorem reads_unionStmt : Reads P (unionStmt r) ahead 0 (fun _ => ahead) fun _ => 0 := by
  refine .current fun tok => .expectPeek (.currentName fun name => ?_) (by decide) rfl
  refine .expectPeek (.advance (.iterate_bind ahead 0 (.of_reads fun variants => ?_) fun _ => ?_))
    (by decide) rfl
  · refine .skipWhile (.current fun tok => .ite (fun h => ?_) fun _ => .ite (fun h => ?_) fun _ => .fail)
      (by decide)
    · exact .past .rightBrace (fun s hs => hs.2 ▸ beq_iff_eq.mp h) (.pure rfl rfl) (by decide) rfl
    · have hident : tok.kind = .ident := by simp_all
      refine .past .ident (fun s hs => hs.2 ▸ hident) (.peekIs ?_ ?_) (by decide) rfl
      · refine .advanceOver .leftParen (fun _ h => h.2) (.advance ?_) (by decide) rfl
        exact .bind ((reads_fieldDecls hr true (by decide) (by decide) rfl).add 1) fun _ =>
          .advance (.pure rfl rfl)
      · simp only [pure_bind]
        exact .advance (.pure rfl rfl)
  · exact .ite (fun _ => .fail) fun _ => .pure rfl rfl

theorem reads_implStmt (c : Context) : Reads P (implStmt r c) ahead 0 (fun _ => ahead) fun _ => 0 := by
  refine .current fun tok => .expectPeek (.currentName fun name => ?_) (by decide) rfl
  refine .expectPeek (.advance (.iterate_bind ahead 0 (.of_reads fun methods => ?_) fun _ => ?_))
    (by decide) rfl
  · refine .skipWhile (.current fun tok => .ite (fun h => ?_) fun _ => .ite (fun h => ?_) fun _ => .fail)
      (by decide)
    · exact .past .rightBrace (fun s hs => hs.2 ▸ beq_iff_eq.mp h) (.pure rfl rfl) (by decide) rfl
    · refine .past .kwFun (fun s hs => hs.2 ▸ beq_iff_eq.mp h) ?_ (by decide) rfl
      exact .bind ((reads_funDecl hr c true).add 1) fun _ => .advance (.pure rfl rfl)
  · exact .pure rfl rfl

omit hr in
theorem reads_useStmt : Reads P (useStmt r) ahead 0 (fun _ => ahead) fun _ => 0 := by
  refine .current fun tok => .expectPeek (.current fun _ => ?_) (by decide) rfl
  exact .bind (reads_dottedPath _ _) fun _ => .pure rfl rfl

theorem reads_stmt (c : Context) : ReadsForm P (stmt r c) := by
  refine .skipWhile (.current fun tok => ?_) (by decide)
  have hcur {k : Token.Kind} (hk : tok.kind = k) :
      ∀ s : ParseState, True ∧ s.current = tok → s.current.kind = k := by
    rintro s ⟨-, rfl⟩
    exact hk
  split
  case h_1 hk => exact .past .kwLet (hcur hk) (reads_letStmt hr c) (by decide) rfl
  case h_2 hk =>
    refine .past .kwFun (hcur hk) ?_ (by decide) rfl
    exact .bind (reads_funDecl hr c false) fun _ => .pure rfl rfl
  case h_3 hk => exact .past .kwType (hcur hk) (reads_typeStmt hr) (by decide) rfl
  case h_4 hk => exact .past .kwUnion (hcur hk) (reads_unionStmt hr) (by decide) rfl
  case h_5 hk => exact .past .kwImpl (hcur hk) (reads_implStmt hr c) (by decide) rfl
  case h_6 hk => exact .past .kwUse (hcur hk) reads_useStmt (by decide) rfl
  case h_7 hk => exact .past .kwReturn (hcur hk) (reads_returnStmt hr c) (by decide) rfl
  case h_8 hk => exact .past .kwWhile (hcur hk) (reads_whileStmt hr c) (by decide) rfl
  case h_9 hk => exact .past .kwFor (hcur hk) (reads_forStmt hr c) (by decide) rfl
  case h_10 hk => exact .past .kwBreak (hcur hk) (.pure rfl rfl) (by decide) rfl
  case h_11 hk => exact .past .kwContinue (hcur hk) (.pure rfl rfl) (by decide) rfl
  case h_12 hk =>
    exact .past .leftBrace (hcur hk) (.bind (hr.block c) fun _ => .pure rfl rfl) (by decide) rfl
  case h_13 => exact .bind (hr.expr 1 c) fun _ => .pure rfl rfl

omit hr in
theorem run_cleanStmt (c : Context) (s : ParseState) : (cleanStmt r c).run.run s =
    (if ((stmt r c).run.run s).2.errors.length > s.errors.length then some none
      else ((stmt r c).run.run s).1.map some, ((stmt r c).run.run s).2) := rfl

omit hr in
theorem yields_cleanStmt {c : Context} {st? : Option (Stmt .parsed)} {s t : ParseState}
    (h : (cleanStmt r c).Yields s st? t) :
    (st? = none ∧ s.errors.length < t.errors.length) ∨
      ∃ st, st? = some st ∧ (stmt r c).Yields s st t := by
  have hclean := run_cleanStmt (r := r) c s
  rcases hrun : (stmt r c).run.run s with ⟨found?, u⟩
  rw [hrun] at hclean
  obtain ⟨hfound, rfl⟩ : (if u.errors.length > s.errors.length then some none else found?.map some)
      = some st? ∧ u = t := Prod.mk.inj (hclean.symm.trans h)
  split at hfound
  · exact .inl ⟨by simpa using hfound.symm, ‹_›⟩
  · obtain ⟨st, hst, rfl⟩ := Option.map_eq_some_iff.mp hfound
    exact .inr ⟨st, rfl, by rw [Yields, hrun, hst]⟩

omit hr in
theorem yields_cleanStmt_of_quiet {c : Context} {st : Stmt .parsed} {s t : ParseState}
    (h : (stmt r c).Yields s st t) (hquiet : t.errors = s.errors) :
    (cleanStmt r c).Yields s (some st) t := by
  rw [Yields, run_cleanStmt, h]
  simp [hquiet]

omit hr in
theorem yields_skipBroken_bind {close : Token.Kind} {g : Unit → Parse α} {s t : ParseState} {a : α} :
    (skipBroken close >>= g).Yields s a t ↔
      (g ()).Yields { s with tokens := skipStatement close 0 s.tokens } a t := Iff.rfl

theorem reads_stmtRound (c : Context) (close : Token.Kind) (list : List (Stmt .parsed)) :
    Reads P (stmtRound r c close list) ParseState.tokens 0
      (Sum.elim (fun _ => ParseState.tokens) fun _ => ParseState.tokens)
      (Sum.elim (fun _ => 0) fun _ => 0) := by
  refine .skipWhile (.current fun tok => .ite (fun _ => .pure rfl rfl) fun _ => ?_) (by decide)
  intro s y t _ h
  obtain ⟨st?, u, hst, h⟩ := yields_bind.mp h
  rcases yields_cleanStmt hst with ⟨rfl, hgrown⟩ | ⟨st, rfl, hform⟩
  · dsimp only at h
    rw [yields_skipBroken_bind] at h
    obtain ⟨-, rfl⟩ := yields_pure.mp h
    exact ⟨Nat.le_of_lt hgrown, fun heq => absurd heq (Nat.ne_of_gt hgrown)⟩
  · obtain ⟨hle, hspan⟩ := reads_stmt hr c (P := fun _ => True) s st u trivial hform
    simp only [yields_currentIs_bind, yields_advance_bind, yields_current_bind, yields_ite] at h
    split at h
    · obtain ⟨rfl, rfl⟩ := yields_pure.mp h
      rw [Clean, errors_advance]
      refine ⟨hle, fun heq hs => ?_⟩
      have h₁ := hspan heq hs
      exact h₁.trans (span_advance h₁.closed)
    · -- A missing separator is reported.
      rw [yields_report_bind, yields_skipBroken_bind] at h
      obtain ⟨-, rfl⟩ := yields_pure.mp h
      simp only [Clean, List.length_cons, errors_advance]
      exact ⟨by omega, fun heq => by omega⟩

theorem reads_stmtList (c : Context) (close : Token.Kind) :
    Reads P (stmtList r c close) ParseState.tokens 0 (fun _ => ParseState.tokens) fun _ => 0 :=
  .iterate_bind ParseState.tokens 0 (.of_reads fun list => reads_stmtRound hr c close list)
    fun _ => .pure rfl rfl

theorem reads_block_inside (c : Context) :
    Reads P (block r c) ahead 0 (fun _ => ParseState.tokens) fun _ => 0 := by
  refine .current fun opening => .advance (.bind (reads_stmtList hr c.inside .rightBrace) fun stmts => ?_)
  exact .current fun closing => .ite (fun _ => .pure rfl rfl) fun _ => .fail

omit hr in
theorem current_of_block {c : Context} {s t : ParseState} {b : Block .parsed}
    (h : (block r c).Yields s b t) : t.current.kind = .rightBrace := by
  rw [block, yields_current_bind, yields_advance_bind] at h
  obtain ⟨stmts, u, -, h⟩ := yields_bind.mp h
  rw [yields_current_bind, yields_ite] at h
  split at h
  · rename_i hclose
    obtain ⟨-, rfl⟩ := yields_pure.mp h
    simpa using hclose
  · exact absurd h not_yields_fail

theorem reads_block (c : Context) : Reads P (block r c) ahead 1 (fun _ => ahead) fun _ => 0 :=
  .over_closing (reads_block_inside hr c) (fun _ _ _ h => current_of_block h) (by decide) rfl

end Statements

section Family

variable (rounds n : Nat) (c : Context)

theorem rounds_rules : (rules rounds n).rounds = rounds := by
  cases n <;> rfl

theorem rules_expr (level : Nat) : (rules rounds (n + 1)).expr level c = expr (rules rounds n) level c :=
  funext fun s => (rfl : (rules rounds (n + 1)).expr level c s = expr (rules rounds n) level c s)

theorem rules_block : (rules rounds (n + 1)).block c = block (rules rounds n) c :=
  funext fun s => (rfl : (rules rounds (n + 1)).block c s = block (rules rounds n) c s)

theorem rules_cond : (rules rounds (n + 1)).cond c = condForm (rules rounds n) c :=
  funext fun s => (rfl : (rules rounds (n + 1)).cond c s = condForm (rules rounds n) c s)

theorem rules_pattern : (rules rounds (n + 1)).pattern c = pattern (rules rounds n) c :=
  funext fun s => (rfl : (rules rounds (n + 1)).pattern c s = pattern (rules rounds n) c s)

theorem rules_type : (rules rounds (n + 1)).type = typeExpr (rules rounds n) :=
  funext fun s => (rfl : (rules rounds (n + 1)).type s = typeExpr (rules rounds n) s)

theorem sound_rules : Sound (rules rounds n) := by
  induction n with
  | zero =>
    exact ⟨fun _ _ => .failure, fun _ => .failure, fun _ => .failure, fun _ => .failure,
      fun _ _ _ h => absurd h not_yields_failure, fun _ _ _ h => absurd h not_yields_failure⟩
  | succ n ih =>
    constructor
    case expr => exact fun level c => rules_expr rounds n c level ▸ reads_expr ih level c
    case block => exact fun c => rules_block rounds n c ▸ reads_block ih c
    case cond => exact fun c => rules_cond rounds n c ▸ reads_condForm ih c
    case pattern => exact fun c => rules_pattern rounds n c ▸ reads_pattern ih c
    case type => exact rules_type rounds n ▸ readsType_typeExpr ih
    case type_ident => exact rules_type rounds n ▸ fun _ _ _ h => yields_typeExpr_ident h

end Family

end Scripting.Parser
