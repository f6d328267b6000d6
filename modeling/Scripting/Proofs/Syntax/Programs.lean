import Scripting.Proofs.Syntax.Enough
import Scripting.Proofs.Syntax.Lines
import Scripting.Proofs.Syntax.Operators

/-!
# Programs

Every list of tokens with at most one end of input, its last, is parsed, and more nesting or more rounds
change nothing (`parse_accounts`). If nothing is reported, the statements that are found span all tokens but
the separators between them. A rule that finds nothing has reported something, so nothing that the grammar
asks for is left out silently.

The tokens of a source that is read without errors follow each other in its text, and each says its place
there exactly (`read_spread`): so do the tokens of the expressions in a string, however deeply nested, and
the two tokens into which a shift is split. A place in an expression is one in the whole source.
-/

namespace Scripting

namespace Parser

open Parse ParseState

/-- A rule that finds nothing where so much is to be read has reported something. -/
def Reports (N : Nat) {α : Type} (p : Parse α) : Prop :=
  ∀ s t, Ended s.tokens → load s.tokens ≤ N → p.run.run s = (none, t) → s.errors.length < t.errors.length

/-- All rules of a family report what they do not find. -/
structure Heeds (N : Nat) (r : Rules) : Prop where
  stmt : ∀ c, Reports N (stmt r c)
  block : ∀ c, Reports N (r.block c)
  expr : ∀ level c, 1 ≤ level → Reports N (r.expr level c)
  cond : ∀ c, Reports N (r.cond c)
  pattern : ∀ c, Reports N (r.pattern c)
  type : Reports N r.type

/-- The statements span the tokens up to the end of input: each was read from the tokens of its span, and
nothing was reported. Between them are only separators. -/
inductive Spans (r : Rules) (c : Context) : List Token → List (Stmt .parsed) → Prop
  | nil {seps : List Token} {last : Token} : (∀ t ∈ seps, t.kind = .newline ∨ t.kind = .semicolon) →
      last.kind = .eof → Spans r c (seps ++ [last]) []
  | cons {seps span rest : List Token} {st : Stmt .parsed} {stmts : List (Stmt .parsed)} {u : ParseState} :
      (∀ t ∈ seps, t.kind = .newline ∨ t.kind = .semicolon) → span ≠ [] →
      (stmt r c).Yields ⟨span ++ rest, []⟩ st u → u.errors = [] → u.ahead = rest → Spans r c rest stmts →
      Spans r c (seps ++ (span ++ rest)) (st :: stmts)

theorem Agree.reports {α : Type} {p q : Parse α} {good : α → ParseState → Prop} {s t : ParseState}
    (h : Agree p q s good) (hp : p.run.run s = (none, t)) : s.errors.length < t.errors.length := by
  obtain ⟨x?, u, hu, -, -, hend⟩ := h
  obtain ⟨rfl, rfl⟩ := Prod.mk.inj (hu.symm.trans hp)
  exact hend

variable {r : Rules} {N : Nat}

theorem heeds (h : Enough r r (N + 1) (N + 1)) : Heeds N r := by
  have hle {s : ParseState} (hload : load s.tokens ≤ N) : load s.tokens < N + 1 := Nat.lt_succ_of_le hload
  have hahead {s : ParseState} (hload : load s.tokens ≤ N) : load s.ahead < N + 1 :=
    Nat.lt_succ_of_le (Nat.le_trans (load_ahead_le s) hload)
  constructor
  case stmt =>
    exact fun c s t hs hload =>
      (settles_stmt (h.lower (Nat.le_succ N)) c (P := fun _ => True) s trivial hs (hle hload)).reports
  case block => exact fun c s t hs hload => (h.block (P := fun _ => True) c s trivial hs (hahead hload)).reports
  case expr =>
    exact fun level c hlevel s t hs hload =>
      (h.expr (P := fun _ => True) level c hlevel s trivial hs (hle hload)).reports
  case cond => exact fun c s t hs hload => (h.cond (P := fun _ => True) c s trivial hs (hahead hload)).reports
  case pattern => exact fun c s t hs hload =>
    (h.pattern (P := fun _ => True) c s trivial hs (hle hload)).reports
  case type => exact fun s t hs hload => (h.type (P := fun _ => True) s trivial hs (hle hload)).reports

theorem eq_singleton_of_eof {s : ParseState} (h : Ended s.tokens) (hk : s.current.kind = .eof) :
    s.tokens = [s.current] := by
  rcases s with ⟨_ | ⟨t, _ | ⟨u, ts⟩⟩, errors⟩
  · exact absurd rfl h.ne_nil
  · rfl
  · exact absurd hk h.of_cons_cons.1

theorem exists_span (hr : Sound r) (henough : Enough r r (N + 1) N) {c : Context} {s u : ParseState}
    {st : Stmt .parsed} (h : (stmt r c).Yields s st u) (hs : Ended s.tokens) (hload : load s.tokens ≤ N)
    (hquiet : u.errors.length = s.errors.length) :
    Onward s u ∧ ∃ span, span ≠ [] ∧ s.tokens = span ++ u.ahead ∧ u.advance.tokens = u.ahead := by
  have hreads := (reads_stmt hr c (P := fun _ => True) s st u trivial h).2
  obtain ⟨hclosed, span, htokens, -⟩ := hreads hquiet (.of_ended hs)
  obtain ⟨x?, v, hv, -, honward, hless⟩ :=
    settles_stmt henough c (P := fun _ => True) s trivial hs (Nat.lt_succ_of_le hload)
  obtain ⟨rfl, rfl⟩ := Prod.mk.inj (hv.symm.trans h)
  refine ⟨honward, span, ?_, htokens, tokens_advance hclosed⟩
  rintro rfl
  have hless : load v.ahead + 1 ≤ load s.tokens := hless
  rw [htokens] at hless
  exact absurd hless (Nat.not_succ_le_self _)

theorem exists_stmts_of_rounds (hr : Sound r) (henough : Enough r r (N + 1) N) {c : Context} {n : Nat}
    {list list' : List (Stmt .parsed)} {s t : ParseState}
    (h : (iterate (stmtRound r c .eof) n list).Yields s list' t) (hs : Ended s.tokens)
    (hload : load s.tokens ≤ N) (hclean : s.errors = []) (hquiet : t.errors = []) :
    t.current.kind = .eof ∧ ∃ stmts, list' = stmts.reverse ++ list ∧ Spans r c s.tokens stmts := by
  induction n generalizing list s with
  | zero => exact absurd h not_yields_iterate_zero
  | succ n ih =>
    obtain ⟨seps, hseps, htokens⟩ := exists_skipped [.newline, .semicolon] s.tokens
    change s.tokens = seps ++ (pastSeparators s).tokens at htokens
    replace hseps : ∀ t ∈ seps, t.kind = .newline ∨ t.kind = .semicolon := by simpa using hseps
    obtain ⟨hsuffix, hne⟩ := skipWhile_suffix [.newline, .semicolon] s.tokens
    have honward : Onward s (pastSeparators s) := .of_suffix hs hsuffix (hne hs.ne_nil)
    rcases yields_iterate_succ.mp h with hround | ⟨found, u, hround, hrest⟩
    · rcases yields_stmtRound hr hround with ⟨heof, heq, rfl⟩ | ⟨_, _, -, -, ⟨⟩, -⟩ | hgrown
      · obtain rfl : list' = list := Sum.inr.inj heq
        refine ⟨heof, [], rfl, ?_⟩
        rw [htokens, eq_singleton_of_eof honward.ended heof]
        exact .nil hseps heof
      · rw [hquiet] at hgrown
        exact absurd hgrown (Nat.not_lt_zero _)
    · have hmonotone := (yields_stmtRounds hr hrest).1
      rw [hquiet, List.length_nil, Nat.le_zero_eq, List.length_eq_zero_iff] at hmonotone
      rcases yields_stmtRound hr hround with ⟨-, ⟨⟩, -⟩ | ⟨st, w, -, hst, heq, rfl⟩ | hgrown
      · obtain rfl : found = st :: list := Sum.inl.inj heq
        have hw : w.errors = [] := by simpa using hmonotone
        have hle := Nat.le_trans honward.load_le hload
        obtain ⟨hw', span, hspan, hahead, hnext⟩ := exists_span hr henough hst honward.ended hle
          (by rw [hw]; simp [pastSeparators, hclean])
        have hnext' := hw'.trans (.advance hw'.ended)
        obtain ⟨heof, stmts, rfl, hstmts⟩ :=
          ih hrest hnext'.ended (Nat.le_trans hnext'.load_le hle) hmonotone
        have hstate : pastSeparators s = ⟨span ++ w.ahead, []⟩ := by
          rw [← hahead, ← hclean]
          rfl
        refine ⟨heof, st :: stmts, by simp, ?_⟩
        rw [htokens, hahead]
        exact .cons hseps hspan (hstate ▸ hst) hw rfl (hnext ▸ hstmts)
      · rw [hmonotone] at hgrown
        exact absurd hgrown (Nat.not_lt_zero _)

theorem ended_closed {ts : List Token} (h : ∀ t ∈ ts.dropLast, t.kind ≠ .eof) : Ended (closed ts) := by
  rw [closed]
  cases hlast : ts.getLast? with
  | none =>
    exact ⟨[], Token.blank, rfl, rfl, List.forall_mem_nil _⟩
  | some t =>
    obtain ⟨init, rfl⟩ := List.getLast?_eq_some_iff.mp hlast
    rw [List.dropLast_concat] at h
    dsimp only
    split
    · rename_i ht
      exact ⟨init, t, rfl, beq_iff_eq.mp ht, h⟩
    · rename_i ht
      refine ⟨init ++ [t], Token.blank, rfl, rfl, List.forall_mem_append.mpr ⟨h, ?_⟩⟩
      simpa using ht

theorem enough_fuel {ts : List Token} {rounds n m k : Nat} (hrounds : fuel ts ≤ rounds) (hn : fuel ts ≤ n)
    (hm : fuel ts ≤ m) (hk : fuel ts ≤ k) :
    Enough (rules rounds n) (rules m k) (load ts + 1) (load ts + 1) := by
  have hfuel : fuel ts = 2 * load ts + 2 := rfl
  exact (enough_rules (load ts + 1) (by omega) (by omega)).1 n k (by omega) (by omega)

theorem exists_stmts {ts : List Token} (h : Ended ts) : ∃ stmts t, Ended t.tokens ∧
    ∀ rounds n, fuel ts ≤ rounds → fuel ts ≤ n →
      (stmtList (rules rounds n) {} .eof).Yields ⟨ts, []⟩ stmts t := by
  have hload : load (ParseState.mk ts []).tokens < load ts + 1 := Nat.lt_succ_self _
  have hself {rounds n : Nat} (hrounds : fuel ts ≤ rounds) (hn : fuel ts ≤ n) :=
    (enough_fuel (Nat.le_refl _) (Nat.le_refl _) hrounds hn).lower (Nat.le_succ _)
  obtain ⟨stmts, t, ht, -, honward⟩ :=
    exists_stmtList (hself (Nat.le_refl _) (Nat.le_refl _)) {} .eof (s := ⟨ts, []⟩) h hload
  refine ⟨stmts, t, honward.ended, fun rounds n hrounds hn => ?_⟩
  obtain ⟨stmts', t', ht', hother, -⟩ :=
    exists_stmtList (hself hrounds hn) {} .eof (s := ⟨ts, []⟩) h hload
  obtain ⟨rfl, rfl⟩ := ht.unique ht'
  exact hother

/-- What the parser finds in a list of tokens is what its rules yield, however often they may nest and
repeat. -/
theorem exists_parse (file : String) {tokens : List Token} (h : Ended (closed tokens)) :
    ∃ stmts s, Source.parse file tokens = (⟨file, stmts⟩, s.errors.reverse) ∧
      ∀ rounds n, fuel (closed tokens) ≤ rounds → fuel (closed tokens) ≤ n →
        (stmtList (rules rounds n) {} .eof).Yields ⟨closed tokens, []⟩ stmts s := by
  obtain ⟨stmts, s, -, hyields⟩ := exists_stmts h
  refine ⟨stmts, s, ?_, hyields⟩
  have hrun : (stmtList (rulesFor (closed tokens)) {} .eof).run ⟨closed tokens, []⟩ = (some stmts, s) :=
    hyields _ _ (Nat.le_refl _) (Nat.le_refl _)
  rw [Source.parse, hrun]
  rfl

theorem spans_of_yields {ts : List Token} {rounds n : Nat} {stmts : List (Stmt .parsed)} {s : ParseState}
    (h : (stmtList (rules rounds n) {} .eof).Yields ⟨ts, []⟩ stmts s) (hended : Ended ts)
    (hrounds : fuel ts ≤ rounds) (hn : fuel ts ≤ n) (hquiet : s.errors = []) :
    s.current.kind = .eof ∧ Spans (rules rounds n) {} ts stmts := by
  obtain ⟨list, t, hrun, h⟩ := yields_bind.mp h
  obtain ⟨rfl, rfl⟩ := yields_pure.mp h
  obtain ⟨heof, stmts, hlist, hspans⟩ := exists_stmts_of_rounds (sound_rules _ _)
    ((enough_fuel hrounds hn hrounds hn).lower (Nat.le_succ _)) hrun hended (Nat.le_refl _) rfl hquiet
  rw [hlist]
  exact ⟨heof, by simpa using hspans⟩

/-- Parsing ends for every list of tokens with no end of input but its last token, and gives the same with
more nesting and rounds. What is not found is reported: if there is no report, the parser has stopped at the
end of input, and every token but the separators between statements lies in the span of a statement. -/
theorem parse_accounts (file : String) (tokens : List Token) (h : ∀ t ∈ tokens.dropLast, t.kind ≠ .eof) :
    ∃ stmts s, Source.parse file tokens = (⟨file, stmts⟩, s.errors.reverse) ∧
      ∀ rounds n, fuel (closed tokens) ≤ rounds → fuel (closed tokens) ≤ n →
        (stmtList (rules rounds n) {} .eof).Yields ⟨closed tokens, []⟩ stmts s ∧
        Heeds (load (closed tokens)) (rules rounds n) ∧
        (s.errors = [] → s.current.kind = .eof ∧ Spans (rules rounds n) {} (closed tokens) stmts) := by
  have hended := ended_closed h
  obtain ⟨stmts, s, hparse, hyields⟩ := exists_parse file hended
  refine ⟨stmts, s, hparse, fun rounds n hrounds hn => ?_⟩
  have hrun := hyields rounds n hrounds hn
  exact ⟨hrun, heeds (enough_fuel hrounds hn hrounds hn), spans_of_yields hrun hended hrounds hn⟩

/-- Four statements. The annotation of the first one ends in a token that the parser splits, and the function
in the second one has a text with an expression in it. -/
def wrapping : List Token := (Token.scan ("let wrapped: Option<Option<Int>> = Some(Some(1))\n"
  ++ "fun show(n: Int): String \x7b \"n is \x7bn + 1\x7d\" \x7d\n" ++ "print(show(2)); wrapped") "a.jz").1

theorem parse_accounts_wrapping : (∀ t ∈ wrapping.dropLast, t.kind ≠ .eof) ∧
    (∃ t ∈ wrapping, t.kind = .shiftRight) ∧ (∃ t ∈ wrapping, t.kind = .interpolated) ∧
      ∃ stmts, stmts.length = 4 ∧ Source.parse "a.jz" wrapping = (⟨"a.jz", stmts⟩, []) ∧
        Spans (rulesFor (closed wrapping)) {} (closed wrapping) stmts := by
  obtain ⟨hplain, hshift, hparts, hread⟩ : (∀ t ∈ wrapping.dropLast, t.kind ≠ .eof) ∧
      (∃ t ∈ wrapping, t.kind = .shiftRight) ∧ (∃ t ∈ wrapping, t.kind = .interpolated) ∧
        (Source.parse "a.jz" wrapping).1.stmts.length = 4 ∧ (Source.parse "a.jz" wrapping).2 = [] := by
    decide +kernel
  obtain ⟨stmts, s, hparse, hmore⟩ := parse_accounts "a.jz" wrapping hplain
  rw [hparse] at hread
  have hquiet : s.errors = [] := List.reverse_eq_nil_iff.mp hread.2
  obtain ⟨-, -, hspans⟩ := hmore _ _ (Nat.le_refl _) (Nat.le_refl _)
  exact ⟨hplain, hshift, hparts, stmts, hread.1, by rw [hparse, hquiet]; rfl, (hspans hquiet).2⟩

end Parser

def Token.halves (t : Token) : List Token := (ParseState.splitShift ⟨[.blank, t], []⟩).tokens.tail

/-- The token, which stands behind `pre` in its source, says the line and the column behind `pre`. The tokens
of the expressions in its literal and the halves of a shift stand in its lexeme, and say theirs. -/
inductive Token.Exact (file : String) : List Char → Token → Prop
  | mk {pre : List Char} {t : Token} : t.line = lineBehind pre → t.col = colBehind pre →
      (t.kind = .interpolated → ∀ ps, t.literal = .parts ps →
        Holds (fun before code line col =>
            Spread (Token.Exact file) before (Token.scanAt code line (col - 1) file).1 code.toList)
          pre t.lexeme.toList ps) →
      (t.kind = .shiftRight → Spread (Token.Exact file) pre t.halves t.lexeme.toList) → Token.Exact file pre t

namespace Token

variable {file : String} {pre : List Char} {t : Token}

theorem exists_halves (t : Token) : ∃ first second, t.halves = [first, second] ∧
    (first.kind = .gt ∧ first.lexeme = ">" ∧ first.line = t.line ∧ first.col = t.col) ∧
    second.kind = .gt ∧ second.lexeme = ">" ∧ second.line = t.line ∧ second.col = t.col + 1 :=
  ⟨_, _, rfl, ⟨rfl, rfl, rfl, rfl⟩, rfl, rfl, rfl, rfl⟩

theorem Stands.halves_spread (h : t.Stands True file pre) (hk : t.kind = .shiftRight) :
    Spread (Token.Exact file) pre t.halves t.lexeme.toList := by
  -- Neither half is a string or a shift.
  have hhalf {pre : List Char} {half : Token} (hkind : half.kind = .gt) (hline : half.line = lineBehind pre)
      (hcol : half.col = colBehind pre) : half.Exact file pre :=
    ⟨hline, hcol, fun hk => absurd (hkind.symm.trans hk) Kind.noConfusion,
      fun hk => absurd (hkind.symm.trans hk) Kind.noConfusion⟩
  obtain ⟨first, second, hhalves, ⟨hkind, htext, hline, hcol⟩, hkind', htext', hline', hcol'⟩ := t.exists_halves
  have hplain : '\n' ∉ ['>'] := by decide
  have hfirst : first.Exact file pre :=
    hhalf hkind (hline.trans (h.line trivial)) (hcol.trans (h.col trivial))
  have hsecond : second.Exact file (pre ++ ['>']) := by
    refine hhalf hkind' ?_ ?_
    · rw [hline', h.line trivial, lineBehind_append hplain]
    · rw [hcol', h.col trivial, colBehind_append hplain]
      rfl
  have hlexeme : ">".toList = ['>'] := rfl
  rw [h.shift hk, hhalves]
  have hend : Spread (Token.Exact file) (pre ++ ['>'] ++ ['>']) [] [] := .nil (by simp)
  exact .next hfirst (htext ▸ hlexeme) (.next hsecond (htext' ▸ hlexeme) hend)

theorem Legible.exact (hlegible : t.Legible) (h : t.Stands True file pre) : t.Exact file pre := by
  induction hlegible generalizing pre with
  | @mk t errors _ ih =>
    refine ⟨h.line trivial, h.col trivial, fun hk ps hps => ?_, h.halves_spread⟩
    refine (h.parts ps hps).mono fun before code line col hmem hplace => ?_
    have hsegment : t.Segment code line col := ⟨hk, ps, hps, hmem⟩
    obtain rfl := h.inFile
    refine (Lexer.scanAt_spread ?_ (errors code line col hsegment)).mono fun pre u hu hstands =>
      ih code line col hsegment u hu hstands
    rwa [Int.sub_add_cancel]

end Token

namespace Parser

open ParseState

theorem legible_of_parse {file : String} {tokens : List Token} {src : Source .parsed} (hended : Ended tokens)
    (h : Source.parse file tokens = (src, [])) : ∀ t ∈ tokens, t.Legible := by
  have hclosed := closed_eq (.of_ended hended)
  obtain ⟨stmts, s, hparse, hyields⟩ := exists_parse file (hclosed.symm ▸ hended)
  rw [hclosed] at hyields
  have hquiet : s.errors = [] := by simpa [hparse] using congrArg Prod.snd h
  have hrun := hyields _ _ (Nat.le_refl _) (Nat.le_refl _)
  obtain ⟨heof, -⟩ := spans_of_yields hrun hended (Nat.le_refl _) (Nat.le_refl _) hquiet
  obtain ⟨hends, seg, htokens, -, hlegible⟩ :=
    (reads_stmtList (sound_rules _ _) (P := fun _ => True) {} .eof _ _ _ trivial hrun).2
      (by rw [hquiet]) (.of_ended hended)
  have hends : s.tokens = [s.current] := by
    obtain ⟨more, hmore⟩ : ∃ more, s.tokens = s.current :: more := ⟨_, tokens_eq_cons hends⟩
    change tokens = seg ++ s.tokens at htokens
    rw [htokens, hmore] at hended
    rw [hmore, (hended.init_eq heof).1]
  change tokens = seg ++ s.tokens at htokens
  rw [htokens, hends]
  refine List.forall_mem_append.mpr ⟨hlegible, ?_⟩
  rw [List.forall_mem_singleton]
  exact .of_kind (by rw [heof]; exact Token.Kind.noConfusion)

end Parser

open Parser

theorem parse_of_read {text file : String} {src : Source .parsed} (h : Source.read text file = .ok src) :
    (Token.scan text file).2 = [] ∧ Source.parse file (Token.scan text file).1 = (src, []) := by
  unfold Source.read at h
  split at h
  · rename_i tokens hscan
    split at h
    · rename_i found hparse
      obtain rfl : found = src := Except.ok.inj h
      rw [hscan]
      exact ⟨rfl, hparse⟩
    · cases h
  · cases h

/-- The tokens of a source that is read without errors spread over its text, and all of them say exactly
where they stand. -/
theorem Source.read_spread {text file : String} {src : Source .parsed} (h : Source.read text file = .ok src) :
    Spread (Token.Exact file) [] (Token.scan text file).1 text.toList := by
  obtain ⟨hquiet, hparse⟩ := parse_of_read h
  rw [Token.scan] at hquiet hparse ⊢
  have hlegible := legible_of_parse (Lexer.scanAt_ended hquiet) hparse
  have hstart : Points True [] 1 (0 + 1) := fun _ => ⟨rfl, rfl⟩
  exact (Lexer.scanAt_spread hstart hquiet).mono fun pre t ht hstands => (hlegible t ht).exact hstands

/-- The name in a string on the second line of a source stands at a place of the source. -/
theorem Source.read_spread_quoted : ∃ src, Source.read "\n \"\x7ba\x7d\"" "" = .ok src ∧
    Spread (Token.Exact "") [] (Token.scan "\n \"\x7ba\x7d\"" "").1 "\n \"\x7ba\x7d\"".toList := by
  have hsome : (Source.read "\n \"\x7ba\x7d\"" "").toOption.isSome = true := by decide +kernel
  cases hread : Source.read "\n \"\x7ba\x7d\"" "" with
  | error errors =>
    rw [hread] at hsome
    cases hsome
  | ok src => exact ⟨src, rfl, read_spread hread⟩

end Scripting
