import Scripting.Token.Lexer

/-!
# How the tokens of a text spread over it

A text that is read without errors consists of the lexemes of its tokens, in order, and of what is skipped
in front of them: blanks and comments (`scanAt_spread`). Every token says the place where it stands, and
so does every expression in the literal of an interpolated string.
-/

namespace Scripting

/-!
## Places in a text

The place behind some text is a line and a column. `Cursor.Passes` says that one cursor is reached from
another over some characters; what stood behind a text then stands behind that text and these characters.
-/

def lineBehind (text : List Char) : Int := 1 + text.count '\n'

/-- The column behind some text: one more than the characters behind its last newline. -/
def colBehind (text : List Char) : Int := 1 + (text.reverse.takeWhile (· != '\n')).length

theorem lineBehind_newline (text : List Char) : lineBehind (text ++ ['\n']) = lineBehind text + 1 := by
  simp [lineBehind]
  omega

theorem colBehind_newline (text : List Char) : colBehind (text ++ ['\n']) = 1 := by
  simp [colBehind]

theorem lineBehind_append {text cs : List Char} (h : '\n' ∉ cs) :
    lineBehind (text ++ cs) = lineBehind text := by
  simp [lineBehind, List.count_eq_zero_of_not_mem h]

theorem colBehind_append {text cs : List Char} (h : '\n' ∉ cs) :
    colBehind (text ++ cs) = colBehind text + cs.length := by
  have hline : ∀ c ∈ cs.reverse, (c != '\n') = true := by
    intro c hc
    rw [bne_iff_ne]
    rintro rfl
    exact h (List.mem_reverse.mp hc)
  rw [colBehind, List.reverse_append, List.takeWhile_append_of_pos hline, List.length_append,
    List.length_reverse, colBehind]
  omega

namespace Cursor

variable {c c' c'' : Cursor} {cs ds text : List Char}

def Behind (c : Cursor) (text : List Char) : Prop := c.line = lineBehind text ∧ c.col = colBehind text

@[simp] theorem rest_advance (c : Cursor) : c.advance.rest = c.rest.tail := by
  unfold advance
  split <;> rfl

@[simp] theorem rest_advanceBy (c : Cursor) (n : Nat) : (c.advanceBy n).rest = c.rest.drop n := by
  induction n generalizing c with
  | zero => rfl
  | succ n ih => rw [advanceBy, ih, rest_advance, List.drop_tail]

theorem rest_of_current {d : Char} (h : c.current = d) (hd : d ≠ '\x00') : ∃ rest, c.rest = d :: rest := by
  rcases c with ⟨_ | ⟨e, rest⟩, line, col⟩
  · exact absurd h.symm hd
  · exact ⟨rest, congrArg (· :: rest) h⟩

/-- From a cursor over some characters to another one. -/
structure Passes (c : Cursor) (cs : List Char) (c' : Cursor) : Prop where
  rest : c.rest = cs ++ c'.rest
  behind : ∀ text, c.Behind text → c'.Behind (text ++ cs)

namespace Passes

theorem refl (c : Cursor) : c.Passes [] c := ⟨rfl, fun text h => by rwa [List.append_nil]⟩

theorem trans (h : c.Passes cs c') (h' : c'.Passes ds c'') : c.Passes (cs ++ ds) c'' :=
  ⟨by rw [h.rest, h'.rest, List.append_assoc],
    fun text hc => by rw [← List.append_assoc]; exact h'.behind _ (h.behind _ hc)⟩

theorem line {rest : List Char} {line col : Int} (h : '\n' ∉ cs) :
    (Cursor.mk (cs ++ rest) line col).Passes cs ⟨rest, line, col + cs.length⟩ := by
  refine ⟨rfl, fun text hc => ⟨?_, ?_⟩⟩
  · rw [lineBehind_append h]
    exact hc.1
  · rw [colBehind_append h]
    exact congrArg (· + (cs.length : Int)) hc.2

theorem newline {rest : List Char} {line col : Int} :
    (Cursor.mk ('\n' :: rest) line col).Passes ['\n'] ⟨rest, line + 1, 1⟩ := by
  refine ⟨rfl, fun text hc => ⟨?_, ?_⟩⟩
  · rw [lineBehind_newline]
    exact congrArg (· + 1) hc.1
  · rw [colBehind_newline]

theorem next {d : Char} {rest : List Char} {line col : Int} (h : d ≠ '\n') :
    (Cursor.mk (d :: rest) line col).Passes [d] ⟨rest, line, col + 1⟩ :=
  have hline : '\n' ∉ [d] := by simpa using Ne.symm h
  .line hline

theorem char (d : Char) {rest : List Char} {line col : Int} :
    (Cursor.mk (d :: rest) line col).Passes [d]
      ⟨rest, if d == '\n' then line + 1 else line, if d == '\n' then 1 else col + 1⟩ := by
  by_cases h : d = '\n'
  · subst h
    exact newline
  · simp only [beq_iff_eq, h, if_false]
    exact next h

theorem advance {d : Char} {rest : List Char} (h : c.rest = d :: rest) : c.Passes [d] c.advance := by
  rcases c with ⟨_, line, col⟩
  subst h
  have hpasses : (Cursor.mk (d :: rest) line col).Passes [d] _ := char d
  by_cases hd : d = '\n' <;> simpa [Cursor.advance, Cursor.current, hd] using hpasses

theorem advanceBy {n : Nat} (h : n ≤ c.rest.length) : c.Passes (c.rest.take n) (c.advanceBy n) := by
  induction n generalizing c with
  | zero => exact refl c
  | succ n ih =>
    obtain ⟨d, rest, hrest⟩ := List.exists_cons_of_length_pos (Nat.lt_of_lt_of_le (Nat.succ_pos n) h)
    have hnext := ih (c := c.advance) (by rw [rest_advance, List.length_tail]; omega)
    rw [rest_advance, hrest, List.tail_cons] at hnext
    rw [hrest, List.take_succ_cons]
    exact (advance hrest).trans hnext

end Passes

end Cursor

open Lexer

/-- Blanks, and perhaps a comment behind them. -/
inductive Skipped : List Char → Prop
  | nil : Skipped []
  | blank {c cs} : c = ' ' ∨ c = '\t' ∨ c = '\r' → Skipped cs → Skipped (c :: cs)
  | comment {cs} : '\n' ∉ cs → Skipped ('/' :: '/' :: cs)

/-- In a literal that stands behind `pre` the expressions of its parts follow each other between braces;
`P` holds of the text in front of each, its source and the place that its part names. -/
inductive Holds (P : List Char → String → Int → Int → Prop) : List Char → List Char → List Token.Part → Prop
  | nil {pre} : Holds P pre [] []
  | char {pre text ps} (c : Char) : Holds P (pre ++ [c]) text ps → Holds P pre (c :: text) ps
  | text {pre text ps} (value : String) : Holds P pre text ps → Holds P pre text (.text value :: ps)
  | source {pre text ps} {code : String} {line col : Int} : P (pre ++ ['\x7b']) code line col →
      Holds P (pre ++ '\x7b' :: (code.toList ++ ['\x7d'])) text ps →
      Holds P pre ('\x7b' :: (code.toList ++ '\x7d' :: text)) (.source code line col :: ps)

/-- The tokens of a text that stands behind `pre`: they follow each other in it, skipped characters in
front of each, and `Q` holds of the text in front of each token. Only what a NUL starts is not read. -/
inductive Spread (Q : List Char → Token → Prop) : List Char → List Token → List Char → Prop
  | nil {pre rest} : (∀ c ∈ rest.head?, c = '\x00') → Spread Q pre [] rest
  | cons {pre gap rest : List Char} {t : Token} {ts : List Token} : Skipped gap → Q (pre ++ gap) t →
      Spread Q (pre ++ gap ++ t.lexeme.toList) ts rest →
      Spread Q pre (t :: ts) (gap ++ (t.lexeme.toList ++ rest))

@[simp] theorem Token.Part.sizes_nil : sizes [] = 0 := rfl

@[simp] theorem Token.Part.sizes_cons (p : Token.Part) (ps : List Token.Part) :
    sizes (p :: ps) = p.size + sizes ps := rfl

namespace Holds

variable {P P' : List Char → String → Int → Int → Prop} {pre text more : List Char} {ps qs : List Token.Part}

theorem append (h : Holds P pre text ps) (h' : Holds P (pre ++ text) more qs) :
    Holds P pre (text ++ more) (ps ++ qs) := by
  induction h with
  | nil => simpa using h'
  | char c _ ih => exact .char c (ih (by simpa using h'))
  | text value _ ih => exact .text value (ih h')
  | source hP _ ih =>
    have := Holds.source hP (ih (by simpa using h'))
    simpa using this

theorem mono (h : Holds P pre text ps) (hP : ∀ before code line col, .source code line col ∈ ps →
    P before code line col → P' before code line col) : Holds P' pre text ps := by
  induction h with
  | nil => exact .nil
  | char c _ ih => exact .char c (ih hP)
  | text value _ ih => exact .text value (ih fun _ _ _ _ hmem => hP _ _ _ _ (.tail _ hmem))
  | source hsource _ ih =>
    exact .source (hP _ _ _ _ (.head _) hsource) (ih fun _ _ _ _ hmem => hP _ _ _ _ (.tail _ hmem))

theorem snoc (h : Holds P pre text ps) (c : Char) : Holds P pre (text ++ [c]) ps := by
  simpa using h.append (.char c .nil)

theorem snoc_text (h : Holds P pre text ps) (value : String) : Holds P pre text (ps ++ [.text value]) := by
  simpa using h.append (.text value .nil)

theorem snoc_source (h : Holds P pre text ps) (code : String) {line col : Int}
    (hP : P (pre ++ (text ++ ['\x7b'])) code line col) :
    Holds P pre (text ++ '\x7b' :: (code.toList ++ ['\x7d'])) (ps ++ [.source code line col]) :=
  h.append (.source (by rwa [List.append_assoc]) .nil)

theorem sizes_le (h : Holds P pre text ps) : Token.Part.sizes ps ≤ text.length - 1 := by
  induction h with
  | nil => exact Nat.le_refl 0
  | char c _ ih => exact Nat.le_trans ih (Nat.sub_le ..)
  | text value _ ih => simpa [Token.Part.size] using ih
  | source _ _ ih =>
    simp only [Token.Part.sizes_cons, Token.Part.size, List.length_cons, List.length_append,
      String.length_toList]
    omega

end Holds

theorem Spread.mono {Q Q' : List Char → Token → Prop} {pre text : List Char} {ts : List Token}
    (h : Spread Q pre ts text) (hQ : ∀ pre, ∀ t ∈ ts, Q pre t → Q' pre t) : Spread Q' pre ts text := by
  induction h with
  | nil hrest => exact .nil hrest
  | cons hgap ht _ ih =>
    exact .cons hgap (hQ _ _ (.head _) ht) (ih fun pre t hmem => hQ pre t (.tail _ hmem))

theorem Spread.exists_of_mem {Q : List Char → Token → Prop} {pre text : List Char} {ts : List Token} {t : Token}
    (h : Spread Q pre ts text) (ht : t ∈ ts) : ∃ before, Q before t := by
  induction h with
  | nil => cases ht
  | cons _ hu _ ih =>
    rcases List.mem_cons.mp ht with rfl | ht
    · exact ⟨_, hu⟩
    · exact ih ht

theorem Spread.next {Q : List Char → Token → Prop} {pre text rest : List Char} {t : Token} {ts : List Token}
    (ht : Q pre t) (htext : t.lexeme.toList = text) (h : Spread Q (pre ++ text) ts rest) :
    Spread Q pre (t :: ts) (text ++ rest) := by
  subst htext
  have hplace : Q (pre ++ []) t := by rwa [List.append_nil]
  exact .cons .nil hplace (by rwa [List.append_nil])

def Ended (ts : List Token) : Prop :=
  ∃ init last, ts = init ++ [last] ∧ last.kind = .eof ∧ ∀ t ∈ init, t.kind ≠ .eof

theorem Ended.init_eq {seg us : List Token} {t : Token} (h : Ended (seg ++ t :: us)) (ht : t.kind = .eof) :
    us = [] ∧ ∀ u ∈ seg, u.kind ≠ .eof := by
  obtain ⟨init, last, heq, -, hinit⟩ := h
  have hdrop := congrArg List.dropLast heq
  rw [List.dropLast_concat, List.dropLast_append_of_ne_nil (List.cons_ne_nil _ _)] at hdrop
  cases us with
  | nil => exact ⟨rfl, fun u hu => hinit u (by rw [← hdrop]; simpa using hu)⟩
  | cons u us => exact absurd ht (hinit t (by rw [← hdrop]; simp))

/-- A line and a column are those behind a text, provided that it is `known` where the text starts. -/
def Points (known : Prop) (before : List Char) (line col : Int) : Prop :=
  known → line = lineBehind before ∧ col = colBehind before

def Word (cs : List Char) : Prop := ∃ c ds, cs = c :: ds ∧ isWordStart c = true ∧
  (∀ d ∈ ds, isWordPart d = true) ∧ Token.Kind.ofWord (String.ofList cs) = .ident

/-- The token of a file says where it stands, and where the expressions in its literal do. -/
structure Token.Stands (known : Prop) (file : String) (pre : List Char) (t : Token) : Prop where
  line : known → t.line = lineBehind pre
  col : known → t.col = colBehind pre
  inFile : t.file = file
  parts : ∀ ps, t.literal = .parts ps → Holds (fun before _ => Points known before) pre t.lexeme.toList ps
  shift : t.kind = .shiftRight → t.lexeme.toList = ['>', '>']
  word : t.kind = .ident → Word t.lexeme.toList
  empty : t.lexeme.toList = [] ↔ t.kind = .eof

namespace Lexer

variable {known : Prop} {file : String} {pre : List Char} {line col : Int}

theorem skipComment_passes (line : Int) (cs : List Char) (col : Int) : ∃ gap, '\n' ∉ gap ∧
    (Cursor.mk cs line col).Passes gap (skipComment line cs col) := by
  induction cs generalizing col with
  | nil => exact ⟨[], List.not_mem_nil, .refl _⟩
  | cons c cs ih =>
    rw [skipComment]
    split
    · exact ⟨[], List.not_mem_nil, .refl _⟩
    · rename_i hc
      obtain ⟨gap, hgap, hpasses⟩ := ih (col + 1)
      have hline : c ≠ '\n' := by
        rintro rfl
        simp at hc
      exact ⟨c :: gap, by simp [hline.symm, hgap], (Cursor.Passes.next hline).trans hpasses⟩

theorem skipBlanks_passes (line : Int) (cs : List Char) (col : Int) : ∃ gap, Skipped gap ∧
    (Cursor.mk cs line col).Passes gap (skipBlanks line cs col) := by
  induction cs generalizing col with
  | nil => exact ⟨[], .nil, .refl _⟩
  | cons c cs ih =>
    rw [skipBlanks]
    split
    · rename_i hc
      obtain ⟨gap, hgap, hpasses⟩ := ih (col + 1)
      have hblank : c = ' ' ∨ c = '\t' ∨ c = '\r' := by simpa [or_assoc] using hc
      have hline : c ≠ '\n' := by
        rintro rfl
        simp at hc
      exact ⟨c :: gap, .blank hblank hgap, (Cursor.Passes.next hline).trans hpasses⟩
    · split
      · rename_i hc
        obtain ⟨ds, hds⟩ : ∃ ds, c :: cs = '/' :: '/' :: ds := by
          unfold opensComment at hc
          split at hc
          · rename_i ds heq
            exact ⟨ds, heq⟩
          · cases hc
        rw [hds]
        have hstep (col : Int) (es : List Char) : skipComment line ('/' :: es) col =
            skipComment line es (col + 1) := by simp [skipComment]
        obtain ⟨gap, hgap, hpasses⟩ := skipComment_passes line ds (col + 1 + 1)
        have hslash : '\n' ∉ ['/', '/'] := by decide
        have hopen : (Cursor.mk ('/' :: '/' :: ds) line col).Passes ['/', '/'] _ := .line hslash
        rw [hstep, hstep]
        refine ⟨'/' :: '/' :: gap, .comment hgap, hopen.trans ?_⟩
        rwa [show col + (['/', '/'] : List Char).length = col + 1 + 1 from by simp [Int.add_assoc]]
      · exact ⟨[], .nil, .refl _⟩

/-- In front of the expression that is being read everything has been read, and it starts at a place. -/
def Within (known : Prop) (pre : List Char) (line col : Int) (s : StringState) : Prop :=
  ∃ before, s.lexeme.reverse = before ++ '\x7b' :: s.source.reverse ∧
    Holds (fun before _ => Points known before) pre before s.parts.reverse ∧
    Points known (pre ++ (before ++ ['\x7b'])) line col

/-- What has been read of a literal behind `pre`: the expressions found so far, and the one that is being
read. -/
def Reading (known : Prop) (pre : List Char) : StringMode → StringState → Prop
  | .code l k _, s | .nested l k _, s | .nestedEscape l k _, s => Within known pre l k s
  | _, s => Holds (fun before _ => Points known before) pre s.lexeme.reverse s.parts.reverse

/-- A literal that was read without errors. -/
structure Finished (known : Prop) (pre : List Char) (tok : Token) (s : StringState) (cs : List Char)
    (r : Step) : Prop where
  errors : s.errors = []
  rest : ∃ more, cs = more ++ r.next.rest ∧ r.token.lexeme.toList = s.lexeme.reverse ++ more
  next : known → r.next.Behind (pre ++ r.token.lexeme.toList)
  kind : r.token.kind = .string ∨ r.token.kind = .interpolated
  place : r.token.line = tok.line ∧ r.token.col = tok.col ∧ r.token.file = tok.file
  parts : ∀ ps, r.token.literal = .parts ps →
    Holds (fun before _ => Points known before) pre r.token.lexeme.toList ps

theorem Finished.cons {tok : Token} {s s' : StringState} {c : Char} {cs : List Char} {r : Step}
    (h : Finished known pre tok s' cs r) (herrors : s'.errors = [] → s.errors = [])
    (hlexeme : s'.lexeme = c :: s.lexeme) : Finished known pre tok s (c :: cs) r := by
  obtain ⟨more, rfl, hmore⟩ := h.rest
  refine ⟨herrors h.errors, ⟨c :: more, rfl, ?_⟩, h.next, h.kind, h.place, h.parts⟩
  rw [hmore, hlexeme]
  simp

theorem errors_unterminated (s : StringState) (tok : Token) (next : Cursor) (msg : String) :
    (s.unterminated tok next msg).errors ≠ [] := by
  simp [StringState.unterminated]

theorem Holds_flush {P : List Char → String → Int → Int → Prop} {s : StringState} {text : List Char}
    (h : Holds P pre text s.parts.reverse) : Holds P pre text s.flush.parts.reverse := by
  unfold StringState.flush
  split
  · exact h
  · rw [List.reverse_cons]
    exact h.snoc_text _

theorem Within.snoc {s s' : StringState} {c : Char} (h : Within known pre line col s)
    (hlexeme : s'.lexeme = c :: s.lexeme) (hsource : s'.source = c :: s.source) (hparts : s'.parts = s.parts) :
    Within known pre line col s' := by
  obtain ⟨before, heq, hrest⟩ := h
  refine ⟨before, ?_, hparts ▸ hrest⟩
  rw [hlexeme, hsource, List.reverse_cons, heq]
  simp

theorem finished_finish {tok : Token} {s : StringState} {cs : List Char} {line col : Int}
    (hs : Reading known pre .text s)
    (hcursor : known → (Cursor.mk cs line col).Behind (pre ++ (s.lexeme.reverse ++ ['"'])))
    (herrors : s.errors.reverse = []) : Finished known pre tok s ('"' :: cs)
      ⟨{ s with lexeme := '"' :: s.lexeme }.finish tok, ⟨cs, line, col⟩, s.errors.reverse⟩ := by
  have hlexeme : ({ s with lexeme := '"' :: s.lexeme }.finish tok).lexeme.toList = s.lexeme.reverse ++ ['"'] := by
    unfold StringState.finish
    split <;> simp
  refine ⟨List.reverse_eq_nil_iff.mp herrors, ⟨['"'], rfl, hlexeme⟩, ?_, ?_, ?_, fun ps hps => ?_⟩
  · rw [hlexeme]
    exact hcursor
  · unfold StringState.finish
    split
    · exact .inr rfl
    · exact .inl rfl
  · unfold StringState.finish
    split <;> exact ⟨rfl, rfl, rfl⟩
  · rw [hlexeme]
    unfold StringState.finish at hps
    split at hps
    · cases hps
      exact Holds_flush (s := { s with lexeme := '"' :: s.lexeme }) (hs.snoc '"')
    · cases hps

theorem scanString_finished (tok : Token) (mode : StringMode) (s : StringState) (cs : List Char)
    (line col : Int) (hcursor : known → (Cursor.mk cs line col).Behind (pre ++ s.lexeme.reverse))
    (hs : Reading known pre mode s) (h : (scanString tok mode s cs line col).errors = []) :
    Finished known pre tok s cs (scanString tok mode s cs line col) := by
  induction cs generalizing mode s line col with
  | nil => cases mode <;> exact absurd h (errors_unterminated _ _ _ _)
  | cons c cs ih =>
    -- Whatever the mode, the next state has the character in its lexeme and no error is taken back.
    have hnext (mode' : StringMode) (s' : StringState) (hlexeme : s'.lexeme = c :: s.lexeme)
        (herrors : s'.errors = [] → s.errors = []) (hs' : Reading known pre mode' s')
        (h : (scanString tok mode' s' cs (if c == '\n' then line + 1 else line)
          (if c == '\n' then 1 else col + 1)).errors = []) :
        Finished known pre tok s (c :: cs) (scanString tok mode' s' cs (if c == '\n' then line + 1 else line)
          (if c == '\n' then 1 else col + 1)) := by
      refine (ih mode' s' _ _ ?_ hs' h).cons herrors hlexeme
      rw [hlexeme, List.reverse_cons, ← List.append_assoc]
      exact fun h => (Cursor.Passes.char c).behind _ (hcursor h)
    cases mode with
    | text =>
      have hchar : Holds (fun before _ => Points known before) pre
          (c :: s.lexeme).reverse s.parts.reverse := by
        rw [List.reverse_cons]
        exact hs.snoc c
      rw [scanString] at h ⊢
      dsimp only at h ⊢
      by_cases hnul : (c == '\x00') = true
      · rw [if_pos hnul] at h
        exact absurd h (errors_unterminated _ _ _ _)
      rw [if_neg hnul] at h ⊢
      by_cases hquote : (c == '"') = true
      · rw [if_pos hquote] at h ⊢
        obtain rfl : c = '"' := by simpa using hquote
        refine finished_finish hs ?_ h
        rw [← List.append_assoc]
        exact fun h => (Cursor.Passes.char '"').behind _ (hcursor h)
      rw [if_neg hquote] at h ⊢
      by_cases hescape : (c == '\\') = true
      · rw [if_pos hescape] at h ⊢
        exact hnext _ _ rfl id hchar h
      rw [if_neg hescape] at h ⊢
      by_cases hbrace : (c == '\x7b') = true
      · rw [if_pos hbrace] at h ⊢
        obtain rfl : c = '\x7b' := by simpa using hbrace
        have hplain : '\n' ∉ ['\x7b'] := by decide
        refine hnext _ _ rfl (fun h => ?_) ⟨s.lexeme.reverse, by simp, Holds_flush hs, fun hknown => ?_⟩ h
        · simpa [StringState.flush, apply_ite] using h
        · rw [← List.append_assoc, lineBehind_append hplain, colBehind_append hplain]
          exact ⟨(hcursor hknown).1, congrArg (· + 1) (hcursor hknown).2⟩
      rw [if_neg hbrace] at h ⊢
      exact hnext _ _ rfl id hchar h
    | escape =>
      rw [scanString] at h ⊢
      refine hnext _ _ ?_ ?_ ?_ h
      · split <;> rfl
      · split
        · exact id
        · exact fun h => absurd h (List.cons_ne_nil _ _)
      · split <;>
        · simp only [Reading, List.reverse_cons]
          exact hs.snoc c
    | code l k depth =>
      rw [scanString] at h ⊢
      dsimp only at h ⊢
      by_cases hclose : (c == '\x7d' && depth == 0) = true
      · rw [if_pos hclose] at h ⊢
        obtain ⟨rfl, -⟩ : c = '\x7d' ∧ depth = 0 := by simpa using hclose
        obtain ⟨before, heq, hholds, hplace⟩ := hs
        refine hnext _ _ rfl id ?_ h
        have hsource := hholds.snoc_source (String.ofList s.source.reverse) hplace
        rw [String.toList_ofList] at hsource
        simpa [Reading, heq] using hsource
      rw [if_neg hclose] at h ⊢
      by_cases hnul : (c == '\x00') = true
      · rw [if_pos hnul] at h
        exact absurd h (errors_unterminated _ _ _ _)
      rw [if_neg hnul] at h ⊢
      have hsource : Reading known pre (.code l k depth)
          { s with lexeme := c :: s.lexeme, source := c :: s.source } :=
        hs.snoc rfl rfl rfl
      split at h <;> rename_i hc
      · rw [if_pos hc]
        exact hnext _ _ rfl id hsource h
      rw [if_neg hc]
      split at h <;> rename_i hc
      · rw [if_pos hc]
        exact hnext _ _ rfl id hsource h
      rw [if_neg hc]
      split at h <;> rename_i hc
      · rw [if_pos hc]
        exact hnext _ _ rfl id hsource h
      rw [if_neg hc]
      exact hnext _ _ rfl id hsource h
    | nested l k depth =>
      have hsource : Reading known pre (.nested l k depth)
          { s with lexeme := c :: s.lexeme, source := c :: s.source } :=
        hs.snoc rfl rfl rfl
      rw [scanString] at h ⊢
      split at h <;> rename_i hc
      · rw [if_pos hc]
        exact hnext _ _ rfl id hsource h
      rw [if_neg hc]
      split at h <;> rename_i hc
      · rw [if_pos hc]
        exact hnext _ _ rfl id hsource h
      rw [if_neg hc]
      exact hnext _ _ rfl id hsource h
    | nestedEscape l k depth =>
      rw [scanString] at h ⊢
      exact hnext _ _ rfl id (hs.snoc rfl rfl rfl) h

/-- The token was read behind `pre`, from a cursor there up to the next one. -/
structure Placed (known : Prop) (file : String) (pre : List Char) (c : Cursor) (r : Step) : Prop where
  stands : r.token.Stands known file pre
  rest : c.rest = r.token.lexeme.toList ++ r.next.rest
  next : known → r.next.Behind (pre ++ r.token.lexeme.toList)
  ends : r.token.kind = .eof → ∀ d ∈ r.next.rest.head?, d = '\x00'

variable {c : Cursor}

theorem placed_of_passes (hc : known → c.Behind pre) {kind : Token.Kind} {lexeme : List Char}
    {literal : Token.Literal} {next : Cursor} {errors : List Diagnostic} (h : c.Passes lexeme next)
      (hne : lexeme ≠ [])
    (hkind : kind ≠ .eof) (hshift : kind = .shiftRight → lexeme = ['>', '>'])
    (hword : kind = .ident → Word lexeme) (hliteral : ∀ ps, literal ≠ .parts ps) :
    Placed known file pre c ⟨⟨kind, String.ofList lexeme, literal, c.line, c.col, file⟩, next, errors⟩ := by
  refine ⟨⟨fun h => (hc h).1, fun h => (hc h).2, rfl, fun ps hps => absurd hps
    (hliteral ps), ?_, ?_, ?_⟩, ?_, ?_,
    fun hk => absurd hk hkind⟩
  · rwa [String.toList_ofList]
  · rwa [String.toList_ofList]
  · rw [String.toList_ofList]
    exact iff_of_false hne hkind
  · rw [String.toList_ofList]
    exact h.rest
  · rw [String.toList_ofList]
    exact fun hknown => h.behind pre (hc hknown)

theorem placed_pair (hc : known → c.Behind pre) {kind : Token.Kind} (h : pairKind? c.current c.peek = some kind)
    {errors : List Diagnostic} : Placed known file pre c ⟨⟨kind, String.ofList (c.rest.take 2),
      .text (String.ofList (c.rest.take 2)), c.line, c.col, file⟩, c.advanceBy 2, errors⟩ := by
  have hpair : c.current ≠ '\x00' ∧ c.peek ≠ '\x00' ∧ kind ≠ .eof ∧ kind ≠ .ident ∧
      (kind = .shiftRight → c.current = '>' ∧ c.peek = '>') := by
    unfold pairKind? at h
    split at h <;> simp_all <;> subst h <;> simp
  obtain ⟨hcurrent, hpeek, hkind, hident, hshift⟩ := hpair
  obtain ⟨rest, hrest⟩ := Cursor.rest_of_current rfl hcurrent
  have hbehind : c.peek = rest.headD '\x00' := by rw [Cursor.peek, hrest]; rfl
  rcases rest with _ | ⟨d, rest⟩
  · exact absurd hbehind hpeek
  · obtain rfl : c.peek = d := hbehind
    have htake : c.rest.take 2 = [c.current, c.peek] := by rw [hrest]; rfl
    have hpasses := Cursor.Passes.advanceBy (c := c) (n := 2) (by simp [hrest])
    refine placed_of_passes hc hpasses (by simp [htake]) hkind (fun hk => ?_) (fun hk => absurd hk hident)
      (fun ps => Token.Literal.noConfusion)
    rw [htake, (hshift hk).1, (hshift hk).2]

theorem placed_single (hc : known → c.Behind pre) {kind : Token.Kind} (h : singleKind? c.current = some kind)
    {errors : List Diagnostic} : Placed known file pre c ⟨⟨kind, String.ofList (c.rest.take 1),
      .text (String.ofList (c.rest.take 1)), c.line, c.col, file⟩, c.advanceBy 1, errors⟩ := by
  have hsingle : c.current ≠ '\x00' ∧ kind ≠ .eof ∧ kind ≠ .ident ∧ kind ≠ .shiftRight := by
    unfold singleKind? at h
    split at h <;> simp_all <;> subst h <;> simp
  obtain ⟨hcurrent, hkind, hident, hshift⟩ := hsingle
  obtain ⟨rest, hrest⟩ := Cursor.rest_of_current rfl hcurrent
  exact placed_of_passes hc (.advanceBy (by simp [hrest])) (by simp [hrest]) hkind
    (fun hk => absurd hk hshift) (fun hk => absurd hk hident) (fun ps => Token.Literal.noConfusion)

theorem not_newline_mem {p : Char → Bool} (hp : p '\n' = false) (cs : List Char) : '\n' ∉ cs.takeWhile p := by
  intro h
  rw [List.all_eq_true.mp (List.all_takeWhile) _ h] at hp
  cases hp

theorem readFraction_append (cs : List Char) :
    ((readFraction cs).1.map ('.' :: ·)).getD [] ++ (readFraction cs).2 = cs := by
  unfold readFraction
  split
  · split
    · simp
    · rfl
  · rfl

theorem readExponent_append (cs : List Char) :
    ((readExponent cs).1.map fun (mark, ds) => mark ++ ds).getD [] ++ (readExponent cs).2 = cs := by
  unfold readExponent
  split
  · split
    · split
      · simp
      · split <;> simp
    · rfl
  · rfl

theorem readNumber_append (cs : List Char) : (readNumber cs).1.lexeme ++ (readNumber cs).2 = cs := by
  have hexponent := readExponent_append (readFraction (cs.dropWhile isDigitPart)).2
  have hfraction := readFraction_append (cs.dropWhile isDigitPart)
  simp only [readNumber, NumberText.lexeme, List.append_assoc]
  rw [hexponent, hfraction, List.takeWhile_append_dropWhile]

theorem not_newline_mem_readFraction (cs : List Char) :
    '\n' ∉ ((readFraction cs).1.map ('.' :: ·)).getD [] := by
  unfold readFraction
  split
  · split
    · rw [Option.map_some, Option.getD_some, List.mem_cons, not_or]
      exact ⟨by decide, not_newline_mem (by decide) _⟩
    · exact List.not_mem_nil
  · exact List.not_mem_nil

theorem not_newline_mem_readExponent (cs : List Char) :
    '\n' ∉ ((readExponent cs).1.map fun (mark, ds) => mark ++ ds).getD [] := by
  have hdigits (ds : List Char) : '\n' ∉ ds.takeWhile Char.isDigit := not_newline_mem (by decide) ds
  unfold readExponent
  split
  · rename_i e d cs
    split
    · rename_i he
      have he : '\n' ≠ e := by
        rintro rfl
        simp at he
      split
      · rename_i hd
        have hd : '\n' ≠ d := by
          rintro rfl
          simp at hd
        simp [he, hd, hdigits]
      · split
        · have := hdigits (d :: cs)
          simp only [Option.map_some, Option.getD_some, List.singleton_append, List.mem_cons, not_or]
          exact ⟨he, this⟩
        · exact List.not_mem_nil
    · exact List.not_mem_nil
  · exact List.not_mem_nil

theorem not_newline_mem_readNumber (cs : List Char) : '\n' ∉ (readNumber cs).1.lexeme := by
  have hwhole := not_newline_mem (p := isDigitPart) (by decide) cs
  have hfraction := not_newline_mem_readFraction (cs.dropWhile isDigitPart)
  have hexponent := not_newline_mem_readExponent (readFraction (cs.dropWhile isDigitPart)).2
  simp only [readNumber, NumberText.lexeme, List.mem_append, not_or]
  exact ⟨⟨hwhole, hfraction⟩, hexponent⟩

theorem placed_number (hc : known → c.Behind pre) {d : Char} (hd : c.rest.head? = some d)
    (hdigit : d.isDigit = true) :
    Placed known file pre c (scanNumber file c) := by
  have hpasses : c.Passes (readNumber c.rest).1.lexeme
      ⟨(readNumber c.rest).2, c.line, c.col + (readNumber c.rest).1.lexeme.length⟩ := by
    have hline : (Cursor.mk ((readNumber c.rest).1.lexeme ++ (readNumber c.rest).2) c.line c.col).Passes _ _ :=
      .line (not_newline_mem_readNumber c.rest)
    rwa [readNumber_append] at hline
  have hne : (readNumber c.rest).1.lexeme ≠ [] := by
    obtain ⟨rest, hrest⟩ := List.head?_eq_some_iff.mp hd
    have hpart : isDigitPart d = true := by simp [isDigitPart, hdigit]
    simp [readNumber, NumberText.lexeme, hrest, hpart]
  have hplaced {kind : Token.Kind} {literal : Token.Literal} {errors : List Diagnostic} (hkind : kind ≠ .eof)
      (hshift : kind ≠ .shiftRight) (hident : kind ≠ .ident) (hliteral : ∀ ps, literal ≠ .parts ps) :
      Placed known file pre c ⟨⟨kind, String.ofList (readNumber c.rest).1.lexeme, literal, c.line, c.col, file⟩,
        ⟨(readNumber c.rest).2, c.line, c.col + (readNumber c.rest).1.lexeme.length⟩, errors⟩ :=
    placed_of_passes hc hpasses hne hkind (fun hk => absurd hk hshift) (fun hk => absurd hk hident) hliteral
  unfold scanNumber
  dsimp only
  split
  · exact hplaced Token.Kind.noConfusion Token.Kind.noConfusion Token.Kind.noConfusion fun _ =>
      Token.Literal.noConfusion
  · split
    · exact hplaced Token.Kind.noConfusion Token.Kind.noConfusion Token.Kind.noConfusion fun _ =>
      Token.Literal.noConfusion
    · exact hplaced Token.Kind.noConfusion Token.Kind.noConfusion Token.Kind.noConfusion fun _ =>
      Token.Literal.noConfusion

theorem placed_char (hc : known → c.Behind pre) (h : (scanChar file c).errors = []) :
    Placed known file pre c (scanChar file c) := by
  have hplaced {n : Nat} {value : Char} {errors : List Diagnostic} (h : (c.advanceBy n).current = '\'') :
      Placed known file pre c ⟨⟨.char, String.ofList (c.rest.take (n + 1)), .char value, c.line, c.col, file⟩,
        c.advanceBy (n + 1), errors⟩ := by
    obtain ⟨rest, hrest⟩ := Cursor.rest_of_current h (by decide)
    have hlen : n + 1 ≤ c.rest.length := by
      have := congrArg List.length hrest
      rw [Cursor.rest_advanceBy, List.length_drop, List.length_cons] at this
      omega
    refine placed_of_passes hc (.advanceBy hlen) ?_ Token.Kind.noConfusion Token.Kind.noConfusion
      Token.Kind.noConfusion fun _ => Token.Literal.noConfusion
    exact List.ne_nil_of_length_pos (by rw [List.length_take]; omega)
  unfold scanChar at h ⊢
  by_cases hescaped : (c.advance.current == '\\') = true
  · simp only [hescaped, if_true] at h ⊢
    split at h <;> rename_i hclose
    · rw [if_pos hclose]
      exact hplaced (n := 3) (beq_iff_eq.mp hclose)
    · simp at h
  · simp only [hescaped, if_false, Bool.false_eq_true] at h ⊢
    split at h <;> rename_i hclose
    · rw [if_pos hclose]
      exact hplaced (n := 2) (beq_iff_eq.mp hclose)
    · simp at h

theorem placed_string (hc : known → c.Behind pre) (hquote : c.current = '"')
    (h : (scanString ⟨.string, "", .none, c.line, c.col, file⟩ .text { lexeme := ['"'] } c.rest.tail c.line
      (c.col + 1)).errors = []) :
    Placed known file pre c (scanString ⟨.string, "", .none, c.line, c.col, file⟩ .text { lexeme := ['"'] }
      c.rest.tail c.line (c.col + 1)) := by
  obtain ⟨rest, hrest⟩ := Cursor.rest_of_current hquote (by decide)
  rw [hrest, List.tail_cons] at h ⊢
  have hcursor (hknown : known) : (Cursor.mk rest c.line (c.col + 1)).Behind (pre ++ ['"']) :=
    (Cursor.Passes.char '"').behind pre (hc hknown)
  have hstart : Reading known pre .text { lexeme := ['"'] } := .char '"' .nil
  have hfinished := scanString_finished _ _ _ rest c.line (c.col + 1) hcursor hstart h
  obtain ⟨more, hmore, hlexeme⟩ := hfinished.rest
  obtain ⟨hline, hcol, hfile⟩ := hfinished.place
  rw [List.reverse_singleton, List.singleton_append] at hlexeme
  -- A finished literal is a token of one of two kinds.
  have hkinds : ∀ k ∈ [Token.Kind.string, .interpolated], k ≠ .eof ∧ k ≠ .shiftRight ∧ k ≠ .ident := by decide
  obtain ⟨heof, hshift, hident⟩ := hkinds _ (by simpa using hfinished.kind)
  refine ⟨⟨fun h => hline ▸ (hc h).1, fun h => hcol ▸ (hc h).2, hfile, hfinished.parts,
    fun hk => absurd hk hshift, fun hk => absurd hk hident, iff_of_false (by simp [hlexeme]) heof⟩, ?_,
    hfinished.next, fun hk => absurd hk heof⟩
  rw [hlexeme, hrest, List.cons_append, ← hmore]

theorem placed_word (hc : known → c.Behind pre) (h : isWordStart c.current = true) :
    Placed known file pre c ⟨⟨.ofWord (String.ofList (c.rest.takeWhile isWordPart)),
      String.ofList (c.rest.takeWhile isWordPart),
      wordLiteral (.ofWord (String.ofList (c.rest.takeWhile isWordPart)))
        (String.ofList (c.rest.takeWhile isWordPart)), c.line, c.col, file⟩,
      ⟨c.rest.dropWhile isWordPart, c.line, c.col + (c.rest.takeWhile isWordPart).length⟩, []⟩ := by
  have hkind (word : String) : Token.Kind.ofWord word ≠ .eof ∧ Token.Kind.ofWord word ≠ .shiftRight := by
    have hkeywords : ∀ p ∈ Token.keywords, p.2 ≠ .eof ∧ p.2 ≠ .shiftRight := by decide
    unfold Token.Kind.ofWord
    cases hfound : Token.keywords.lookup word with
    | none => exact ⟨Token.Kind.noConfusion, Token.Kind.noConfusion⟩
    | some kind =>
      obtain ⟨_, _, hlist, -⟩ := List.lookup_eq_some_iff.mp hfound
      exact hkeywords (word, kind) (by simp [hlist])
  have hliteral (kind : Token.Kind) (word : String) (ps : List Token.Part) :
      wordLiteral kind word ≠ .parts ps := by
    unfold wordLiteral
    split <;> exact Token.Literal.noConfusion
  obtain ⟨rest, hrest⟩ := Cursor.rest_of_current (c := c) rfl (by
    intro hnul
    rw [hnul] at h
    exact absurd h (by decide))
  have hpasses : (Cursor.mk (c.rest.takeWhile isWordPart ++ c.rest.dropWhile isWordPart) c.line c.col).Passes
      _ _ := .line (not_newline_mem (by decide) c.rest)
  rw [List.takeWhile_append_dropWhile] at hpasses
  have hpart : isWordPart c.current = true := by simp [isWordPart, h]
  have htake : c.rest.takeWhile isWordPart = c.current :: rest.takeWhile isWordPart := by simp [hrest, hpart]
  refine placed_of_passes hc hpasses (by simp [htake]) (hkind _).1 (fun hk => absurd hk (hkind _).2)
    (fun hk => ?_) (hliteral _ _)
  exact ⟨_, _, htake, h, fun d hd => List.all_eq_true.mp List.all_takeWhile d hd, hk⟩

theorem scanToken_placed (hc : known → c.Behind pre) (h : (scanToken file c).errors = []) :
    Placed known file pre c (scanToken file c) := by
  unfold scanToken at h ⊢
  dsimp only at h ⊢
  by_cases hnul : (c.current == '\x00') = true
  · rw [if_pos hnul]
    refine ⟨⟨fun h => (hc h).1, fun h => (hc h).2, rfl, fun ps => Token.Literal.noConfusion,
      Token.Kind.noConfusion, Token.Kind.noConfusion, by simp⟩, by simp,
      by simpa using hc, fun _ d hd => ?_⟩
    obtain ⟨rest, hrest⟩ := List.head?_eq_some_iff.mp hd
    simpa [Cursor.current, show c.rest = d :: rest from hrest] using hnul
  rw [if_neg hnul] at h ⊢
  cases hpair : pairKind? c.current c.peek with
  | some kind => exact placed_pair hc hpair
  | none =>
    cases hsingle : singleKind? c.current with
    | some kind => exact placed_single hc hsingle
    | none =>
      rw [hpair, hsingle] at h
      dsimp only at h ⊢
      by_cases hquote : (c.current == '"') = true
      · rw [if_pos hquote] at h ⊢
        exact placed_string hc (beq_iff_eq.mp hquote) h
      rw [if_neg hquote] at h ⊢
      by_cases hchar : (c.current == '\'') = true
      · rw [if_pos hchar] at h ⊢
        exact placed_char hc h
      rw [if_neg hchar] at h ⊢
      by_cases hword : isWordStart c.current = true
      · rw [if_pos hword]
        exact placed_word hc hword
      rw [if_neg hword] at h ⊢
      by_cases hdigit : c.current.isDigit = true
      · rw [if_pos hdigit]
        refine placed_number hc ?_ hdigit
        obtain ⟨rest, hrest⟩ := Cursor.rest_of_current (c := c) rfl (by simpa using hnul)
        rw [hrest]
        rfl
      rw [if_neg hdigit] at h
      simp at h

theorem scanFrom_spread (fuel : Nat) (c : Cursor) (hc : known → c.Behind pre) (hfuel : c.rest.length < fuel)
    (h : (scanFrom file fuel c).2 = []) :
    Spread (Token.Stands known file) pre (scanFrom file fuel c).1 c.rest ∧ Ended (scanFrom file fuel c).1 := by
  induction fuel generalizing pre c with
  | zero => exact absurd hfuel (Nat.not_lt_zero _)
  | succ fuel ih =>
    obtain ⟨gap, hgap, hpasses⟩ := skipBlanks_passes c.line c.rest c.col
    have hnext (hknown : known) := hpasses.behind pre (hc hknown)
    rw [scanFrom] at h ⊢
    rw [hpasses.rest]
    dsimp only at h ⊢
    split at h <;> rename_i heof
    · have hplaced := scanToken_placed hnext h
      rw [if_pos heof, hplaced.rest]
      exact ⟨.cons hgap hplaced.stands (.nil (hplaced.ends (beq_iff_eq.mp heof))),
        [], _, rfl, beq_iff_eq.mp heof, List.forall_mem_nil _⟩
    · obtain ⟨herrors, hrest⟩ := List.append_eq_nil_iff.mp h
      have hplaced := scanToken_placed hnext herrors
      have hne : (scanToken file (skipBlanks c.line c.rest c.col)).token.lexeme.toList ≠ [] := fun hnil =>
        heof (beq_iff_eq.mpr (hplaced.stands.empty.mp hnil))
      have hlen : c.rest.length = _ := congrArg List.length hpasses.rest
      rw [hplaced.rest, List.length_append, List.length_append] at hlen
      have hpos := List.length_pos_iff.mpr hne
      obtain ⟨hspread, init, last, heq, hlast, hinit⟩ :=
        ih _ hplaced.next (by omega) hrest
      rw [if_neg heof, hplaced.rest]
      exact ⟨.cons hgap hplaced.stands hspread, _ :: init, last, congrArg (_ :: ·) heq, hlast,
        List.forall_mem_cons.mpr ⟨fun hk => heof (beq_iff_eq.mpr hk), hinit⟩⟩

theorem scanAt_spread {code : String} (hplace : Points known pre line (col + 1))
    (h : (Token.scanAt code line col file).2 = []) :
    Spread (Token.Stands known file) pre (Token.scanAt code line col file).1 code.toList :=
  (scanFrom_spread _ ⟨code.toList, line, col + 1⟩ (fun hknown => hplace hknown) (Nat.lt_succ_self _) h).1

theorem scanAt_ended {code : String} (h : (Token.scanAt code line col file).2 = []) :
    Ended (Token.scanAt code line col file).1 :=
  have hplace : False → (Cursor.mk code.toList line (col + 1)).Behind [] := False.elim
  (scanFrom_spread _ _ hplace (Nat.lt_succ_self _) h).2

end Lexer

end Scripting
