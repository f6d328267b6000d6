import Scripting.Proofs.Syntax.Scanning
import Scripting.Syntax.Printer

/-!
# Texts survive printing

The printer quotes a text and puts a backslash before its braces; the reader of tokens undoes a few escape
sequences, and tells texts from expressions by the braces. `texts_survive` says that a text of printable
characters and blanks comes back unchanged, as a literal and between the expressions of an interpolated
string. A text is read character by character: `scanString_stands` for one, `scanString_text` for all of
them. How an expression is read does not depend on what stands before it (`scanString_after`), so if it is
read back alone, it is read back anywhere (`after_of_source`).
-/

namespace Scripting

open Lexer

namespace Printer

/-- A character of the texts that survive: one that can be printed, a newline, a tab or a carriage
return. -/
def Kept (c : Char) : Prop := Text.isPrint c = true ∨ c = '\n' ∨ c = '\t' ∨ c = '\r'

instance : DecidablePred Kept := fun _ => inferInstanceAs (Decidable (_ ∨ _))

def written (c : Char) : List Char :=
  (Text.escapeChar '"' c).flatMap fun d => if d == '\x7b' || d == '\x7d' then ['\\', d] else [d]

theorem toList_stringLiteral (s : String) :
    (stringLiteral s).toList = '"' :: s.toList.flatMap written ++ ['"'] := by
  have hfold (cs : List Char) : (cs.flatMap (Text.escapeChar '"')).flatMap
      (fun d => if d == '\x7b' || d == '\x7d' then ['\\', d] else [d]) = cs.flatMap written :=
    List.flatMap_assoc
  rw [stringLiteral, escapeBraces, Text.quoted, String.toList_ofList, String.toList_ofList, List.cons_append,
    List.flatMap_cons, List.flatMap_append, hfold]
  rfl

theorem toList_segment (s : String) : (segment s).toList = s.toList.flatMap written := by
  rw [segment, toList_stringLiteral, String.toList_ofList]
  exact List.dropLast_concat

/-- The two ways in which a character stands in a literal and is read back. -/
inductive Stands (c : Char) : List Char → Prop
  | plain (h : c ∉ ['\x00', '"', '\\', '\x7b', '\n']) : Stands c [c]
  | escaped {d : Char} (h : unescape? d = some c) : Stands c ['\\', d]

theorem stands_written {c : Char} (hc : Kept c) : Stands c (written c) := by
  rcases hc with hc | rfl | rfl | rfl
  · by_cases hspecial : c ∈ ['"', '\\', '\x7b', '\x7d']
    · simp only [List.mem_cons, List.not_mem_nil, or_false] at hspecial
      rcases hspecial with rfl | rfl | rfl | rfl <;> exact .escaped rfl
    · have hnul : c ≠ '\x00' := by rintro rfl; revert hc; decide
      have hline : c ≠ '\n' := by rintro rfl; revert hc; decide
      simp only [List.mem_cons, List.not_mem_nil, or_false, not_or] at hspecial
      have hwritten : written c = [c] := by simp [written, Text.escapeChar, hc, hspecial]
      rw [hwritten]
      exact .plain (by simp [hspecial, hnul, hline])
  · exact .escaped rfl
  · exact .escaped rfl
  · exact .escaped rfl

end Printer

namespace Lexer

variable {tok : Token} {s : StringState} {c d : Char} {cs rest : List Char} {line col l k : Int}

theorem scanString_plain (h : c ∉ ['\x00', '"', '\\', '\x7b', '\n']) :
    scanString tok .text s (c :: cs) line col =
      scanString tok .text { s with lexeme := c :: s.lexeme, text := c :: s.text } cs line (col + 1) := by
  simp only [List.mem_cons, List.not_mem_nil, or_false, not_or] at h
  rw [scanString]
  simp [h]

theorem scanString_escaped (h : unescape? d = some c) :
    scanString tok .text s ('\\' :: d :: cs) line col =
      scanString tok .text { s with lexeme := d :: '\\' :: s.lexeme, text := c :: s.text } cs line
        (col + 1 + 1) := by
  have hline : d ≠ '\n' := by rintro rfl; cases h
  have hopen : scanString tok .text s ('\\' :: d :: cs) line col =
      scanString tok .escape { s with lexeme := '\\' :: s.lexeme } (d :: cs) line (col + 1) := by
    rw [scanString]
    rfl
  rw [hopen, scanString]
  simp [h, hline]

theorem scanString_stands {ds : List Char} (h : Printer.Stands c ds) :
    scanString tok .text s (ds ++ cs) line col =
      scanString tok .text { s with lexeme := ds.reverse ++ s.lexeme, text := c :: s.text } cs line
        (col + ds.length) := by
  cases h with
  | plain h => exact scanString_plain h
  | escaped h => exact (scanString_escaped h).trans (congrArg _ (Int.add_assoc col 1 1))

theorem scanString_text {text : List Char} (htext : ∀ c ∈ text, Printer.Kept c) :
    scanString tok .text s (text.flatMap Printer.written ++ rest) line col =
      scanString tok .text { s with lexeme := (text.flatMap Printer.written).reverse ++ s.lexeme
                                    text := text.reverse ++ s.text } rest line
        (col + (text.flatMap Printer.written).length) := by
  induction text generalizing s col with
  | nil => simp
  | cons c text ih =>
    obtain ⟨hc, htext⟩ := List.forall_mem_cons.mp htext
    rw [List.flatMap_cons, List.append_assoc, scanString_stands (Printer.stands_written hc), ih htext]
    simp [Int.add_assoc]

theorem scanString_quote : scanString tok .text s ('"' :: cs) line col =
    ⟨{ s with lexeme := '"' :: s.lexeme }.finish tok, ⟨cs, line, col + 1⟩, s.errors.reverse⟩ := by
  rw [scanString]
  rfl

theorem scanNext_quote (file : String) : scanNext file ⟨'"' :: cs, line, col⟩ =
    scanString ⟨.string, "", .none, line, col, file⟩ .text { lexeme := ['"'] } cs line (col + 1) := by
  have hpair (d : Char) : pairKind? '"' d = none := by
    unfold pairKind?
    split <;> first | rfl | simp_all
  have hskip : skipBlanks line ('"' :: cs) col = ⟨'"' :: cs, line, col⟩ := rfl
  rw [scanNext, hskip, scanToken]
  simp [Cursor.current, hpair, singleKind?]

theorem scanNext_stringLiteral (file : String) {text : String} (htext : ∀ c ∈ text.toList, Printer.Kept c) :
    scanNext file ⟨(Printer.stringLiteral text).toList ++ rest, line, col⟩ =
      ⟨⟨.string, Printer.stringLiteral text, .text text, line, col, file⟩,
        ⟨rest, line, col + (Printer.stringLiteral text).length⟩, []⟩ := by
  have hlexeme : String.ofList ('"' :: text.toList.flatMap Printer.written ++ ['"']) =
      Printer.stringLiteral text := by
    rw [← Printer.toList_stringLiteral, String.ofList_toList]
  have hlength : (Printer.stringLiteral text).length = (text.toList.flatMap Printer.written).length + 2 := by
    rw [← String.length_toList, Printer.toList_stringLiteral]
    simp
  rw [Printer.toList_stringLiteral, List.cons_append, List.cons_append, List.append_assoc, scanNext_quote,
    scanString_text htext, List.singleton_append, scanString_quote, hlength]
  simp [StringState.finish, ← hlexeme]
  omega

/-- Where the reader of an expression between braces stands: in code, in a string of it, or behind a
backslash there; and under how many braces. -/
inductive Spot where
  | code (depth : Nat)
  | nested (depth : Nat)
  | escape (depth : Nat)

namespace Spot

def mode (l k : Int) : Spot → StringMode
  | code depth => .code l k depth
  | nested depth => .nested l k depth
  | escape depth => .nestedEscape l k depth

/-- Where it stands behind a character, unless that character ends the expression. -/
def next : Spot → Char → Option Spot
  | code depth, c =>
    if c == '\x7d' && depth == 0 then none
    else if c == '\x00' then none
    else if c == '\x7b' then some (code (depth + 1))
    else if c == '\x7d' then some (code (depth - 1))
    else if c == '"' then some (nested depth)
    else some (code depth)
  | nested depth, c =>
    if c == '"' || c == '\x00' then some (code depth)
    else if c == '\\' then some (escape depth)
    else some (nested depth)
  | escape depth, _ => some (nested depth)

/-- Where it stands behind some characters. -/
def after (p : Spot) (cs : List Char) : Option Spot := cs.foldlM next p

variable {p : Spot}

theorem exists_of_after_eq_none (h : p.after cs = none) :
    ∃ before c rest q, cs = before ++ c :: rest ∧ p.after before = some q ∧ q.next c = none := by
  induction cs generalizing p with
  | nil => cases h
  | cons c cs ih =>
    cases hr : p.next c with
    | none => exact ⟨[], c, cs, p, rfl, rfl, hr⟩
    | some r =>
      rw [after, List.foldlM_cons, hr] at h
      obtain ⟨before, d, rest, q, rfl, hq, hstop⟩ := ih h
      refine ⟨c :: before, d, rest, q, rfl, ?_, hstop⟩
      rw [after, List.foldlM_cons, hr]
      exact hq

theorem eq_of_next_eq_none (h : p.next c = none) :
    p = .code 0 ∧ c = '\x7d' ∨ ∃ depth, p = .code depth ∧ c = '\x00' := by
  cases p with
  | code depth =>
    rw [next] at h
    split at h
    · rename_i hclose
      obtain ⟨rfl, rfl⟩ : c = '\x7d' ∧ depth = 0 := by simpa using hclose
      exact .inl ⟨rfl, rfl⟩
    split at h
    · rename_i hnul
      exact .inr ⟨depth, rfl, beq_iff_eq.mp hnul⟩
    repeat (split at h; · cases h)
    cases h
  | nested depth =>
    rw [next] at h
    repeat (split at h; · cases h)
    cases h
  | escape depth => cases h

end Spot

variable {p q : Spot}

theorem scanString_next (h : p.next c = some q) :
    scanString tok (p.mode l k) s (c :: cs) line col =
      scanString tok (q.mode l k) { s with lexeme := c :: s.lexeme, source := c :: s.source } cs
        (if c == '\n' then line + 1 else line) (if c == '\n' then 1 else col + 1) := by
  cases p with
  | code depth =>
    rw [Spot.next] at h
    rw [Spot.mode, scanString]
    dsimp only
    split at h
    · cases h
    rw [if_neg ‹_›]
    split at h
    · cases h
    rw [if_neg ‹_›]
    repeat (split at h; (cases h; rw [if_pos ‹_›]; rfl); rw [if_neg ‹_›])
    cases h
    rfl
  | nested depth =>
    rw [Spot.next] at h
    rw [Spot.mode, scanString]
    repeat (split at h; (cases h; rw [if_pos ‹_›]; rfl); rw [if_neg ‹_›])
    cases h
    rfl
  | escape depth =>
    cases h
    show scanString tok (.nestedEscape l k depth) s (c :: cs) line col = _
    rw [scanString]
    rfl

theorem scanString_after (tok : Token) (s : StringState) (l k line col : Int) (rest : List Char)
    (h : p.after cs = some q) : ∃ line' col',
    scanString tok (p.mode l k) s (cs ++ rest) line col =
      scanString tok (q.mode l k)
        { s with lexeme := cs.reverse ++ s.lexeme, source := cs.reverse ++ s.source } rest line' col' := by
  induction cs generalizing p s line col with
  | nil =>
    cases h
    exact ⟨line, col, rfl⟩
  | cons c cs ih =>
    obtain ⟨r, hr, h⟩ := Option.bind_eq_some_iff.mp h
    obtain ⟨line', col', hread⟩ := ih { s with lexeme := c :: s.lexeme, source := c :: s.source }
      (if c == '\n' then line + 1 else line) (if c == '\n' then 1 else col + 1) h
    refine ⟨line', col', ?_⟩
    rw [List.cons_append, scanString_next hr, hread]
    simp

def StringState.pending (s : StringState) : List Token.Part :=
  if s.text.isEmpty then [] else [.text (String.ofList s.text.reverse)]

theorem flush_eq (s : StringState) : s.flush = { s with parts := s.pending ++ s.parts, text := [] } := by
  obtain ⟨lexeme, text, source, parts, interpolated, errors⟩ := s
  cases text <;> rfl

theorem pending_reverse (s : StringState) : s.pending.reverse = s.pending := by
  unfold StringState.pending
  split <;> rfl

theorem scanString_open : scanString tok .text s ('\x7b' :: cs) line col =
    scanString tok (.code line (col + 1) 0) { s with lexeme := '\x7b' :: s.lexeme, text := [], source := []
                                                     parts := s.pending ++ s.parts, interpolated := true } cs
      line (col + 1) := by
  have hopen : scanString tok .text s ('\x7b' :: cs) line col =
      scanString tok (.code line (col + 1) 0) { s.flush with lexeme := '\x7b' :: s.lexeme, source := []
                                                             interpolated := true } cs line (col + 1) := by
    rw [scanString]
    rfl
  rw [hopen, flush_eq]

theorem scanString_close : scanString tok (.code l k 0) s ('\x7d' :: cs) line col =
    scanString tok .text { s with lexeme := '\x7d' :: s.lexeme
                                  parts := .source (String.ofList s.source.reverse) l k :: s.parts } cs line
      (col + 1) := by
  rw [scanString]
  rfl

theorem scanString_nul {depth : Nat} : scanString tok (.code l k depth) s ('\x00' :: cs) line col =
    s.unterminated tok ⟨'\x00' :: cs, line, col⟩ "unterminated interpolation in string literal" := by
  rw [scanString]
  rfl

theorem literal_unterminated (s : StringState) (hnone : tok.literal = .none) (next : Cursor) (msg : String)
    (ps : List Token.Part) : (s.unterminated tok next msg).token.literal ≠ .parts ps := by
  show tok.literal ≠ .parts ps
  rw [hnone]
  nofun

theorem literal_end (hnone : tok.literal = .none) (ps : List Token.Part) :
    (scanString tok (p.mode l k) s [] line col).token.literal ≠ .parts ps := by
  cases p <;> exact literal_unterminated s hnone _ _ ps

theorem parts_flush (s : StringState) : s.parts.reverse <+: s.flush.parts.reverse := by
  rw [flush_eq, List.reverse_append]
  exact List.prefix_append _ _

theorem parts_finish {ps : List Token.Part} (h : (s.finish tok).literal = .parts ps) :
    s.parts.reverse <+: ps := by
  unfold StringState.finish at h
  dsimp only at h
  split at h
  · obtain rfl := Token.Literal.parts.inj h
    exact parts_flush s
  · cases h

theorem parts_scanString (hnone : tok.literal = .none) {mode : StringMode} {ps : List Token.Part}
    (h : (scanString tok mode s cs line col).token.literal = .parts ps) : s.parts.reverse <+: ps := by
  fun_induction scanString tok mode s cs line col
  -- a quote, an opening brace, the character behind a backslash, and a closing brace
  case case7 =>
    have hfinish := parts_finish h
    exact hfinish
  case case9 ih => exact (parts_flush _).trans (ih h)
  case case11 s₁ s₂ ih =>
    have hsame : s₂.parts = s₁.parts := by
      simp only [s₂]
      split <;> rfl
    exact hsame ▸ ih h
  case case12 ih => exact (List.reverse_cons ▸ List.prefix_append _ _).trans (ih h)
  -- any other character leaves the parts as they are
  all_goals first | exact absurd h (literal_unterminated _ hnone _ _ _) | (rename_i ih; exact ih h)

/-- If an expression alone between braces is read back, the reader comes to its end in code. Were the end of
the expression found before, its source would be shorter. -/
theorem after_of_source (hnone : tok.literal = .none) {e : List Char} {ps : List Token.Part}
    (h : (scanString tok (.code l k 0) s (e ++ ['\x7d', '"']) line col).token.literal = .parts ps)
    (hps : ∃ l' k', ps = s.parts.reverse ++ [.source (String.ofList (s.source.reverse ++ e)) l' k']) :
    (Spot.code 0).after e = some (.code 0) := by
  obtain ⟨l', k', hps⟩ := hps
  cases hafter : (Spot.code 0).after (e ++ ['\x7d', '"']) with
  | some q =>
    obtain ⟨line', col', hread⟩ := scanString_after tok s l k line col [] hafter
    rw [List.append_nil] at hread
    exact absurd (hread ▸ h) (literal_end hnone _)
  | none =>
    obtain ⟨before, c, rest, q, hcs, hq, hstop⟩ := Spot.exists_of_after_eq_none hafter
    obtain ⟨line', col', hread⟩ := scanString_after tok s l k line col (c :: rest) hq
    rw [hcs] at h
    replace h := hread ▸ h
    rcases Spot.eq_of_next_eq_none hstop with ⟨rfl, rfl⟩ | ⟨depth, rfl, rfl⟩
    · rw [Spot.mode, scanString_close] at h
      have hstays := parts_scanString hnone h
      rw [hps, List.reverse_cons, List.prefix_append_right_inj] at hstays
      obtain ⟨hsame, -⟩ : before = e ∧ l = l' ∧ k = k' := by simpa [String.ofList_inj] using hstays
      exact hsame ▸ hq
    · rw [Spot.mode, scanString_nul] at h
      exact absurd h (literal_unterminated _ hnone _ _ _)

end Lexer

namespace Printer

/-- A piece of an interpolated string: a text, or the source of an expression. -/
inductive Segment where
  | text (value : String)
  | code (source : String)
deriving DecidableEq

/-- Whether an expression, alone between braces, is read back as the source of one. -/
def LexesBack (e : String) : Prop := ∃ line col,
  (Token.scan ("\"\x7b" ++ e ++ "\x7d\"")).1.head?.map Token.literal = some (.parts [.source e line col])

theorem after_of_lexesBack {e : String} (h : LexesBack e) :
    (Spot.code 0).after e.toList = some (.code 0) := by
  obtain ⟨line, col, h⟩ := h
  have hhead (fuel : Nat) (c : Cursor) : (scanFrom "" (fuel + 1) c).1.head? = some (scanNext "" c).token := by
    rw [scanFrom]
    dsimp only
    split <;> rfl
  have htext : ("\"\x7b" ++ e ++ "\x7d\"").toList = '"' :: '\x7b' :: (e.toList ++ ['\x7d', '"']) := by
    simp
  rw [Token.scan, Token.scanAt, hhead, htext, scanNext_quote, scanString_open, Option.map_some,
    Option.some_inj] at h
  exact after_of_source rfl h ⟨line, col, by simp [StringState.pending]⟩

namespace Segment

def chars : Segment → List Char
  | text v => v.toList.flatMap written
  | code e => '\x7b' :: (e.toList ++ ['\x7d'])

/-- Whether a segment can be read back: a text if its characters can, an expression if it can alone. -/
def Survives : Segment → Prop
  | text v => ∀ c ∈ v.toList, Kept c
  | code e => LexesBack e

/-- A text as a segment; an empty one is none. -/
def ofText (t : String) : List Segment := if t = "" then [] else [text t]

/-- What is read back of some segments behind a text: texts between two expressions become one. -/
def gather (t : String) : List Segment → List Segment
  | [] => ofText t
  | text v :: more => gather (t ++ v) more
  | code e :: more => ofText t ++ code e :: gather "" more

@[simp] theorem ofText_empty : ofText "" = [] := rfl

@[simp] theorem gather_nil (t : String) : gather t [] = ofText t := rfl

@[simp] theorem gather_code (t e : String) (more : List Segment) :
    gather t (code e :: more) = ofText t ++ code e :: gather "" more := rfl

theorem gather_append_code (t e : String) (before after : List Segment) :
    gather t (before ++ code e :: after) = gather t before ++ code e :: gather "" after := by
  induction before generalizing t with
  | nil => rfl
  | cons x before ih =>
    cases x with
    | text v => exact ih (t ++ v)
    | code a => simp [ih]

theorem gather_text {v : String} {before after : List Segment}
    (hbefore : ∀ x ∈ before.getLast?, ∃ a, x = code a)
    (hafter : ∀ x ∈ after.head?, ∃ b, x = code b) :
    gather "" (before ++ text v :: after) = gather "" before ++ (ofText v ++ gather "" after) := by
  have hbehind : gather "" (text v :: after) = ofText v ++ gather "" after := by
    rw [gather, String.empty_append]
    cases after with
    | nil => simp
    | cons x after =>
      obtain ⟨b, rfl⟩ := hafter x rfl
      simp
  rcases List.eq_nil_or_concat before with rfl | ⟨before, x, rfl⟩
  · exact hbehind
  · obtain ⟨a, rfl⟩ := hbefore x (by simp)
    rw [List.concat_eq_append, List.append_assoc, List.singleton_append, gather_append_code, hbehind,
      gather_append_code]
    simp

end Segment

variable {P : Phase}

/-- The segments of an interpolated string as they are printed. -/
def segments (st : Style P) (depth : Nat) (parts : List (Expr P)) : List Segment :=
  parts.map fun e =>
    match e.stringValue? with
    | some v => .text v
    | none => .code (exprText st depth 0 e)

theorem toList_partsText (st : Style P) (depth : Nat) (parts : List (Expr P)) :
    (partsText st depth parts).toList = (segments st depth parts).flatMap Segment.chars := by
  induction parts with
  | nil => rw [partsText]; rfl
  | cons e parts ih =>
    have hcons : segments st depth (e :: parts) = (match e.stringValue? with
        | some v => Segment.text v
        | none => .code (exprText st depth 0 e)) :: segments st depth parts := rfl
    rw [partsText, String.toList_append, ih, hcons, List.flatMap_cons]
    cases e.stringValue? with
    | none => simp [Segment.chars]
    | some v => simp [Segment.chars, toList_segment]

theorem toList_interpolated (st : Style P) (depth level : Nat) (note : P.Note) (tok : Token)
    (parts : List (Expr P)) : (exprText st depth level (.interpolated note tok parts)).toList =
      '"' :: ((segments st depth parts).flatMap Segment.chars ++ ['"']) := by
  rw [exprText, String.toList_append, String.toList_append, toList_partsText]
  rfl

theorem exists_code {st : Style P} {depth : Nat} {parts : List (Expr P)}
    (h : ∃ e ∈ parts, e.stringValue? = none) : ∃ e, .code e ∈ segments st depth parts := by
  obtain ⟨e, he, hnone⟩ := h
  exact ⟨exprText st depth 0 e, List.mem_map.mpr ⟨e, he, by rw [hnone]⟩⟩

end Printer

/-- What a part of an interpolated string was read from. -/
def Token.Part.segment : Token.Part → Printer.Segment
  | text v => .text v
  | source e _ _ => .code e

namespace Lexer

open Printer (Segment)

theorem segments_pending (s : StringState) :
    s.pending.map Token.Part.segment = Segment.ofText (String.ofList s.text.reverse) := by
  rw [StringState.pending, Segment.ofText]
  cases s.text with
  | nil => rfl
  | cons c text => simp [Token.Part.segment]

theorem scanString_segments (tok : Token) (s : StringState) (line col : Int) (rest : List Char)
    {xs : List Segment} (hxs : ∀ x ∈ xs, x.Survives) (hcode : s.interpolated = true ∨ ∃ e, .code e ∈ xs)
    (herrors : s.errors = []) : ∃ line' col' ps,
      scanString tok .text s (xs.flatMap Segment.chars ++ '"' :: rest) line col =
        ⟨{ tok with kind := .interpolated
                    lexeme := String.ofList (s.lexeme.reverse ++ xs.flatMap Segment.chars ++ ['"'])
                    literal := .parts (s.parts.reverse ++ ps) }, ⟨rest, line', col'⟩, []⟩ ∧
      ps.map Token.Part.segment = Segment.gather (String.ofList s.text.reverse) xs := by
  induction xs generalizing s line col with
  | nil =>
    have hinterpolated : s.interpolated = true := hcode.resolve_right (by simp)
    refine ⟨line, col + 1, s.pending, ?_, segments_pending s⟩
    rw [List.flatMap_nil, List.nil_append, scanString_quote, herrors, StringState.finish]
    simp [hinterpolated, flush_eq, pending_reverse]
    rfl
  | cons x xs ih =>
    obtain ⟨hx, hmore⟩ := List.forall_mem_cons.mp hxs
    rw [List.flatMap_cons, List.append_assoc]
    cases x with
    | text v =>
      have hcode' : s.interpolated = true ∨ ∃ e, .code e ∈ xs := by simpa using hcode
      let s' : StringState := { s with lexeme := (Segment.text v).chars.reverse ++ s.lexeme
                                       text := v.toList.reverse ++ s.text }
      obtain ⟨line', col', ps, hread, hps⟩ :=
        ih s' line (col + (Segment.text v).chars.length) hmore hcode' herrors
      refine ⟨line', col', ps, (scanString_text hx).trans (hread.trans ?_), ?_⟩
      · simp [s']
      · simpa [s', Segment.gather, String.ofList_append] using hps
    | code e =>
      let more := xs.flatMap Segment.chars ++ '"' :: rest
      have hchars : (Segment.code e).chars ++ more = '\x7b' :: (e.toList ++ '\x7d' :: more) := by
        simp [Segment.chars]
      -- behind the opening brace, behind the expression, and behind the closing brace
      let s₁ : StringState := { s with lexeme := '\x7b' :: s.lexeme, text := [], source := []
                                       parts := s.pending ++ s.parts, interpolated := true }
      let s₂ : StringState :=
        { s₁ with lexeme := e.toList.reverse ++ s₁.lexeme, source := e.toList.reverse ++ s₁.source }
      let s₃ : StringState :=
        { s₂ with lexeme := '\x7d' :: s₂.lexeme
                  parts := .source (String.ofList s₂.source.reverse) line (col + 1) :: s₂.parts }
      obtain ⟨line₁, col₁, hopen⟩ := scanString_after tok s₁ line (col + 1) line (col + 1) ('\x7d' :: more)
        (Printer.after_of_lexesBack hx)
      obtain ⟨line', col', ps, hread, hps⟩ := ih s₃ line₁ (col₁ + 1) hmore (.inl rfl) herrors
      refine ⟨line', col', s.pending ++ .source e line (col + 1) :: ps, ?_, ?_⟩
      · rw [hchars, scanString_open]
        refine hopen.trans (scanString_close.trans (hread.trans ?_))
        simp [s₁, s₂, s₃, Segment.chars, pending_reverse]
      · simp [s₁, s₂, s₃, segments_pending, Token.Part.segment, hps]

theorem scanNext_interpolated {P : Phase} (st : Style P) (depth level : Nat) (note : P.Note) (tok : Token)
    (file : String) (line col : Int) (rest : List Char) {parts : List (Expr P)}
    (hparts : ∀ x ∈ Printer.segments st depth parts, x.Survives)
    (hcode : ∃ e ∈ parts, e.stringValue? = none) :
    ∃ ps line' col',
      scanNext file ⟨(Printer.exprText st depth level (.interpolated note tok parts)).toList ++ rest, line,
          col⟩ =
        ⟨⟨.interpolated, Printer.exprText st depth level (.interpolated note tok parts), .parts ps, line, col,
          file⟩, ⟨rest, line', col'⟩, []⟩ ∧
      ps.map Token.Part.segment = Segment.gather "" (Printer.segments st depth parts) := by
  obtain ⟨line', col', ps, hread, hps⟩ := scanString_segments ⟨.string, "", .none, line, col, file⟩
    { lexeme := ['"'] } line (col + 1) rest hparts (.inr (Printer.exists_code hcode)) rfl
  refine ⟨ps, line', col', ?_, hps⟩
  have hlexeme : String.ofList ('"' :: ((Printer.segments st depth parts).flatMap Segment.chars ++ ['"'])) =
      Printer.exprText st depth level (.interpolated note tok parts) := by
    rw [← Printer.toList_interpolated st depth level note tok, String.ofList_toList]
  rw [Printer.toList_interpolated, List.cons_append, List.append_assoc, scanNext_quote]
  refine hread.trans ?_
  rw [← hlexeme]
  rfl

theorem scan_eq_of_scanNext {file text : String} {tok : Token} {line col : Int} (hkind : tok.kind ≠ .eof)
    (h : scanNext file ⟨text.toList ++ [], 1, 1⟩ = ⟨tok, ⟨[], line, col⟩, []⟩) :
    Token.scan text file = ([tok, place file line col ⟨.eof, "", .none⟩], []) := by
  have htext : 1 ≤ text.toList.length := by
    refine List.length_pos_iff.mpr fun hempty => ?_
    rw [hempty] at h
    have htok : tok = place file 1 1 ⟨.eof, "", .none⟩ := (congrArg Step.token h).symm
    exact hkind (htok ▸ rfl)
  rw [List.append_nil] at h
  have hscan := (Scans.token h hkind).scan_eq htext
  rwa [String.ofList_toList] at hscan

end Lexer

namespace Printer

/-- Texts survive printing. A string literal is read back as one token with its text. An interpolated string
is read back as one token whose parts are its segments: a text that stands alone between two expressions, or
between one and an end, is a part by itself, unless it is empty. -/
theorem texts_survive (file : String) :
    (∀ text : String, (∀ c ∈ text.toList, Kept c) → ∃ stop : Token, stop.kind = .eof ∧
      Token.scan (stringLiteral text) file =
        ([⟨.string, stringLiteral text, .text text, 1, 1, file⟩, stop], [])) ∧
    ∀ {P : Phase} (st : Style P) (depth level : Nat) (note : P.Note) (tok : Token) (parts : List (Expr P)),
      (∀ x ∈ segments st depth parts, x.Survives) → (∃ e ∈ parts, e.stringValue? = none) →
      ∃ (ps : List Token.Part) (stop : Token), stop.kind = .eof ∧
        Token.scan (exprText st depth level (.interpolated note tok parts)) file =
          ([⟨.interpolated, exprText st depth level (.interpolated note tok parts), .parts ps, 1, 1, file⟩,
            stop], []) ∧
        ps.map Token.Part.segment = Segment.gather "" (segments st depth parts) ∧
        ∀ before v after, segments st depth parts = before ++ .text v :: after →
          (∀ x ∈ before.getLast?, ∃ a, x = .code a) → (∀ x ∈ after.head?, ∃ b, x = .code b) →
            ps.map Token.Part.segment =
              Segment.gather "" before ++ (Segment.ofText v ++ Segment.gather "" after) := by
  refine ⟨fun text htext => ?_, fun st depth level note tok parts hparts hcode => ?_⟩
  · exact ⟨_, rfl, Lexer.scan_eq_of_scanNext nofun (Lexer.scanNext_stringLiteral file htext)⟩
  · obtain ⟨ps, line, col, hscan, hps⟩ :=
      Lexer.scanNext_interpolated st depth level note tok file 1 1 [] hparts hcode
    refine ⟨ps, _, rfl, Lexer.scan_eq_of_scanNext nofun hscan, hps, fun before v after heq hbefore hafter => ?_⟩
    rw [hps, heq, Segment.gather_text hbefore hafter]

/-- Quotes, backslashes, braces and blanks, alone and around an expression that holds a string with a brace. -/
theorem texts_survive_braces : ∃ (ps : List Token.Part) (stop stop' : Token),
    Token.scan (stringLiteral "\"\\\x7b\n\t\x7d") "a.jz" =
      ([⟨.string, "\"\\\"\\\\\\\x7b\\n\\t\\\x7d\"", .text "\"\\\x7b\n\t\x7d", 1, 1, "a.jz"⟩, stop], []) ∧
    Token.scan "\"\\\x7b\x7bx + \"\\\x7d\"\x7d\\\"\"" "a.jz" =
      ([⟨.interpolated, "\"\\\x7b\x7bx + \"\\\x7d\"\x7d\\\"\"", .parts ps, 1, 1, "a.jz"⟩, stop'], []) ∧
    ps.map Token.Part.segment = [.text "\x7b", .code "x + \"\\\x7d\"", .text "\""] := by
  let parts : List (Expr .parsed) := [.string () .blank "\x7b",
    .binary () .blank .add (.name () .blank "x" ()) (.string () .blank "\x7d"), .string () .blank "\""]
  have hsegments : segments .plain 0 parts = [.text "\x7b", .code "x + \"\\\x7d\"", .text "\""] := by rfl
  have hkept (s : String) (hs : s.toList.all (decide <| Kept ·) = true) : ∀ c ∈ s.toList, Kept c :=
    fun c hc => of_decide_eq_true (List.all_eq_true.mp hs c hc)
  have hparts : ∀ x ∈ segments .plain 0 parts, x.Survives := by
    have hopen : (Segment.text "\x7b").Survives := hkept _ (by decide)
    have hsum : (Segment.code "x + \"\\\x7d\"").Survives := ⟨1, 3, by rfl⟩
    have hquote : (Segment.text "\"").Survives := hkept _ (by decide)
    rw [hsegments]
    exact List.forall_mem_cons.mpr ⟨hopen, List.forall_mem_cons.mpr ⟨hsum, List.forall_mem_singleton.mpr
      hquote⟩⟩
  obtain ⟨hplain, hinterpolated⟩ := texts_survive "a.jz"
  obtain ⟨stop, -, hscan⟩ := hplain "\"\\\x7b\n\t\x7d" (hkept _ (by decide))
  obtain ⟨ps, stop', -, hscan', hps, -⟩ :=
    hinterpolated .plain 0 0 () .blank parts hparts ⟨_, .tail _ (.head _), rfl⟩
  exact ⟨ps, stop, stop', hscan, hscan', hps.trans (by rw [hsegments]; rfl)⟩

end Printer
end Scripting
