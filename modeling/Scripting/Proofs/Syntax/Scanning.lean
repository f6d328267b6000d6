import Scripting.Proofs.Syntax.Formulas

/-!
# Reading the tokens of a layout

The reader of tokens gives the pieces of a layout back, one token for each (`scan_layout`).
-/

namespace Scripting.Lexer

open Text

variable {file : String} {line col : Int}

def Scans (file : String) (c : Cursor) (ts : List Token) (c' : Cursor) : Prop :=
  ∀ fuel, scanFrom file (ts.length + fuel) c =
    (ts ++ (scanFrom file fuel c').1, (scanFrom file fuel c').2)

theorem Scans.token {c c' : Cursor} {tok : Token} (h : scanNext file c = ⟨tok, c', []⟩)
    (hne : tok.kind ≠ .eof) : Scans file c [tok] c' := by
  intro fuel
  rw [List.length_singleton, Nat.add_comm, scanFrom, h]
  simp [hne]

theorem Scans.append {c c' c'' : Cursor} {ts us : List Token} (h : Scans file c ts c')
    (h' : Scans file c' us c'') : Scans file c (ts ++ us) c'' := by
  intro fuel
  rw [List.length_append, Nat.add_assoc, h, h']
  simp

theorem Scans.blank {cs : List Char} {c' : Cursor} {ts : List Token}
    (h : Scans file ⟨cs, line, col + 1⟩ ts c') : Scans file ⟨' ' :: cs, line, col⟩ ts c' := by
  intro fuel
  rw [← h fuel]
  cases ts.length + fuel with
  | zero => rfl
  | succ n =>
    have hnext : scanNext file ⟨' ' :: cs, line, col⟩ = scanNext file ⟨cs, line, col + 1⟩ := by
      simp [scanNext, skipBlanks]
    rw [scanFrom, scanFrom, hnext]

def place (file : String) (line col : Int) (p : Piece) : Token :=
  { kind := p.kind, lexeme := p.lexeme, literal := p.literal, line := line, col := col, file := file }

theorem scanNext_operator (file : String) (line col : Int) (op : BinaryOp) (more : List Char) : ∃ col',
    scanNext file ⟨op.symbol.toList ++ ' ' :: more, line, col⟩ =
      ⟨place file line col (.symbol op.kind op.symbol), ⟨' ' :: more, line, col'⟩, []⟩ := by
  cases op <;> exact ⟨_, rfl⟩

theorem scanNext_leftParen (file : String) (line col : Int) (more : List Char) :
    scanNext file ⟨'(' :: more, line, col⟩ =
      ⟨place file line col (.symbol .leftParen "("), ⟨more, line, col + 1⟩, []⟩ := by
  cases more <;> rfl

theorem scanNext_rightParen (file : String) (line col : Int) (more : List Char) :
    scanNext file ⟨')' :: more, line, col⟩ =
      ⟨place file line col (.symbol .rightParen ")"), ⟨more, line, col + 1⟩, []⟩ := by
  cases more <;> rfl

theorem scanNext_newline (file : String) (line col : Int) (more : List Char) :
    scanNext file ⟨'\n' :: more, line, col⟩ =
      ⟨place file line col (.symbol .newline "\n"), ⟨more, line + 1, 1⟩, []⟩ := by
  cases more <;> rfl

theorem scanNext_nil (file : String) (line col : Int) :
    scanNext file ⟨[], line, col⟩ =
      ⟨place file line col ⟨.eof, "", .none⟩, ⟨[], line, col⟩, []⟩ := rfl

def Delimits (more : List Char) : Prop := ∃ c ∈ more.head?, c = ' ' ∨ c = ')' ∨ c = '\n'

/-- A character of a word stands for no token by itself, and is not skipped. -/
structure Alone (c : Char) : Prop where
  nul : c ≠ '\x00'
  pair : ∀ d, pairKind? c d = none
  single : singleKind? c = none
  quote : c ≠ '"'
  charQuote : c ≠ '\''
  blank : (c == ' ' || c == '\t' || c == '\r') = false
  slash : c ≠ '/'

theorem alone_of_isWordPart {c : Char} (h : isWordPart c = true) : Alone c := by
  have hne {d : Char} (hd : isWordPart d = false) : c ≠ d := by
    rintro rfl
    simp [hd] at h
  refine ⟨hne (by decide), fun d => ?_, ?_, hne (by decide), hne (by decide), ?_, hne (by decide)⟩
  · unfold pairKind?
    split <;> first | rfl | exact absurd h (by decide)
  · unfold singleKind?
    split <;> first | rfl | exact absurd h (by decide)
  · have h₁ : c ≠ ' ' := hne (by decide)
    have h₂ : c ≠ '\t' := hne (by decide)
    have h₃ : c ≠ '\r' := hne (by decide)
    simp [h₁, h₂, h₃]

theorem skipBlanks_of_alone {c : Char} {cs : List Char} (h : Alone c) :
    skipBlanks line (c :: cs) col = ⟨c :: cs, line, col⟩ := by
  have hcomment : opensComment (c :: cs) = false := by
    unfold opensComment
    split
    · rename_i heq
      exact absurd (List.cons.inj heq).1 h.slash
    · rfl
  rw [skipBlanks, h.blank, hcomment]
  rfl

theorem Delimits.ends {p : Char → Bool} {more : List Char} (hmore : Delimits more) (hblank : p ' ' = false)
    (hparen : p ')' = false) (hnewline : p '\n' = false) : ∀ c ∈ more.head?, p c = false := by
  obtain ⟨c, hc, hkind⟩ := hmore
  intro d hd
  obtain rfl := Option.mem_unique hc hd
  rcases hkind with rfl | rfl | rfl <;> assumption

theorem run_eq {p : Char → Bool} {cs more : List Char} (hcs : ∀ c ∈ cs, p c = true)
    (hmore : ∀ c ∈ more.head?, p c = false) :
    (cs ++ more).takeWhile p = cs ∧ (cs ++ more).dropWhile p = more := by
  rw [List.takeWhile_append_of_pos hcs, List.dropWhile_append_of_pos hcs]
  cases more with
  | nil => simp
  | cons d more => simp [hmore d rfl]

theorem scanNext_word (file : String) (line col : Int) {c : Char} {cs more : List Char}
    (hc : isWordStart c = true) (hcs : ∀ d ∈ cs, isWordPart d = true)
    (hmore : ∀ d ∈ more.head?, isWordPart d = false) : ∃ col',
    scanNext file ⟨c :: (cs ++ more), line, col⟩ =
      ⟨place file line col ⟨.ofWord (String.ofList (c :: cs)), String.ofList (c :: cs),
        wordLiteral (.ofWord (String.ofList (c :: cs))) (String.ofList (c :: cs))⟩,
        ⟨more, line, col'⟩, []⟩ := by
  have hpart : isWordPart c = true := by simp [isWordPart, hc]
  have halone := alone_of_isWordPart hpart
  obtain ⟨htake, hdrop⟩ : (c :: cs ++ more).takeWhile isWordPart = c :: cs ∧
      (c :: cs ++ more).dropWhile isWordPart = more :=
    run_eq (List.forall_mem_cons.mpr ⟨hpart, hcs⟩) hmore
  rw [List.cons_append] at htake hdrop
  rw [scanNext, skipBlanks_of_alone halone, scanToken]
  simp [Cursor.current, halone.nul, halone.pair, halone.single, halone.quote, halone.charQuote, hc, htake,
    hdrop, place]

theorem exists_of_isName {text : String} (h : isName text = true) : ∃ c cs, text.toList = c :: cs ∧
    isWordStart c = true ∧ (∀ d ∈ cs, isWordPart d = true) ∧ Token.Kind.ofWord text = .ident := by
  unfold isName at h
  split at h
  · cases h
  · rename_i c cs htext
    simp only [Bool.and_eq_true, List.all_eq_true, beq_iff_eq] at h
    exact ⟨c, cs, htext, h.1.1, h.1.2, h.2⟩

theorem scanNext_name (file : String) (line col : Int) {text : String} (h : isName text = true)
    {more : List Char} (hmore : ∀ d ∈ more.head?, isWordPart d = false) : ∃ col',
    scanNext file ⟨text.toList ++ more, line, col⟩ =
      ⟨place file line col (.symbol .ident text), ⟨more, line, col'⟩, []⟩ := by
  obtain ⟨c, cs, htext, hc, hcs, hword⟩ := exists_of_isName h
  obtain ⟨col', hscan⟩ := scanNext_word file line col hc hcs hmore
  rw [← htext, String.ofList_toList, hword] at hscan
  exact ⟨col', htext ▸ hscan⟩

theorem not_isWordStart_of_isDigit {c : Char} (h : c.isDigit = true) : isWordStart c = false := by
  obtain ⟨hlo, hhi⟩ : 48 ≤ c.toNat ∧ c.toNat ≤ 57 := by
    simpa [Char.isDigit, UInt32.le_iff_toNat_le] using h
  have hascii : c.toNat < 0x80 := Nat.lt_of_le_of_lt hhi (by decide)
  have halpha : c.isAlpha = false := by
    delta Char.isAlpha Char.isUpper Char.isLower
    simp only [UInt32.le_iff_toNat_le, ge_iff_le]
    simp
    omega
  have hunderscore : (c == '_') = false := by
    rw [beq_eq_false_iff_ne]
    rintro rfl
    exact absurd h (by decide)
  simp [isWordStart, isLetter, hascii, halpha, hunderscore]

theorem digitsValue_toDigits (n : Nat) : digitsValue ((Nat.toDigits 10 n).filter Char.isDigit) = n := by
  rw [List.filter_eq_self.mpr fun c hc => Nat.isDigit_of_mem_toDigits (by decide) (by decide) hc]
  exact Nat.ofDigitChars_toDigits (by decide) (by decide)

theorem readNumber_digits {ds more : List Char} (hds : ∀ c ∈ ds, c.isDigit = true)
    (hmore : Delimits more) : readNumber (ds ++ more) = (⟨ds, none, none⟩, more) := by
  obtain ⟨htake, hdrop⟩ : (ds ++ more).takeWhile isDigitPart = ds ∧
      (ds ++ more).dropWhile isDigitPart = more :=
    run_eq (fun c hc => by simp [isDigitPart, hds c hc]) (hmore.ends (by decide) (by decide) (by decide))
  have hfraction : readFraction more = (none, more) := by
    obtain ⟨c, hc, hkind⟩ := hmore
    obtain ⟨more, rfl⟩ := List.head?_eq_some_iff.mp hc
    rcases hkind with rfl | rfl | rfl <;> rfl
  have hexponent : readExponent more = (none, more) := by
    obtain ⟨c, hc, hkind⟩ := hmore
    obtain ⟨more, rfl⟩ := List.head?_eq_some_iff.mp hc
    rcases hkind with rfl | rfl | rfl <;> cases more <;> rfl
  rw [readNumber, htake, hdrop, hfraction]
  simp only [hexponent]

theorem scanNext_int (file : String) (line col : Int) {v : Int64} (h : 0 ≤ v) {more : List Char}
    (hmore : Delimits more) : ∃ col',
    scanNext file ⟨(toString v.toInt).toList ++ more, line, col⟩ =
      ⟨place file line col ⟨.int, toString v.toInt, .int v⟩, ⟨more, line, col'⟩, []⟩ := by
  have hds : ∀ c ∈ Nat.toDigits 10 v.toInt.toNat, c.isDigit = true := fun c hc =>
    Nat.isDigit_of_mem_toDigits (by decide) (by decide) hc
  have hread := readNumber_digits hds hmore
  have hlt : v.toInt.toNat < 9223372036854775808 := by
    have := v.toInt_lt
    omega
  have hv : Int64.ofNat v.toInt.toNat = v := by
    rw [← Int64.ofInt_eq_ofNat, Int.toNat_of_nonneg (Int64.le_iff_toInt_le.mp h), Int64.ofInt_toInt]
  have hlexeme : String.ofList (Nat.toDigits 10 v.toInt.toNat) = toString v.toInt := by
    rw [← toList_toString h, String.ofList_toList]
  rw [toList_toString h]
  obtain ⟨c, cs, hcons⟩ := List.exists_cons_of_ne_nil (Nat.toDigits_ne_nil (n := v.toInt.toNat) (b := 10))
  have hc : c.isDigit = true := hds c (hcons ▸ .head _)
  have halone := alone_of_isWordPart (c := c) (by simp [isWordPart, hc])
  have hint : NumberText.int? ⟨Nat.toDigits 10 v.toInt.toNat, none, none⟩ = some v := by
    simp only [NumberText.int?, digitsValue_toDigits, hlt, if_true, hv]
  rw [hcons] at hread hlexeme hint ⊢
  rw [List.cons_append] at hread ⊢
  refine ⟨col + (c :: cs).length, ?_⟩
  rw [scanNext, skipBlanks_of_alone halone, scanToken]
  simp [Cursor.current, halone.nul, halone.pair, halone.single, halone.quote, halone.charQuote,
    not_isWordStart_of_isDigit hc, hc, scanNumber, hread, hint, hlexeme, place, NumberText.lexeme]

@[simp] theorem piece_place (p : Piece) : (place file line col p).piece = p := rfl

theorem scan_atom (file : String) (line col : Int) (a : Atom) {more : List Char}
    (hmore : Delimits more) : ∃ tok col',
    tok.piece = a.piece ∧
      scanNext file ⟨a.piece.lexeme.toList ++ more, line, col⟩ = ⟨tok, ⟨more, line, col'⟩, []⟩ := by
  have hend := hmore.ends (p := isWordPart) (by decide) (by decide) (by decide)
  rcases a with ⟨text, h⟩ | ⟨v, h⟩ | ⟨_ | _⟩
  · obtain ⟨col', hscan⟩ := scanNext_name file line col h hend
    exact ⟨_, col', rfl, hscan⟩
  · obtain ⟨col', hscan⟩ := scanNext_int file line col h hmore
    exact ⟨_, col', rfl, hscan⟩
  · obtain ⟨col', hscan⟩ := scanNext_word file line col (show isWordStart 'f' = true by decide)
      (List.all_eq_true.mp (show ['a', 'l', 's', 'e'].all isWordPart = true by decide)) hend
    exact ⟨_, col', rfl, hscan⟩
  · obtain ⟨col', hscan⟩ := scanNext_word file line col (show isWordStart 't' = true by decide)
      (List.all_eq_true.mp (show ['r', 'u', 'e'].all isWordPart = true by decide)) hend
    exact ⟨_, col', rfl, hscan⟩

theorem scan_layout (file : String) (line col : Int) (l : Layout) {more : List Char}
    (hmore : Delimits more) : ∃ ts col', ts.map Token.piece = l.pieces ∧
      Scans file ⟨l.chars ++ more, line, col⟩ ts ⟨more, line, col'⟩ := by
  induction l generalizing more col with
  | atom a =>
    obtain ⟨tok, col', htok, hscan⟩ := scan_atom file line col a hmore
    have hmem : tok.piece.kind ∈ Atom.kinds := htok ▸ a.kind_mem
    have hkind : tok.kind ≠ .eof := fun h => by simp [Token.piece, h, Atom.kinds] at hmem
    exact ⟨[tok], col', by simp [Layout.pieces, htok], .token hscan hkind⟩
  | group l ih =>
    have hclose : Delimits (')' :: more) := ⟨')', rfl, .inr (.inl rfl)⟩
    obtain ⟨ts, col', hts, hscan⟩ := ih (col + 1) hclose
    have h₁ : Scans file ⟨'(' :: (l.chars ++ ')' :: more), line, col⟩ _ _ :=
      (Scans.token (scanNext_leftParen file line col _) (by simp [place, Piece.symbol])).append hscan
    have h₂ := h₁.append (.token (scanNext_rightParen file line col' more) (by simp [place, Piece.symbol]))
    refine ⟨_, _, ?_, by simpa [Layout.chars] using h₂⟩
    simp [Layout.pieces, hts]
  | binary op l r ihl ihr =>
    have hblank : Delimits (' ' :: (op.symbol.toList ++ ' ' :: (r.chars ++ more))) :=
      ⟨' ', rfl, .inl rfl⟩
    obtain ⟨ts, col₁, hts, hl⟩ := ihl col hblank
    obtain ⟨col₂, hop⟩ := scanNext_operator file line (col₁ + 1) op (r.chars ++ more)
    obtain ⟨us, col₃, hus, hr⟩ := ihr (col₂ + 1) hmore
    have hkind : op.kind ≠ .eof := by cases op <;> decide
    have h₁ := hl.append (Scans.blank (.token hop hkind))
    have h₂ := h₁.append (.blank hr)
    refine ⟨_, _, ?_, by simpa [Layout.chars] using h₂⟩
    simp [Layout.pieces, hts, hus]

theorem Scans.scan_eq {file : String} {cs : List Char} {ts : List Token} {line col : Int}
    (h : Scans file ⟨cs, 1, 0 + 1⟩ ts ⟨[], line, col⟩) (hlength : ts.length ≤ cs.length) :
    Token.scan (String.ofList cs) file = (ts ++ [place file line col ⟨.eof, "", .none⟩], []) := by
  obtain ⟨k, hk⟩ := Nat.exists_eq_add_of_le hlength
  have hlast : scanFrom file (k + 1) ⟨[], line, col⟩ = ([place file line col ⟨.eof, "", .none⟩], []) := by
    rw [scanFrom, scanNext_nil]
    rfl
  have hfuel : cs.length + 1 = ts.length + (k + 1) := by rw [hk, Nat.add_assoc]
  rw [Token.scan, Token.scanAt, String.toList_ofList, hfuel, h (k + 1), hlast]

theorem scan_line (file : String) (l : Layout) : ∃ ts newline last,
    Token.scan (String.ofList (l.chars ++ ['\n'])) file = (ts ++ [newline, last], []) ∧
      ts.map Token.piece = l.pieces ∧ newline.kind = .newline ∧ last.kind = .eof := by
  obtain ⟨ts, col, hts, hscan⟩ := scan_layout file 1 (0 + 1) l
    (show Delimits ['\n'] from ⟨'\n', rfl, .inr (.inr rfl)⟩)
  have hnewline := Scans.token (scanNext_newline file 1 col []) (by simp [place, Piece.symbol])
  have hlength : (ts ++ [place file 1 col (.symbol .newline "\n")]).length ≤ (l.chars ++ ['\n']).length := by
    have := l.length_pieces_le
    rw [← hts, List.length_map] at this
    simpa using this
  have hline := (hscan.append hnewline).scan_eq hlength
  rw [List.append_assoc] at hline
  exact ⟨ts, _, _, hline, hts, rfl, rfl⟩

end Scripting.Lexer
