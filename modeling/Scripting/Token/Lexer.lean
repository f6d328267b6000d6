import Scripting.Token
import Scripting.Diagnostic
import Scripting.Text.Quoted
import Scripting.Decimal.Reader

/-!
# Reading tokens

`Token.scan` splits a text into tokens, the last of which is the end of input. The reader works on
the list of remaining characters; a NUL character reads like the end of the input. Blanks and line
comments separate tokens, newlines are tokens of their own.

Numbers may hold underscores. A string with a braced segment is interpolated: the segment reaches to
its matching brace, strings inside it are skipped over, and its source is kept with its position.
-/

namespace Scripting

open Text

/-- A place in the input: the characters ahead and the position of the first of them. -/
structure Cursor where
  rest : List Char
  line : Int
  col : Int

namespace Cursor

def current (c : Cursor) : Char := c.rest.headD '\x00'

def peek (c : Cursor) : Char := c.rest.tail.headD '\x00'

/-- Steps over the current character. The column grows at the end of the input as well. -/
def advance (c : Cursor) : Cursor :=
  if c.current == '\n' then ⟨c.rest.tail, c.line + 1, 1⟩ else ⟨c.rest.tail, c.line, c.col + 1⟩

def advanceBy : Nat → Cursor → Cursor
  | 0, c => c
  | n + 1, c => advanceBy n c.advance

end Cursor

namespace Lexer

def opensComment : List Char → Bool
  | '/' :: '/' :: _ => true
  | _ => false

def skipComment (line : Int) : List Char → Int → Cursor
  | [], col => ⟨[], line, col⟩
  | c :: cs, col =>
    if c == '\n' || c == '\x00' then ⟨c :: cs, line, col⟩ else skipComment line cs (col + 1)

def skipBlanks (line : Int) : List Char → Int → Cursor
  | [], col => ⟨[], line, col⟩
  | c :: cs, col =>
    if c == ' ' || c == '\t' || c == '\r' then skipBlanks line cs (col + 1)
    else if opensComment (c :: cs) then skipComment line (c :: cs) col
    else ⟨c :: cs, line, col⟩

def isWordStart (c : Char) : Bool := c == '_' || isLetter c

def isWordPart (c : Char) : Bool := isWordStart c || c.isDigit

def isDigitPart (c : Char) : Bool := c.isDigit || c == '_'

def unescape? : Char → Option Char
  | 'n' => some '\n'
  | 't' => some '\t'
  | 'r' => some '\r'
  | '0' => some '\x00'
  | '\\' => some '\\'
  | '"' => some '"'
  | '\'' => some '\''
  | '\x7b' => some '\x7b'
  | '\x7d' => some '\x7d'
  | _ => none

/-- A token with the errors met while reading it and the place after it. -/
structure Step where
  token : Token
  next : Cursor
  errors : List Diagnostic := []

def digitsValue (ds : List Char) : Nat :=
  ds.foldl (fun n c => 10 * n + (c.toNat - 48)) 0

/-- The parts of a number: whole digits, fraction, and exponent with its sign. -/
structure NumberText where
  whole : List Char
  fraction : Option (List Char)
  exponent : Option (List Char × List Char)

def NumberText.lexeme (n : NumberText) : List Char :=
  n.whole ++ (n.fraction.map ('.' :: ·)).getD []
    ++ (n.exponent.map fun (mark, ds) => mark ++ ds).getD []

def readFraction : List Char → Option (List Char) × List Char
  | '.' :: c :: cs =>
    if c.isDigit then
      (some ((c :: cs).takeWhile isDigitPart), (c :: cs).dropWhile isDigitPart)
    else (none, '.' :: c :: cs)
  | cs => (none, cs)

def readExponent : List Char → Option (List Char × List Char) × List Char
  | e :: c :: cs =>
    if e == 'e' || e == 'E' then
      if c == '+' || c == '-' then
        (some ([e, c], cs.takeWhile Char.isDigit), cs.dropWhile Char.isDigit)
      else if c.isDigit then
        (some ([e], (c :: cs).takeWhile Char.isDigit), (c :: cs).dropWhile Char.isDigit)
      else (none, e :: c :: cs)
    else (none, e :: c :: cs)
  | cs => (none, cs)

def readNumber (cs : List Char) : NumberText × List Char :=
  let whole := cs.takeWhile isDigitPart
  let (fraction, r₁) := readFraction (cs.dropWhile isDigitPart)
  let (exponent, r₂) := readExponent r₁
  (⟨whole, fraction, exponent⟩, r₂)

def NumberText.int? (n : NumberText) : Option Int64 :=
  let v := digitsValue (n.whole.filter Char.isDigit)
  if v < 9223372036854775808 then some (Int64.ofNat v) else none

def NumberText.float (n : NumberText) : Float × Bool :=
  let value (e : Int) : Float × Bool :=
    let x := Decimal.Written.value ⟨false, n.whole.filter Char.isDigit,
      (n.fraction.getD []).filter Char.isDigit, e⟩
    (x, !x.isInf)
  match n.exponent with
  | none => value 0
  | some (_, []) => (0.0, false)
  | some (mark, ds) =>
    let e : Int := Decimal.exponentValue ds
    value (if mark.contains '-' then -e else e)

def scanNumber (file : String) (c : Cursor) : Step :=
  let (n, rest) := readNumber c.rest
  let lexeme := String.ofList n.lexeme
  let next : Cursor := ⟨rest, c.line, c.col + n.lexeme.length⟩
  let tok (kind : Token.Kind) (lit : Token.Literal) : Token :=
    { kind := kind, lexeme := lexeme, literal := lit, line := c.line, col := c.col, file := file }
  if n.fraction.isSome || n.exponent.isSome then
    let (x, ok) := n.float
    let t := tok .float (.float x)
    ⟨t, next, if ok then [] else [.report .lexical t ("invalid float literal " ++ lexeme)]⟩
  else
    match n.int? with
    | some v => ⟨tok .int (.int v), next, []⟩
    | none =>
      let t := tok .int (.int Int64.maxValue)
      ⟨t, next, [.report .lexical t ("invalid integer literal " ++ lexeme)]⟩

def unknownEscape (file : String) (line col : Int) (c : Char) : Diagnostic :=
  let lexeme := String.ofList ['\\', c]
  .report .lexical { kind := .illegal, lexeme := lexeme, line := line, col := col, file := file }
    ("unknown escape sequence " ++ lexeme)

/-- Where the reader of a string literal stands. -/
inductive StringMode where
  /-- In literal text. -/
  | text
  /-- After a backslash in literal text. -/
  | escape
  /-- In an interpolated expression that opened at a position, under `depth` braces. -/
  | code (line col : Int) (depth : Nat)
  /-- In a string of such an expression. -/
  | nested (line col : Int) (depth : Nat)
  /-- After a backslash in such a string. -/
  | nestedEscape (line col : Int) (depth : Nat)

/-- What has been read of a string literal, newest first. -/
structure StringState where
  lexeme : List Char
  text : List Char := []
  source : List Char := []
  parts : List Token.Part := []
  interpolated : Bool := false
  errors : List Diagnostic := []

def StringState.flush (s : StringState) : StringState :=
  if s.text.isEmpty then s
  else { s with parts := .text (String.ofList s.text.reverse) :: s.parts, text := [] }

def StringState.finish (s : StringState) (tok : Token) : Token :=
  let lexeme := String.ofList s.lexeme.reverse
  if s.interpolated then
    { tok with kind := .interpolated, lexeme := lexeme, literal := .parts s.flush.parts.reverse }
  else
    { tok with kind := .string, lexeme := lexeme
               literal := .text (String.ofList s.text.reverse) }

/-- The outcome of a string that does not end: the lexeme runs to the end of the input. -/
def StringState.unterminated (s : StringState) (tok : Token) (next : Cursor) (msg : String) : Step :=
  let t := { tok with kind := .illegal, lexeme := String.ofList (s.lexeme.reverse ++ next.rest) }
  ⟨t, next, (Diagnostic.report .lexical t msg :: s.errors).reverse⟩

/-- Reads a string literal character by character. `tok` carries the position of its opening
quote. -/
def scanString (tok : Token) : StringMode → StringState → List Char → (line col : Int) → Step
  | .text, s, [], line, col =>
    s.unterminated tok ⟨[], line, col⟩ "unterminated string literal"
  | .escape, s, [], line, col =>
    { s with errors := unknownEscape tok.file line col '\x00' :: s.errors }.unterminated tok
      ⟨[], line, col + 1⟩ "unterminated string literal"
  | .code .., s, [], line, col =>
    s.unterminated tok ⟨[], line, col⟩ "unterminated interpolation in string literal"
  | .nested .., s, [], line, col =>
    s.unterminated tok ⟨[], line, col + 1⟩ "unterminated interpolation in string literal"
  | .nestedEscape .., s, [], line, col =>
    s.unterminated tok ⟨[], line, col + 2⟩ "unterminated interpolation in string literal"
  | mode, s, c :: cs, line, col =>
    let line' := if c == '\n' then line + 1 else line
    let col' := if c == '\n' then 1 else col + 1
    let taken := c :: s.lexeme
    match mode with
    | .text =>
      if c == '\x00' then
        s.unterminated tok ⟨c :: cs, line, col⟩ "unterminated string literal"
      else if c == '"' then
        ⟨{ s with lexeme := taken }.finish tok, ⟨cs, line', col'⟩, s.errors.reverse⟩
      else if c == '\\' then
        scanString tok .escape { s with lexeme := taken } cs line' col'
      else if c == '\x7b' then
        scanString tok (.code line (col + 1) 0)
          { s.flush with lexeme := taken, interpolated := true, source := [] } cs line' col'
      else scanString tok .text { s with lexeme := taken, text := c :: s.text } cs line' col'
    | .escape =>
      let s := { s with lexeme := taken, text := (unescape? c).getD c :: s.text }
      let s := match unescape? c with
        | some _ => s
        | none => { s with errors := unknownEscape tok.file line col c :: s.errors }
      scanString tok .text s cs line' col'
    | .code l₀ c₀ depth =>
      if c == '\x7d' && depth == 0 then
        let part := Token.Part.source (String.ofList s.source.reverse) l₀ c₀
        scanString tok .text { s with lexeme := taken, parts := part :: s.parts } cs line' col'
      else if c == '\x00' then
        s.unterminated tok ⟨c :: cs, line, col⟩ "unterminated interpolation in string literal"
      else
        let s := { s with lexeme := taken, source := c :: s.source }
        if c == '\x7b' then scanString tok (.code l₀ c₀ (depth + 1)) s cs line' col'
        else if c == '\x7d' then scanString tok (.code l₀ c₀ (depth - 1)) s cs line' col'
        else if c == '"' then scanString tok (.nested l₀ c₀ depth) s cs line' col'
        else scanString tok (.code l₀ c₀ depth) s cs line' col'
    | .nested l₀ c₀ depth =>
      let s := { s with lexeme := taken, source := c :: s.source }
      if c == '"' || c == '\x00' then scanString tok (.code l₀ c₀ depth) s cs line' col'
      else if c == '\\' then scanString tok (.nestedEscape l₀ c₀ depth) s cs line' col'
      else scanString tok (.nested l₀ c₀ depth) s cs line' col'
    | .nestedEscape l₀ c₀ depth =>
      scanString tok (.nested l₀ c₀ depth)
        { s with lexeme := taken, source := c :: s.source } cs line' col'

def scanChar (file : String) (c : Cursor) : Step :=
  let first := c.advance
  let escaped := first.current == '\\'
  let inner := if escaped then first.advance else first
  let value := if escaped then (unescape? inner.current).getD inner.current else inner.current
  let errors :=
    if escaped && (unescape? inner.current).isNone then
      [unknownEscape file inner.line inner.col inner.current]
    else []
  let close := inner.advance
  let width := if escaped then 3 else 2
  let tok (kind : Token.Kind) (n : Nat) (lit : Token.Literal) : Token :=
    { kind := kind, lexeme := String.ofList (c.rest.take n), literal := lit
      line := c.line, col := c.col, file := file }
  if close.current == '\'' then
    ⟨tok .char (width + 1) (.char value), close.advance, errors⟩
  else
    let t := tok .illegal width .none
    ⟨t, close, errors ++ [.report .lexical t "unterminated character literal"]⟩

def pairKind? : Char → Char → Option Token.Kind
  | '=', '=' => some .eq
  | '=', '>' => some .fatArrow
  | '-', '>' => some .arrow
  | '*', '*' => some .power
  | '!', '=' => some .notEq
  | '<', '=' => some .lte
  | '<', '<' => some .shiftLeft
  | '>', '=' => some .gte
  | '>', '>' => some .shiftRight
  | '&', '&' => some .and
  | '|', '|' => some .or
  | '.', '.' => some .dotDot
  | _, _ => none

def singleKind? : Char → Option Token.Kind
  | '\n' => some .newline
  | '=' => some .assign
  | '+' => some .plus
  | '-' => some .minus
  | '*' => some .asterisk
  | '/' => some .slash
  | '%' => some .percent
  | '!' => some .bang
  | '<' => some .lt
  | '>' => some .gt
  | '&' => some .amp
  | '|' => some .pipe
  | '^' => some .caret
  | '.' => some .dot
  | '?' => some .question
  | ',' => some .comma
  | ':' => some .colon
  | ';' => some .semicolon
  | '(' => some .leftParen
  | ')' => some .rightParen
  | '\x7b' => some .leftBrace
  | '\x7d' => some .rightBrace
  | '[' => some .leftBracket
  | ']' => some .rightBracket
  | _ => none

def wordLiteral (kind : Token.Kind) (word : String) : Token.Literal :=
  match kind with
  | .kwTrue => .bool true
  | .kwFalse => .bool false
  | _ => .text word

def scanToken (file : String) (c : Cursor) : Step :=
  let tok (kind : Token.Kind) (lexeme : String) (lit : Token.Literal) : Token :=
    { kind := kind, lexeme := lexeme, literal := lit, line := c.line, col := c.col, file := file }
  let plain (kind : Token.Kind) (n : Nat) : Step :=
    let lexeme := String.ofList (c.rest.take n)
    ⟨tok kind lexeme (.text lexeme), c.advanceBy n, []⟩
  let ch := c.current
  if ch == '\x00' then ⟨tok .eof "" .none, c, []⟩
  else match pairKind? ch c.peek with
  | some kind => plain kind 2
  | none =>
    match singleKind? ch with
    | some kind => plain kind 1
    | none =>
      if ch == '"' then
        scanString (tok .string "" .none) .text { lexeme := ['"'] } c.rest.tail c.line (c.col + 1)
      else if ch == '\'' then scanChar file c
      else if isWordStart ch then
        let word := c.rest.takeWhile isWordPart
        let text := String.ofList word
        let kind := Token.Kind.ofWord text
        ⟨tok kind text (wordLiteral kind text),
          ⟨c.rest.dropWhile isWordPart, c.line, c.col + word.length⟩, []⟩
      else if ch.isDigit then scanNumber file c
      else
        let s := plain .illegal 1
        { s with errors := [.report .lexical s.token ("illegal character " ++ quoted s.token.lexeme)] }

def scanNext (file : String) (c : Cursor) : Step :=
  scanToken file (skipBlanks c.line c.rest c.col)

/-- Reads tokens up to the end of input. Every other token takes at least one character, so as many
steps as there are characters, and one more, are enough. -/
def scanFrom (file : String) : Nat → Cursor → List Token × List Diagnostic
  | 0, _ => ([], [])
  | fuel + 1, c =>
    let s := scanNext file c
    if s.token.kind == .eof then ([s.token], s.errors)
    else
      let (ts, es) := scanFrom file fuel s.next
      (s.token :: ts, s.errors ++ es)

end Lexer

/-- The tokens of a text that starts at `line` and column `col + 1`, and the lexical errors. -/
def Token.scanAt (source : String) (line col : Int) (file : String) :
    List Token × List Diagnostic :=
  let chars := source.toList
  Lexer.scanFrom file (chars.length + 1) ⟨chars, line, col + 1⟩

def Token.scan (source : String) (file : String := "") : List Token × List Diagnostic :=
  Token.scanAt source 1 0 file

end Scripting
