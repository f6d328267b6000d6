import Scripting.Text.Quoted

/-!
# Tokens

A token is a kind, the text it was read from, its decoded value and its position. Positions count
characters; the first column is 1.
-/

namespace Scripting

/-- What a token is. -/
inductive Token.Kind where
  | illegal | eof | newline
  | ident | int | float | string | char | interpolated
  | assign | plus | minus | asterisk | slash | percent | power | bang
  | eq | notEq | lt | lte | gt | gte
  | and | or | pipe | amp | caret | shiftLeft | shiftRight
  | arrow | fatArrow | dot | dotDot | question
  | comma | colon | semicolon
  | leftParen | rightParen | leftBrace | rightBrace | leftBracket | rightBracket
  | kwLet | kwFun | kwReturn | kwIf | kwElse | kwWhile | kwFor | kwIn | kwMatch
  | kwType | kwUnion | kwImpl | kwUse | kwTry | kwBreak | kwContinue
  | kwTrue | kwFalse | kwMut | kwPub
deriving DecidableEq, Repr, Inhabited

def Token.Kind.name : Token.Kind → String
  | illegal => "ILLEGAL" | eof => "EOF" | newline => "NEWLINE"
  | ident => "IDENT" | int => "INT" | float => "FLOAT" | string => "STRING" | char => "CHAR"
  | interpolated => "INTERP_STRING"
  | assign => "=" | plus => "+" | minus => "-" | asterisk => "*" | slash => "/" | percent => "%"
  | power => "**" | bang => "!"
  | eq => "==" | notEq => "!=" | lt => "<" | lte => "<=" | gt => ">" | gte => ">="
  | and => "&&" | or => "||" | pipe => "|" | amp => "&" | caret => "^"
  | shiftLeft => "<<" | shiftRight => ">>"
  | arrow => "->" | fatArrow => "=>" | dot => "." | dotDot => ".." | question => "?"
  | comma => "," | colon => ":" | semicolon => ";"
  | leftParen => "(" | rightParen => ")" | leftBrace => "\x7b" | rightBrace => "\x7d"
  | leftBracket => "[" | rightBracket => "]"
  | kwLet => "LET" | kwFun => "FUN" | kwReturn => "RETURN" | kwIf => "IF" | kwElse => "ELSE"
  | kwWhile => "WHILE" | kwFor => "FOR" | kwIn => "IN" | kwMatch => "MATCH" | kwType => "TYPE"
  | kwUnion => "UNION" | kwImpl => "IMPL" | kwUse => "USE" | kwTry => "TRY" | kwBreak => "BREAK"
  | kwContinue => "CONTINUE" | kwTrue => "TRUE" | kwFalse => "FALSE" | kwMut => "MUT"
  | kwPub => "PUB"

def Token.keywords : List (String × Token.Kind) :=
  [("let", .kwLet), ("fun", .kwFun), ("return", .kwReturn), ("if", .kwIf), ("else", .kwElse),
   ("while", .kwWhile), ("for", .kwFor), ("in", .kwIn), ("match", .kwMatch), ("type", .kwType),
   ("union", .kwUnion), ("impl", .kwImpl), ("use", .kwUse), ("try", .kwTry), ("break", .kwBreak),
   ("continue", .kwContinue), ("true", .kwTrue), ("false", .kwFalse), ("mut", .kwMut),
   ("pub", .kwPub)]

def Token.Kind.ofWord (word : String) : Token.Kind :=
  (Token.keywords.lookup word).getD .ident

/-- A segment of an interpolated string: literal text, or the source of an expression with the
position where it starts. -/
inductive Token.Part where
  | text (value : String)
  | source (code : String) (line col : Int)
deriving DecidableEq, Repr

def Token.Part.size : Token.Part → Nat
  | text _ => 0
  | source code _ _ => code.length

def Token.Part.sizes (segments : List Token.Part) : Nat :=
  segments.foldr (fun p n => p.size + n) 0

/-- The decoded value of a token. -/
inductive Token.Literal where
  | none
  | int (value : Int64)
  | float (value : Float)
  | text (value : String)
  | char (value : Char)
  | bool (value : Bool)
  | parts (segments : List Token.Part)
deriving Repr, Inhabited

/-- A lexical token. `lexeme` is the text as it stands in the source. -/
structure Token where
  kind : Token.Kind
  lexeme : String := ""
  literal : Token.Literal := .none
  line : Int := 0
  col : Int := 0
  file : String := ""
deriving Repr, Inhabited

def Token.text (t : Token) : String :=
  t.kind.name ++ "(" ++ Text.quoted t.lexeme ++ ") at " ++ toString t.line ++ ":" ++ toString t.col

def Token.blank : Token := { kind := .eof }

end Scripting
