import Scripting.Token

/-!
# Diagnostics

What a stage reports: the kind of failure, the token it is about, a file and a message.
-/

namespace Scripting

/-- The kinds of failure, one per rule that can be broken. -/
inductive Diagnostic.Code where
  /-- An illegal character or an unterminated literal. -/
  | lexical
  /-- A token that does not fit here. -/
  | unexpected
  /-- A token that cannot start an expression. -/
  | noExpression
  /-- A literal that cannot be read. -/
  | badLiteral
  /-- A malformed declaration or pattern. -/
  | malformed
  /-- An unresolved name. -/
  | unbound
  /-- A simple type name with several meanings. -/
  | ambiguousType
  /-- A binding that may not be made or assigned. -/
  | badBinding
  /-- Branches that disagree on a type. -/
  | disagreement
  /-- A type mismatch. -/
  | mismatch
  /-- No candidate takes the arguments. -/
  | noOverload
  /-- A construct without code. -/
  | unsupported
  /-- A failure of a running program. -/
  | runtime
deriving DecidableEq, Repr, Inhabited

def Diagnostic.Code.text : Diagnostic.Code → String
  | lexical => "L001"
  | unexpected => "P001"
  | noExpression => "P002"
  | badLiteral => "P003"
  | malformed => "P004"
  | unbound => "B001"
  | ambiguousType => "B002"
  | badBinding => "B003"
  | disagreement => "T001"
  | mismatch => "T002"
  | noOverload => "O001"
  | unsupported => "U001"
  | runtime => "R001"

def Diagnostic.Code.category : Diagnostic.Code → String
  | lexical => "LexError"
  | unexpected | noExpression | badLiteral | malformed => "ParseError"
  | unbound | ambiguousType | badBinding => "BindingError"
  | disagreement => "TypeUnificationError"
  | mismatch => "TypeError"
  | noOverload => "OverloadResolutionError"
  | unsupported => "UnsupportedConstructError"
  | runtime => "RuntimeError"

/-- One failure at a place in the source. -/
structure Diagnostic where
  code : Diagnostic.Code
  token : Token
  file : String
  message : String
deriving Inhabited

namespace Diagnostic

def report (code : Code) (token : Token) (message : String) : Diagnostic :=
  ⟨code, token, token.file, message⟩

def text (d : Diagnostic) : String :=
  let place := toString d.token.line ++ ":" ++ toString d.token.col
  (if d.file.isEmpty then place else d.file ++ ":" ++ place)
    ++ ": error [" ++ d.code.text ++ "]: " ++ d.message

def inFile (file : String) (d : Diagnostic) : Diagnostic :=
  if d.file.isEmpty then { d with file := file } else d

end Diagnostic

end Scripting
