import Scripting.Syntax.Parser.Stmts

/-!
# Parsing

`Source.parse` turns tokens into a tree and reports what does not fit. The rules refer to each
other; `Parser.rules n` is the family of rules that may nest `n` deep. Every nesting takes a token
or a character of an interpolated segment, so `Parser.fuel` is deep enough.
-/

namespace Scripting

namespace Parser

def rules (rounds : Nat) : Nat → Rules
  | 0 =>
    { rounds := rounds
      expr := fun _ _ => failure
      block := fun _ => failure
      cond := fun _ => failure
      pattern := fun _ => failure
      type := failure }
  | n + 1 =>
    { rounds := rounds
      expr := fun level c => fun s => expr (rules rounds n) level c s
      block := fun c => fun s => block (rules rounds n) c s
      cond := fun c => fun s => condForm (rules rounds n) c s
      pattern := fun c => fun s => pattern (rules rounds n) c s
      type := fun s => typeExpr (rules rounds n) s }

/-- How much there is to read in a token: two halves of a `>>`, the characters of interpolated
segments, and nothing at the end of input. -/
def weight (t : Token) : Nat :=
  match t.kind, t.literal with
  | .eof, _ => 0
  | .shiftRight, _ => 2
  | .interpolated, .parts ps => 1 + Token.Part.sizes ps
  | _, _ => 1

def load (tokens : List Token) : Nat :=
  tokens.foldr (fun t n => weight t + n) 0

/-- Nesting enough for these tokens: two rules for whatever there is to read, and two more. -/
def fuel (tokens : List Token) : Nat :=
  2 * load tokens + 2

def closed (tokens : List Token) : List Token :=
  match tokens.getLast? with
  | some t => if t.kind == .eof then tokens else tokens ++ [Token.blank]
  | none => [Token.blank]

def rulesFor (tokens : List Token) : Rules :=
  let n := fuel tokens
  rules n n

end Parser

def Source.parse (file : String) (tokens : List Token) : Source .parsed × List Diagnostic :=
  let tokens := Parser.closed tokens
  let (stmts?, s) := (Parser.stmtList (Parser.rulesFor tokens) {} .eof).run { tokens := tokens }
  (⟨file, stmts?.getD []⟩, s.errors.reverse)

/-- Why a type annotation cannot be read. -/
inductive TypeExpr.Error where
  | diagnostic (d : Diagnostic)
  | trailing (found : Token) (type : TypeExpr)

def TypeExpr.Error.message : TypeExpr.Error → String
  | diagnostic d => d.text
  | trailing found type => "unexpected " ++ Parse.describe found ++ " after type " ++ type.text

def TypeExpr.parse (source : String) : Except TypeExpr.Error TypeExpr :=
  let (tokens, errors) := Token.scan source
  match errors with
  | d :: _ => .error (.diagnostic d)
  | [] =>
    let tokens := Parser.closed tokens
    let (t?, s) := (Parser.typeExpr (Parser.rulesFor tokens)).run { tokens := tokens }
    match s.errors.getLast?, t? with
    | some d, _ => .error (.diagnostic d)
    | none, some t => if s.peek.kind == .eof then .ok t else .error (.trailing s.peek t)
    | none, none => .error (.diagnostic (.report .malformed s.current "expected type"))

end Scripting
