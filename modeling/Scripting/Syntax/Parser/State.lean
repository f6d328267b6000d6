import Scripting.Syntax.Basic
import Scripting.Diagnostic
import Scripting.Text.Quoted

/-!
# The state of the parser

A parser reads a list of tokens whose first one is the current token and whose last one, the end of
input, is never passed. Failing keeps the state: what was read stays read and what was reported
stays reported, so that parsing can go on after a broken statement.
-/

namespace Scripting

/-- The tokens ahead, the current one first, and the errors so far, newest first. -/
structure ParseState where
  tokens : List Token
  errors : List Diagnostic := []

abbrev Parse (α : Type) := OptionT (StateM ParseState) α

/-- Where an expression stands. -/
structure Context where
  /-- A brace opens a body, not an instantiation. -/
  inHead : Bool := false
  /-- How many expressions enclose this place. -/
  depth : Nat := 0

namespace Context

def inside (c : Context) : Context := { c with inHead := false }

def head (c : Context) : Context := { c with inHead := true }

end Context

namespace ParseState

def current (s : ParseState) : Token := s.tokens.headD Token.blank

def peek (s : ParseState) : Token :=
  match s.tokens with
  | _ :: t :: _ => t
  | ts => ts.headD Token.blank

def advance (s : ParseState) : ParseState :=
  match s.tokens with
  | _ :: t :: ts => { s with tokens := t :: ts }
  | _ => s

def dropNewlines : List Token → List Token
  | t :: u :: ts => if t.kind == .newline then dropNewlines (u :: ts) else t :: u :: ts
  | ts => ts

def dropPeekNewlines : List Token → List Token
  | t :: u :: ts => if u.kind == .newline then dropPeekNewlines (u :: ts) else t :: u :: ts
  | ts => ts

def kindPastNewlines (s : ParseState) : Token.Kind :=
  match s.tokens.tail.find? fun t => t.kind != .newline with
  | some t => t.kind
  | none => (s.tokens.getLast?.map (·.kind)).getD .eof

/-- Splits a `>>` behind the current token in two, for the end of nested type arguments. -/
def splitShift (s : ParseState) : ParseState :=
  match s.tokens with
  | t :: u :: ts =>
    let first : Token := { u with kind := .gt, lexeme := ">", literal := .text ">" }
    { s with tokens := t :: first :: { first with col := first.col + 1 } :: ts }
  | _ => s

/-- Skips a broken statement: to a separator outside the braces it opens, or, in a block, to the
brace that closes the block. -/
def skipStatement (close : Token.Kind) : Int → List Token → List Token
  | depth, t :: u :: ts =>
    match t.kind with
    | .eof => t :: u :: ts
    | .leftBrace => skipStatement close (depth + 1) (u :: ts)
    | .rightBrace =>
      if depth == 0 && close == .rightBrace then t :: u :: ts
      else skipStatement close (depth - 1) (u :: ts)
    | .newline | .semicolon =>
      if depth ≤ 0 then t :: u :: ts else skipStatement close depth (u :: ts)
    | _ => skipStatement close depth (u :: ts)
  | _, ts => ts

end ParseState

namespace Parse

def describe (t : Token) : String :=
  match t.kind with
  | .eof => "end of input"
  | .newline => "newline"
  | _ => Text.quoted t.lexeme

def current : Parse Token := do return (← get).current
def peek : Parse Token := do return (← get).peek
def advance : Parse Unit := modify ParseState.advance

def currentIs (k : Token.Kind) : Parse Bool := do return (← get).current.kind == k
def peekIs (k : Token.Kind) : Parse Bool := do return (← get).peek.kind == k

def skipNewlines : Parse Unit :=
  modify fun s => { s with tokens := ParseState.dropNewlines s.tokens }

def skipPeekNewlines : Parse Unit :=
  modify fun s => { s with tokens := ParseState.dropPeekNewlines s.tokens }

def skipWhile (kinds : List Token.Kind) : Parse Unit :=
  let rec go : List Token → List Token
    | t :: u :: ts => if kinds.contains t.kind then go (u :: ts) else t :: u :: ts
    | ts => ts
  modify fun s => { s with tokens := go s.tokens }

def report (code : Diagnostic.Code) (tok : Token) (msg : String) : Parse Unit :=
  modify fun s => { s with errors := .report code tok msg :: s.errors }

def fail {α : Type} (code : Diagnostic.Code) (tok : Token) (msg : String) : Parse α := do
  report code tok msg
  failure

def expectPeek (k : Token.Kind) : Parse Unit := do
  let t ← peek
  if t.kind == k then advance
  else
    fail .unexpected t
      ("expected next token to be " ++ k.name ++ ", got " ++ describe t ++ " instead")

def currentName : Parse Name := do
  let t ← current
  return ⟨t, t.lexeme⟩

def dottedPath (rounds : Nat) (path : List String) : Parse (List String) :=
  match rounds with
  | 0 => failure
  | n + 1 => do
    if ← peekIs .dot then
      advance
      expectPeek .ident
      dottedPath n (path ++ [(← current).lexeme])
    else return path

def iterate {σ β : Type} (step : σ → Parse (σ ⊕ β)) : Nat → σ → Parse β
  | 0, _ => failure
  | n + 1, s => do
    match ← step s with
    | .inl s' => iterate step n s'
    | .inr b => return b

end Parse

/-- The rules of the grammar that refer to each other. Each rule of the grammar is written once
over such a family, and `Parser.rules` ties the knot. -/
structure Rules where
  /-- How many rounds a repetition may take: more than there are tokens. -/
  rounds : Nat
  /-- An expression whose operators bind tighter than the given level. -/
  expr : (level : Nat) → Context → Parse (Expr .parsed)
  /-- A block, from its opening brace to its closing one. -/
  block : Context → Parse (Block .parsed)
  /-- A conditional, from its keyword on. -/
  cond : Context → Parse (Expr .parsed)
  pattern : Context → Parse (Pattern .parsed)
  type : Parse TypeExpr

end Scripting
