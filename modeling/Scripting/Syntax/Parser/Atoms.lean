import Scripting.Syntax.Parser.State
import Scripting.Text.CharClass

/-!
# Types, literals and patterns

The rules for type annotations, for the tokens that are expressions by themselves, and for the
patterns of a match.
-/

namespace Scripting.Parser

open Parse

def typeArgs (r : Rules) : Parse (List TypeExpr) :=
  iterate (fun args => do
    advance
    let args := args ++ [← r.type]
    if ← peekIs .comma then
      advance
      return .inl args
    else return .inr args) r.rounds []

def arraySuffix (tok : Token) : Nat → TypeExpr → Parse TypeExpr
  | 0, _ => failure
  | n + 1, t => do
    match (← get).tokens with
    | _ :: u :: v :: _ =>
      if u.kind == .leftBracket && v.kind == .rightBracket then
        advance
        advance
        arraySuffix tok n (.array tok t)
      else return t
    | _ => return t

def typeExpr (r : Rules) : Parse TypeExpr := do
  let tok ← current
  if tok.kind != .ident then
    fail .malformed tok ("expected type, got " ++ describe tok)
  else
    let path ← dottedPath r.rounds [tok.lexeme]
    let args ← if ← peekIs .lt then do
        advance
        let args ← typeArgs r
        if ← peekIs .shiftRight then modify ParseState.splitShift
        expectPeek .gt
        pure args
      else pure []
    arraySuffix tok r.rounds (.named tok path args)

def typeAfterColon (r : Rules) : Parse (Option TypeExpr) := do
  if ← peekIs .colon then
    advance
    advance
    return some (← r.type)
  else return none

def literal (tok : Token) : Parse (Expr .parsed) :=
  match tok.kind, tok.literal with
  | .int, .int v => return .int () tok v
  | .int, _ =>
    fail .badLiteral tok ("could not parse " ++ Text.quoted tok.lexeme ++ " as integer")
  | .float, .float v => return .float () tok v
  | .float, _ =>
    fail .badLiteral tok ("could not parse " ++ Text.quoted tok.lexeme ++ " as float")
  | .string, .text v => return .string () tok v
  | .string, _ => return .string () tok ""
  | .char, .char v => return .char () tok v
  | .kwTrue, _ => return .bool () tok true
  | .kwFalse, _ => return .bool () tok false
  | _, _ => fail .badLiteral tok ("invalid character literal " ++ tok.lexeme)

def unary (r : Rules) (c : Context) (op : UnaryOp) : Parse (Expr .parsed) := do
  let tok ← current
  advance
  return .unary () tok op (← r.expr 14 c)

/-- The arguments of a constructor pattern, from the token after the parenthesis on. -/
def patternArgs (r : Rules) (c : Context) : Parse (List (Pattern .parsed)) := do
  skipNewlines
  iterate (fun args => do
    if ← currentIs .rightParen then return .inr args
    else
      let args := args ++ [← r.pattern c]
      advance
      skipNewlines
      if ← currentIs .comma then
        advance
        skipNewlines
        return .inl args
      else if ← currentIs .rightParen then return .inl args
      else
        let tok ← current
        fail .malformed tok ("expected ',' or ')' in pattern, got " ++ describe tok)) r.rounds []

def ctorPattern (r : Rules) (c : Context) : Parse (Pattern .parsed) := do
  let tok ← current
  let path ← dottedPath r.rounds [tok.lexeme]
  if ← peekIs .leftParen then
    advance
    advance
    return .ctor tok () path (← patternArgs r c)
  else return .ctor tok () path []

/-- A pattern: a literal, `_`, a name to bind, or a constructor, which starts with a capital. -/
def pattern (r : Rules) (c : Context) : Parse (Pattern .parsed) := do
  let tok ← current
  match tok.kind with
  | .int | .float | .string | .char | .kwTrue | .kwFalse => return .literal tok (← literal tok)
  | .minus =>
    if (← peekIs .int) || (← peekIs .float) then return .literal tok (← unary r c .neg)
    else fail .malformed tok "expected number after '-' in pattern"
  | .ident =>
    if tok.lexeme == "_" then return .wildcard tok
    else if Text.startsUpper tok.lexeme then ctorPattern r c
    else return .bind ⟨tok, tok.lexeme⟩ ()
  | _ => fail .malformed tok ("invalid pattern " ++ describe tok)

end Scripting.Parser
