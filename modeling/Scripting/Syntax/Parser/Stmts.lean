import Scripting.Syntax.Parser.Exprs

/-!
# Statements

Statements are separated by newlines or semicolons; one that ends in a brace needs no separator. A
statement with an error is dropped, and parsing goes on behind it.
-/

namespace Scripting.Parser

open Parse

def letStmt (r : Rules) (c : Context) : Parse (Stmt .parsed) := do
  let tok ← current
  if ← peekIs .kwMut then advance
  expectPeek .ident
  let name ← currentName
  let type ← typeAfterColon r
  expectPeek .assign
  advance
  skipNewlines
  return .bind tok name () type (← r.expr 1 c)

def returnStmt (r : Rules) (c : Context) : Parse (Stmt .parsed) := do
  let tok ← current
  match (← peek).kind with
  | .newline | .semicolon | .rightBrace | .eof => return .ret tok none
  | _ =>
    advance
    return .ret tok (some (← r.expr 1 c))

def whileStmt (r : Rules) (c : Context) : Parse (Stmt .parsed) := do
  let tok ← current
  advance
  let test ← r.expr 1 c.head
  expectPeek .leftBrace
  return .loop tok test (← r.block c)

def forStmt (r : Rules) (c : Context) : Parse (Stmt .parsed) := do
  let tok ← current
  expectPeek .ident
  let name ← currentName
  expectPeek .kwIn
  advance
  let series ← r.expr 1 c.head
  expectPeek .leftBrace
  return .each tok name () series (← r.block c)

def param (r : Rules) (inImpl first : Bool) : Parse (Option (Param .parsed)) := do
  let tok ← current
  if tok.kind != .ident then
    fail .malformed tok ("expected parameter name, got " ++ describe tok)
  else if tok.lexeme == "self" && first && !(← peekIs .colon) then
    if inImpl then return none
    else fail .malformed tok "self parameter outside impl block"
  else return some ⟨⟨tok, tok.lexeme⟩, (), ← typeAfterColon r⟩

/-- The parameters of a function, from the token after the parenthesis on, and whether the receiver
is among them. -/
def params (r : Rules) (inImpl : Bool) : Parse (Bool × List (Param .parsed)) := do
  skipNewlines
  iterate (fun (first, hasSelf, ps) => do
    let tok ← current
    if tok.kind == .rightParen then return .inr (hasSelf, ps)
    else
      if !first then
        if tok.kind == .comma then
          advance
          skipNewlines
        else
          fail .unexpected tok
            ("expected ',' or ')' in parameter list, got " ++ describe tok)
      let p? ← param r inImpl first
      advance
      skipNewlines
      match p? with
      | some p => return .inl (false, hasSelf, ps ++ [p])
      | none => return .inl (false, true, ps)) r.rounds (true, false, [])

def funDecl (r : Rules) (c : Context) (inImpl : Bool) : Parse (FunDecl .parsed) := do
  let tok ← current
  expectPeek .ident
  let name ← currentName
  expectPeek .leftParen
  advance
  let (hasSelf, ps) ← params r inImpl
  let result ← if (← peekIs .colon) || (← peekIs .arrow) then do
      advance
      advance
      pure (some (← r.type))
    else pure none
  expectPeek .leftBrace
  return .mk tok name () hasSelf ps result (← r.block c)

/-- Field declarations up to `close`. Positional fields may leave their names out. -/
def fieldDecls (r : Rules) (close : Token.Kind) (positional : Bool) : Parse (List FieldDecl) :=
  iterate (fun fields => do
    skipWhile [.newline, .comma]
    let tok ← current
    if tok.kind == close then return .inr fields
    else
      let name ← if tok.kind == .ident && (← peekIs .colon) then do
          advance
          advance
          pure tok.lexeme
        else if positional then pure ("item" ++ toString (fields.length + 1))
        else
          fail .malformed tok
            ("expected field declaration `name: Type`, got " ++ describe tok)
      if fields.any fun f => f.name == name then
        fail .malformed tok ("duplicate field " ++ name)
      else
        let type ← r.type
        advance
        return .inl (fields ++ [⟨tok, name, type⟩])) r.rounds []

def typeStmt (r : Rules) : Parse (Stmt .parsed) := do
  let tok ← current
  expectPeek .ident
  let name ← currentName
  if Text.startsUpper name.text then
    expectPeek .leftBrace
    advance
    return .record tok name (← fieldDecls r .rightBrace false)
  else
    fail .malformed name.token
      ("type name " ++ name.text ++ " must start with an upper-case letter")

def unionStmt (r : Rules) : Parse (Stmt .parsed) := do
  let tok ← current
  expectPeek .ident
  let name ← currentName
  expectPeek .leftBrace
  advance
  let variants ← iterate (fun variants => do
    skipWhile [.newline, .comma]
    let tok ← current
    if tok.kind == .rightBrace then return .inr variants
    else if tok.kind == .ident && Text.startsUpper tok.lexeme then
      let fields ← if ← peekIs .leftParen then do
          advance
          advance
          fieldDecls r .rightParen true
        else pure []
      advance
      return .inl (variants ++ [(⟨tok, tok.lexeme, fields⟩ : VariantDecl)])
    else fail .malformed tok ("expected variant name, got " ++ describe tok)) r.rounds []
  if variants.isEmpty then
    fail .malformed tok ("union " ++ name.text ++ " has no variants")
  else return .union tok name variants

def implStmt (r : Rules) (c : Context) : Parse (Stmt .parsed) := do
  let tok ← current
  expectPeek .ident
  let name ← currentName
  expectPeek .leftBrace
  advance
  let methods ← iterate (fun methods => do
    skipWhile [.newline, .semicolon, .kwPub]
    let tok ← current
    if tok.kind == .rightBrace then return .inr methods
    else if tok.kind == .kwFun then
      let f ← funDecl r c true
      advance
      return .inl (methods ++ [f])
    else
      fail .malformed tok
        ("only functions may appear in impl blocks, got " ++ describe tok)) r.rounds []
  return .impl tok name methods

def useStmt (r : Rules) : Parse (Stmt .parsed) := do
  let tok ← current
  expectPeek .ident
  return .use tok (← dottedPath r.rounds [(← current).lexeme])

def stmt (r : Rules) (c : Context) : Parse (Stmt .parsed) := do
  skipWhile [.kwPub]
  let tok ← current
  match tok.kind with
  | .kwLet => letStmt r c
  | .kwFun => return .func (← funDecl r c false)
  | .kwType => typeStmt r
  | .kwUnion => unionStmt r
  | .kwImpl => implStmt r c
  | .kwUse => useStmt r
  | .kwReturn => returnStmt r c
  | .kwWhile => whileStmt r c
  | .kwFor => forStmt r c
  | .kwBreak => return .leave tok
  | .kwContinue => return .next tok
  | .leftBrace => return .block (← r.block c)
  | _ => return .expr tok (← r.expr 1 c)

def skipBroken (close : Token.Kind) : Parse Unit :=
  modify fun s => { s with tokens := ParseState.skipStatement close 0 s.tokens }

def cleanStmt (r : Rules) (c : Context) : Parse (Option (Stmt .parsed)) := fun s =>
  let (st?, s') := (stmt r c).run s
  (if s'.errors.length > s.errors.length then some none else st?.map some, s')

/-- The next statement of a list, newest first, or the end of the list at `close`. -/
def stmtRound (r : Rules) (c : Context) (close : Token.Kind) (list : List (Stmt .parsed)) :
    Parse (List (Stmt .parsed) ⊕ List (Stmt .parsed)) := do
  skipWhile [.newline, .semicolon]
  let tok ← current
  if tok.kind == close || tok.kind == .eof then return .inr list
  else
    match ← cleanStmt r c with
    | none =>
      skipBroken close
      return .inl list
    | some st =>
      let endsWithBrace ← currentIs .rightBrace
      advance
      let tok ← current
      if tok.kind == .newline || tok.kind == .semicolon || tok.kind == close
          || tok.kind == .eof || endsWithBrace then
        return .inl (st :: list)
      else
        report .unexpected tok ("expected newline or ';' before " ++ describe tok)
        skipBroken close
        return .inl (st :: list)

def stmtList (r : Rules) (c : Context) (close : Token.Kind) : Parse (List (Stmt .parsed)) := do
  let list ← iterate (stmtRound r c close) r.rounds []
  return list.reverse

def block (r : Rules) (c : Context) : Parse (Block .parsed) := do
  let opening ← current
  advance
  let stmts ← stmtList r c.inside .rightBrace
  let closing ← current
  if closing.kind == .rightBrace then return .mk () opening stmts closing
  else
    fail .unexpected closing ("expected '\x7d' to close block opened at "
      ++ toString opening.line ++ ":" ++ toString opening.col)

end Scripting.Parser
