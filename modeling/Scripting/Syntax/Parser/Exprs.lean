import Scripting.Syntax.Parser.Atoms
import Scripting.Token.Lexer

/-!
# Expressions

Operators bind by level. An expression is a prefix form followed by operators, calls, members and
indices of a higher level than the one asked for.
-/

namespace Scripting.Parser

open Parse

def maxDepth : Nat := 500

/-- The level of the operator that a token is; 1 for tokens that continue no expression. -/
def levelOf : Token.Kind → Nat
  | .assign => 2
  | .pipe => 3
  | .or => 4
  | .and => 5
  | .eq | .notEq => 6
  | .lt | .gt | .lte | .gte => 7
  | .amp | .caret => 8
  | .shiftLeft | .shiftRight => 9
  | .dotDot => 10
  | .plus | .minus => 11
  | .asterisk | .slash | .percent => 12
  | .power => 13
  | .leftParen | .leftBracket | .dot | .leftBrace => 15
  | _ => 1

def binaryOp? : Token.Kind → Option BinaryOp
  | .pipe => some .pipe
  | .or => some .or
  | .and => some .and
  | .eq => some .eq
  | .notEq => some .ne
  | .lt => some .lt
  | .gt => some .gt
  | .lte => some .le
  | .gte => some .ge
  | .amp => some .bitAnd
  | .caret => some .bitXor
  | .shiftLeft => some .shiftLeft
  | .shiftRight => some .shiftRight
  | .plus => some .add
  | .minus => some .sub
  | .asterisk => some .mul
  | .slash => some .div
  | .percent => some .mod
  | .power => some .pow
  | _ => none

def qualifiedName : Expr .parsed → Option (List String)
  | .name _ _ text _ => some [text]
  | .member _ _ left m => (qualifiedName left).map (· ++ [m.text])
  | _ => none

/-- Whether a brace after this expression opens an instantiation: it names a type. -/
def namesType : Expr .parsed → Bool
  | .name _ _ text _ => Text.startsUpper text
  | .member n t left m => (qualifiedName (.member n t left m)).isSome && Text.startsUpper m.text
  | _ => false

def assignable : Expr .parsed → Bool
  | .name .. | .member .. | .index .. => true
  | _ => false

/-- Expressions between commas, up to `close`. The current token is the opening bracket. -/
def exprList (r : Rules) (c : Context) (close : Token.Kind) : Parse (List (Expr .parsed)) := do
  skipPeekNewlines
  if ← peekIs close then
    advance
    return []
  else
    advance
    -- The newest expression is first.
    let found ← iterate (fun found => do
      skipNewlines
      let found := (← r.expr 1 c.inside) :: found
      skipPeekNewlines
      if ← peekIs .comma then
        advance
        skipPeekNewlines
        if ← peekIs close then return .inr found
        else
          advance
          return .inl found
      else return .inr found) r.rounds []
    expectPeek close
    return found.reverse

def fieldInits (r : Rules) (c : Context) (path : List String) : Parse (List (FieldInit .parsed)) :=
  iterate (fun fields => do
    skipWhile [.newline, .comma]
    let tok ← current
    if tok.kind == .rightBrace then return .inr fields
    else if tok.kind != .ident then
      fail .unexpected tok ("expected field name in " ++ ".".intercalate path
        ++ " instantiation, got " ++ describe tok)
    else if fields.any fun f => f.name == tok.lexeme then
      fail .malformed tok ("field " ++ tok.lexeme ++ " initialized twice")
    else
      expectPeek .assign
      advance
      let value ← r.expr 2 c.inside
      advance
      return .inl (fields ++ [.mk tok tok.lexeme value])) r.rounds []

def operatorForm (r : Rules) (c : Context) (left : Expr .parsed) : Parse (Expr .parsed) := do
  let tok ← current
  match tok.kind with
  | .assign =>
    if assignable left then
      advance
      skipNewlines
      return .assign () tok left (← r.expr 1 c)
    else fail .unexpected tok "invalid assignment target"
  | .dotDot =>
    advance
    return .range () tok left (← r.expr 10 c)
  | .leftParen => return .call () tok () left (← exprList r c .rightParen)
  | .leftBracket =>
    advance
    let i ← r.expr 1 c.inside
    expectPeek .rightBracket
    return .index () tok left i
  | .dot =>
    expectPeek .ident
    return .member () tok left (← currentName)
  | .leftBrace =>
    let path := (qualifiedName left).getD []
    advance
    return .new () left.token () path (← fieldInits r c path)
  | kind =>
    match binaryOp? kind with
    | some op =>
      let level := levelOf kind
      advance
      skipNewlines
      let right ← r.expr (if op == .pow then level - 1 else level) c
      return .binary () tok op left right
    | none => failure

/-- Continues `left` with the next operator if it binds tighter than `level`, or ends with it. -/
def operatorRound (r : Rules) (level : Nat) (c : Context) (left : Expr .parsed) :
    Parse (Expr .parsed ⊕ Expr .parsed) := do
  let next := (← peek).kind
  if level < levelOf next && !(next == .leftBrace && (c.inHead || !namesType left)) then
    advance
    return .inl (← operatorForm r c left)
  else return .inr left

def operatorForms (r : Rules) (level : Nat) (c : Context) : Expr .parsed → Parse (Expr .parsed) :=
  iterate (operatorRound r level c) r.rounds

def interpolation (r : Rules) (file : String) (code : String) (line col : Int) :
    Parse (Expr .parsed) := do
  let (tokens, errors) := Token.scanAt code line (col - 1) file
  let saved ← get
  if !errors.isEmpty then
    set { saved with errors := errors.reverse ++ saved.errors }
    failure
  else
    let (e?, sub) := (r.expr 1 {}).run { tokens := tokens, errors := [] }
    let sub := if sub.errors.isEmpty && sub.peek.kind != .eof then
        { sub with errors := [.report .unexpected sub.peek
            ("unexpected " ++ describe sub.peek ++ " in interpolation")] }
      else sub
    set { saved with errors := sub.errors ++ saved.errors }
    match e? with
    | some e => if sub.errors.isEmpty then return e else failure
    | none => failure

def interpolationParts (r : Rules) (tok : Token) :
    List Token.Part → Parse (List (Expr .parsed))
  | [] => return []
  | .text v :: ps => return .string () tok v :: (← interpolationParts r tok ps)
  | .source code line col :: ps => do
    let e ← interpolation r tok.file code line col
    return e :: (← interpolationParts r tok ps)

def matchArms (r : Rules) (c : Context) : Parse (List (Arm .parsed)) :=
  iterate (fun arms => do
    skipWhile [.newline, .comma]
    let tok ← current
    if tok.kind == .rightBrace then return .inr arms
    else
      let p ← r.pattern c.inside
      expectPeek .fatArrow
      advance
      skipNewlines
      let body ← r.expr 1 c.inside
      advance
      return .inl (arms ++ [.mk tok p body])) r.rounds []

def matchForm (r : Rules) (c : Context) : Parse (Expr .parsed) := do
  let tok ← current
  advance
  let subject ← r.expr 1 c.head
  expectPeek .leftBrace
  advance
  let arms ← matchArms r c
  if arms.isEmpty then fail .malformed tok "match expression has no arms"
  else return .cases () tok subject () arms

def condForm (r : Rules) (c : Context) : Parse (Expr .parsed) := do
  let tok ← current
  advance
  let test ← r.expr 1 c.head
  expectPeek .leftBrace
  let body ← r.block c
  if (← get).kindPastNewlines != .kwElse then return .cond () tok test body none
  else
    skipPeekNewlines
    advance
    if ← peekIs .kwIf then
      advance
      return .cond () tok test body (some (← r.cond c))
    else
      expectPeek .leftBrace
      return .cond () tok test body (some (.block (← r.block c)))

def startForm (r : Rules) (c : Context) : Parse (Expr .parsed) := do
  let tok ← current
  match tok.kind with
  | .ident => return .name () tok tok.lexeme ()
  | .int | .float | .string | .char | .kwTrue | .kwFalse => literal tok
  | .interpolated =>
    let parts := match tok.literal with
      | .parts ps => ps
      | _ => []
    return .interpolated () tok (← interpolationParts r tok parts)
  | .minus => unary r c .neg
  | .bang => unary r c .not
  | .leftParen =>
    advance
    skipNewlines
    let e ← r.expr 1 c.inside
    skipPeekNewlines
    expectPeek .rightParen
    return e
  | .leftBracket => return .array () tok (← exprList r c .rightBracket)
  | .leftBrace => return .block (← r.block c)
  | .kwIf => r.cond c
  | .kwMatch => matchForm r c
  | .kwTry =>
    advance
    return .tryUnwrap () tok (← r.expr 14 c)
  | _ => fail .noExpression tok ("unexpected " ++ describe tok)

def expr (r : Rules) (level : Nat) (c : Context) : Parse (Expr .parsed) := do
  let c := { c with depth := c.depth + 1 }
  if maxDepth < c.depth then
    fail .unexpected (← current) "expression too complex: recursion depth limit exceeded"
  else
    operatorForms r level c (← startForm r c)

end Scripting.Parser
