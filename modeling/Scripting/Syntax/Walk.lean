import Scripting.Syntax.Basic

/-!
# Nodes in source order

`Source.nodes` lists the nodes of a tree, each before its children and the children from left to
right. Type annotations and the fields of type declarations are not nodes; declared names are.
-/

namespace Scripting

/-- A node of a tree. -/
inductive Node (P : Phase) : Type where
  | source (value : Source P)
  | stmt (value : Stmt P)
  | func (value : FunDecl P)
  | block (value : Block P)
  | expr (value : Expr P)
  | pattern (value : Pattern P)
  | name (value : Name)

namespace Node

variable {P : Phase}

def token : Node P → Token
  | source s => s.token
  | stmt s => s.token
  | func d => d.token
  | block b => b.token
  | expr e => e.token
  | pattern p => p.token
  | name n => n.token

def stmtKind : Stmt P → String
  | .expr .. => "ExpressionStatement"
  | .block _ => "BlockStatement"
  | .bind .. => "LetStatement"
  | .ret .. => "ReturnStatement"
  | .loop .. => "WhileStatement"
  | .each .. => "ForStatement"
  | .leave _ => "BreakStatement"
  | .next _ => "ContinueStatement"
  | .func _ => "FunctionStatement"
  | .record .. => "TypeStatement"
  | .union .. => "UnionStatement"
  | .impl .. => "ImplStatement"
  | .use .. => "UseStatement"

def exprKind (read : String) : Expr P → String
  | .name .. => read
  | .int .. => "IntegerLiteral"
  | .float .. => "FloatLiteral"
  | .string .. => "StringLiteral"
  | .char .. => "CharLiteral"
  | .bool .. => "BooleanLiteral"
  | .interpolated .. => "InterpolatedString"
  | .array .. => "ArrayLiteral"
  | .unary .. => "PrefixExpression"
  | .binary .. => "InfixExpression"
  | .assign .. => "AssignExpression"
  | .call .. => "CallExpression"
  | .member .. => "MemberExpression"
  | .index .. => "IndexExpression"
  | .new .. => "NewExpression"
  | .tryUnwrap .. => "TryExpression"
  | .range .. => "RangeExpression"
  | .block _ => "BlockStatement"
  | .cond .. => "IfExpression"
  | .cases .. => "MatchExpression"

def patternKind : Pattern P → String
  | .wildcard _ => "WildcardPattern"
  | .literal .. => "LiteralPattern"
  | .bind .. => "BindingPattern"
  | .ctor .. => "ConstructorPattern"

/-- The name of the kind of a node, for tools that list trees; `read` is that of a name that is
read. -/
def kindName (read : String) : Node P → String
  | .source _ => "Program"
  | .stmt s => stmtKind s
  | .func _ => "FunctionStatement"
  | .block _ => "BlockStatement"
  | .expr e => exprKind read e
  | .pattern p => patternKind p
  | .name _ => "Identifier"

/-! Each walk puts the nodes of its tree in front of the nodes `rest` that follow. -/

mutual

def walkExpr (rest : List (Node P)) : Expr P → List (Node P)
  | .block b => walkBlock rest b
  | .interpolated n t parts => .expr (.interpolated n t parts) :: walkExprs rest parts
  | .array n t elems => .expr (.array n t elems) :: walkExprs rest elems
  | .unary n t op r => .expr (.unary n t op r) :: walkExpr rest r
  | .binary n t op l r => .expr (.binary n t op l r) :: walkExpr (walkExpr rest r) l
  | .assign n t l r => .expr (.assign n t l r) :: walkExpr (walkExpr rest r) l
  | .call n t i f args => .expr (.call n t i f args) :: walkExpr (walkExprs rest args) f
  | .member n t l m => .expr (.member n t l m) :: walkExpr (.name m :: rest) l
  | .index n t l i => .expr (.index n t l i) :: walkExpr (walkExpr rest i) l
  | .new n t i path fields => .expr (.new n t i path fields) :: walkInits rest fields
  | .tryUnwrap n t v => .expr (.tryUnwrap n t v) :: walkExpr rest v
  | .range n t a b => .expr (.range n t a b) :: walkExpr (walkExpr rest b) a
  | .cond n t test body alt =>
    .expr (.cond n t test body alt) :: walkExpr (walkBlock (walkOption rest alt) body) test
  | .cases n t s d arms => .expr (.cases n t s d arms) :: walkExpr (walkArms rest arms) s
  | .name n t s r => .expr (.name n t s r) :: rest
  | .int n t v => .expr (.int n t v) :: rest
  | .float n t v => .expr (.float n t v) :: rest
  | .string n t v => .expr (.string n t v) :: rest
  | .char n t v => .expr (.char n t v) :: rest
  | .bool n t v => .expr (.bool n t v) :: rest

def walkExprs (rest : List (Node P)) : List (Expr P) → List (Node P)
  | [] => rest
  | e :: es => walkExpr (walkExprs rest es) e

def walkOption (rest : List (Node P)) : Option (Expr P) → List (Node P)
  | none => rest
  | some e => walkExpr rest e

def walkInits (rest : List (Node P)) : List (FieldInit P) → List (Node P)
  | [] => rest
  | .mk _ _ v :: fs => walkExpr (walkInits rest fs) v

def walkArms (rest : List (Node P)) : List (Arm P) → List (Node P)
  | [] => rest
  | .mk _ p b :: arms => walkPattern (walkExpr (walkArms rest arms) b) p

def walkPattern (rest : List (Node P)) : Pattern P → List (Node P)
  | .wildcard t => .pattern (.wildcard t) :: rest
  | .literal t v => .pattern (.literal t v) :: walkExpr rest v
  | .bind n d => .pattern (.bind n d) :: .name n :: rest
  | .ctor t i path args => .pattern (.ctor t i path args) :: walkPatterns rest args

def walkPatterns (rest : List (Node P)) : List (Pattern P) → List (Node P)
  | [] => rest
  | p :: ps => walkPattern (walkPatterns rest ps) p

def walkBlock (rest : List (Node P)) : Block P → List (Node P)
  | .mk n t stmts close => .block (.mk n t stmts close) :: walkStmts rest stmts

def walkFun (rest : List (Node P)) : FunDecl P → List (Node P)
  | .mk t nm i s params r body =>
    .func (.mk t nm i s params r body) :: .name nm
      :: (params.map fun p => Node.name p.name) ++ walkBlock rest body

def walkFuns (rest : List (Node P)) : List (FunDecl P) → List (Node P)
  | [] => rest
  | f :: fs => walkFun (walkFuns rest fs) f

def walkStmts (rest : List (Node P)) : List (Stmt P) → List (Node P)
  | [] => rest
  | s :: ss => walkStmt (walkStmts rest ss) s

def walkStmt (rest : List (Node P)) : Stmt P → List (Node P)
  | .block b => walkBlock rest b
  | .func d => walkFun rest d
  | .expr t v => .stmt (.expr t v) :: walkExpr rest v
  | .bind t nm d ty v => .stmt (.bind t nm d ty v) :: .name nm :: walkExpr rest v
  | .ret t v => .stmt (.ret t v) :: walkOption rest v
  | .loop t test body => .stmt (.loop t test body) :: walkExpr (walkBlock rest body) test
  | .each t nm i series body =>
    .stmt (.each t nm i series body) :: .name nm :: walkExpr (walkBlock rest body) series
  | .leave t => .stmt (.leave t) :: rest
  | .next t => .stmt (.next t) :: rest
  | .record t nm fields => .stmt (.record t nm fields) :: .name nm :: rest
  | .union t nm variants => .stmt (.union t nm variants) :: .name nm :: rest
  | .impl t nm methods => .stmt (.impl t nm methods) :: .name nm :: walkFuns rest methods
  | .use t path => .stmt (.use t path) :: rest

end

end Node

def Source.nodes {P : Phase} (s : Source P) : List (Node P) :=
  .source s :: Node.walkStmts [] s.stmts

end Scripting
