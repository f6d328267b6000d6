import Scripting.Token

/-!
# The syntax tree

One family of trees serves every stage. A `Phase` says what the nodes of a stage carry beside their
shape: nothing after parsing, slots after name resolution, slots and types after type checking. So a
stage cannot meet a node that an earlier one should have settled.

Every node keeps the token it is reported at.
-/

namespace Scripting

/-- What the nodes of a tree carry beside its shape. -/
structure Phase where
  /-- At a name that is read. -/
  Ref : Type
  /-- At a name that is declared. -/
  Decl : Type
  /-- At an expression. -/
  Note : Type
  /-- At a call. -/
  Call : Type
  /-- At a `for` loop. -/
  Loop : Type
  /-- At a constructor pattern. -/
  Ctor : Type
  /-- At an instantiation. -/
  New : Type
  /-- At a function declaration. -/
  Fun : Type

abbrev Phase.parsed : Phase :=
  ⟨Unit, Unit, Unit, Unit, Unit, Unit, Unit, Unit⟩

/-- A name at a place in the source. -/
structure Name where
  token : Token
  text : String

/-- A type annotation. -/
inductive TypeExpr where
  /-- A possibly qualified name with type arguments. -/
  | named (token : Token) (path : List String) (args : List TypeExpr)
  | array (token : Token) (elem : TypeExpr)

namespace TypeExpr

def token : TypeExpr → Token
  | named tok _ _ => tok
  | array tok _ => tok

mutual

def text : TypeExpr → String
  | named _ path args =>
    let name := ".".intercalate path
    if args.isEmpty then name else name ++ "<" ++ ", ".intercalate (texts args) ++ ">"
  | array _ elem => elem.text ++ "[]"

def texts : List TypeExpr → List String
  | [] => []
  | t :: ts => t.text :: texts ts

end

end TypeExpr

/-- Unary operators. -/
inductive UnaryOp where
  | neg | not
deriving DecidableEq, Repr

def UnaryOp.symbol : UnaryOp → String
  | neg => "-"
  | not => "!"

/-- Binary operators. -/
inductive BinaryOp where
  | pipe | or | and | eq | ne | lt | gt | le | ge | bitAnd | bitXor | shiftLeft | shiftRight
  | add | sub | mul | div | mod | pow
deriving DecidableEq, Repr

def BinaryOp.symbol : BinaryOp → String
  | pipe => "|" | or => "||" | and => "&&" | eq => "==" | ne => "!="
  | lt => "<" | gt => ">" | le => "<=" | ge => ">="
  | bitAnd => "&" | bitXor => "^" | shiftLeft => "<<" | shiftRight => ">>"
  | add => "+" | sub => "-" | mul => "*" | div => "/" | mod => "%" | pow => "**"

/-- A field of a record or variant. -/
structure FieldDecl where
  token : Token
  name : String
  type : TypeExpr

/-- A variant of a union. -/
structure VariantDecl where
  token : Token
  name : String
  fields : List FieldDecl

/-- A parameter of a function. -/
structure Param (P : Phase) where
  name : Name
  decl : P.Decl
  type : Option TypeExpr

mutual

/-- Expressions. -/
inductive Expr (P : Phase) : Type where
  | name (note : P.Note) (token : Token) (text : String) (ref : P.Ref)
  | int (note : P.Note) (token : Token) (value : Int64)
  | float (note : P.Note) (token : Token) (value : Float)
  | string (note : P.Note) (token : Token) (value : String)
  | char (note : P.Note) (token : Token) (value : Char)
  | bool (note : P.Note) (token : Token) (value : Bool)
  | interpolated (note : P.Note) (token : Token) (parts : List (Expr P))
  | array (note : P.Note) (token : Token) (elems : List (Expr P))
  | unary (note : P.Note) (token : Token) (op : UnaryOp) (right : Expr P)
  | binary (note : P.Note) (token : Token) (op : BinaryOp) (left right : Expr P)
  | assign (note : P.Note) (token : Token) (target value : Expr P)
  | call (note : P.Note) (token : Token) (info : P.Call) (callee : Expr P) (args : List (Expr P))
  | member (note : P.Note) (token : Token) (left : Expr P) (field : Name)
  | index (note : P.Note) (token : Token) (left index : Expr P)
  /-- An instantiation of a record type, named by its path. -/
  | new (note : P.Note) (token : Token) (info : P.New) (path : List String)
      (fields : List (FieldInit P))
  | tryUnwrap (note : P.Note) (token : Token) (value : Expr P)
  | range (note : P.Note) (token : Token) (start stop : Expr P)
  | block (body : Block P)
  /-- A conditional; the alternative is a block or another conditional. -/
  | cond (note : P.Note) (token : Token) (test : Expr P) (body : Block P) (alt : Option (Expr P))
  /-- A match; its subject is kept in a binding of its own. -/
  | cases (note : P.Note) (token : Token) (subject : Expr P) (decl : P.Decl) (arms : List (Arm P))

/-- Statements in braces. -/
inductive Block (P : Phase) : Type where
  | mk (note : P.Note) (token : Token) (stmts : List (Stmt P)) (close : Token)

/-- One `field = value` of an instantiation. -/
inductive FieldInit (P : Phase) : Type where
  | mk (token : Token) (name : String) (value : Expr P)

/-- One arm of a match. -/
inductive Arm (P : Phase) : Type where
  | mk (token : Token) (pattern : Pattern P) (body : Expr P)

/-- Patterns. -/
inductive Pattern (P : Phase) : Type where
  | wildcard (token : Token)
  | literal (token : Token) (value : Expr P)
  | bind (name : Name) (decl : P.Decl)
  /-- A variant or type name with positional sub-patterns. -/
  | ctor (token : Token) (info : P.Ctor) (path : List String) (args : List (Pattern P))

/-- A function, at top level, nested, or in an `impl` block, where it may take `self`. -/
inductive FunDecl (P : Phase) : Type where
  | mk (token : Token) (name : Name) (info : P.Fun) (hasSelf : Bool) (params : List (Param P))
      (result : Option TypeExpr) (body : Block P)

/-- Statements. -/
inductive Stmt (P : Phase) : Type where
  | expr (token : Token) (value : Expr P)
  | block (body : Block P)
  | bind (token : Token) (name : Name) (decl : P.Decl) (type : Option TypeExpr) (value : Expr P)
  | ret (token : Token) (value : Option (Expr P))
  | loop (token : Token) (test : Expr P) (body : Block P)
  | each (token : Token) (name : Name) (info : P.Loop) (series : Expr P) (body : Block P)
  | leave (token : Token)
  | next (token : Token)
  | func (decl : FunDecl P)
  | record (token : Token) (name : Name) (fields : List FieldDecl)
  | union (token : Token) (name : Name) (variants : List VariantDecl)
  | impl (token : Token) (name : Name) (methods : List (FunDecl P))
  | use (token : Token) (path : List String)

end

namespace Block

variable {P : Phase}

def note : Block P → P.Note | mk n _ _ _ => n
def token : Block P → Token | mk _ t _ _ => t
def stmts : Block P → List (Stmt P) | mk _ _ ss _ => ss
def close : Block P → Token | mk _ _ _ c => c

/-- The expression of a final expression statement, which gives a block its value. -/
def trailing (b : Block P) : Option (Expr P) :=
  match b.stmts.getLast? with
  | some (.expr _ e) => some e
  | _ => none

end Block

namespace FieldInit

variable {P : Phase}

def token : FieldInit P → Token | mk t _ _ => t
def name : FieldInit P → String | mk _ n _ => n
def value : FieldInit P → Expr P | mk _ _ v => v

end FieldInit

namespace Arm

variable {P : Phase}

def token : Arm P → Token | mk t _ _ => t
def pattern : Arm P → Pattern P | mk _ p _ => p
def body : Arm P → Expr P | mk _ _ b => b

end Arm

namespace Pattern

variable {P : Phase}

def token : Pattern P → Token
  | wildcard t => t
  | literal t _ => t
  | bind n _ => n.token
  | ctor t _ _ _ => t

end Pattern

namespace FunDecl

variable {P : Phase}

def token : FunDecl P → Token | mk t _ _ _ _ _ _ => t
def name : FunDecl P → Name | mk _ n _ _ _ _ _ => n
def info : FunDecl P → P.Fun | mk _ _ i _ _ _ _ => i
def hasSelf : FunDecl P → Bool | mk _ _ _ s _ _ _ => s
def params : FunDecl P → List (Param P) | mk _ _ _ _ ps _ _ => ps
def result : FunDecl P → Option TypeExpr | mk _ _ _ _ _ r _ => r
def body : FunDecl P → Block P | mk _ _ _ _ _ _ b => b

end FunDecl

namespace Expr

variable {P : Phase}

/-- The token an expression is reported at: operators and calls at their own token. -/
def token : Expr P → Token
  | name _ t _ _ | int _ t _ | float _ t _ | string _ t _ | char _ t _ | bool _ t _ => t
  | interpolated _ t _ | array _ t _ | unary _ t _ _ | binary _ t _ _ _ | assign _ t _ _ => t
  | call _ t _ _ _ | member _ t _ _ | index _ t _ _ | new _ t _ _ _ | tryUnwrap _ t _ => t
  | range _ t _ _ | cond _ t _ _ _ | cases _ t _ _ _ => t
  | block b => b.token

def note : Expr P → P.Note
  | name n _ _ _ | int n _ _ | float n _ _ | string n _ _ | char n _ _ | bool n _ _ => n
  | interpolated n _ _ | array n _ _ | unary n _ _ _ | binary n _ _ _ _ | assign n _ _ _ => n
  | call n _ _ _ _ | member n _ _ _ | index n _ _ _ | new n _ _ _ _ | tryUnwrap n _ _ => n
  | range n _ _ _ | cond n _ _ _ _ | cases n _ _ _ _ => n
  | block b => b.note

/-- The value of a string literal. In an interpolated string such parts are literal text. -/
def stringValue? : Expr P → Option String
  | string _ _ v => some v
  | _ => none

def rangeBounds? : Expr P → Option (Expr P × Expr P)
  | range _ _ a b => some (a, b)
  | _ => none

end Expr

namespace Stmt

variable {P : Phase}

def token : Stmt P → Token
  | expr t _ | bind t _ _ _ _ | ret t _ | loop t _ _ | each t _ _ _ _ | leave t | next t => t
  | record t _ _ | union t _ _ | impl t _ _ | use t _ => t
  | block b => b.token
  | func d => d.token

end Stmt

/-- A batch of top-level statements. -/
structure Source (P : Phase) where
  file : String
  stmts : List (Stmt P)

def Source.token {P : Phase} (s : Source P) : Token :=
  match s.stmts with
  | [] => { Token.blank with file := s.file }
  | st :: _ => st.token

end Scripting
