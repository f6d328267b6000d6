import Scripting.Syntax.Basic
import Scripting.Text.Quoted
import Scripting.Decimal.Notation

/-!
# Printing trees

A tree prints in a canonical layout: one statement a line, four blanks of indentation for each
block, parentheses only where the precedence of an operand asks for them. A `Style` says how names
appear, so the same printer shows a tree with or without its slots.
-/

namespace Scripting

/-- How the names of a tree are written. -/
structure Style (P : Phase) where
  /-- A name that is read. -/
  read : String → P.Ref → String
  /-- A name that is declared. -/
  declared : String → P.Decl → String
  /-- The variable of a loop. -/
  loopVariable : String → P.Loop → String
  /-- The name of a function. -/
  function : String → P.Fun → String
  /-- The receiver parameter of a method. -/
  receiver : P.Fun → String
  /-- What stands before the subject of a match. -/
  subject : P.Decl → String
  /-- The name of a method that a call through a receiver was settled to. -/
  method : P.Call → Option String

def Style.plain : Style Phase.parsed where
  read name _ := name
  declared name _ := name
  loopVariable name _ := name
  function name _ := name
  receiver _ := "self"
  subject _ := ""
  method _ := none

/-- How tightly an operator binds when printed; operands that bind looser get parentheses. -/
def BinaryOp.printLevel : BinaryOp → Nat
  | pipe => 1
  | or => 2
  | and => 3
  | eq | ne => 4
  | lt | gt | le | ge => 5
  | bitAnd | bitXor => 6
  | shiftLeft | shiftRight => 7
  | add | sub => 9
  | mul | div | mod => 10
  | pow => 11

namespace Printer

def escapeBraces (s : String) : String :=
  String.ofList (s.toList.flatMap fun c => if c == '\x7b' || c == '\x7d' then ['\\', c] else [c])

def stringLiteral (s : String) : String := escapeBraces (Text.quoted s)

/-- Literal text inside an interpolated string: the literal without its quotes. -/
def segment (s : String) : String :=
  String.ofList ((stringLiteral s).toList.drop 1 |>.dropLast)

def lineStart (depth : Nat) : String :=
  "\n" ++ String.ofList (List.replicate (4 * depth) ' ')

/-- Field declarations; a variant's positional fields are written without their made-up names. -/
def fieldList (positional : Bool) (fields : List FieldDecl) : String :=
  ", ".intercalate <| fields.map fun f =>
    if positional && f.name.startsWith "item" then f.type.text else f.name ++ ": " ++ f.type.text

def variantText (v : VariantDecl) : String :=
  if v.fields.isEmpty then v.name else v.name ++ "(" ++ fieldList true v.fields ++ ")"

def typeSuffix : Option TypeExpr → String
  | none => ""
  | some t => ": " ++ t.text

def paramList {P : Phase} (st : Style P) (info : P.Fun) (hasSelf : Bool) (params : List (Param P)) :
    String :=
  let named := params.map fun p => st.declared p.name.text p.decl ++ typeSuffix p.type
  ", ".intercalate (if hasSelf then st.receiver info :: named else named)

def parens (needed : Bool) (s : String) : String :=
  if needed then "(" ++ s ++ ")" else s

variable {P : Phase} (st : Style P)

mutual

/-- An expression under `depth` blocks, where operands that bind looser than `level` get
parentheses. A call of a settled method is written with the method's full name. -/
def exprText (depth level : Nat) : Expr P → String
  | .name _ _ text ref => st.read text ref
  | .int _ _ v => toString v.toInt
  | .float _ _ v => Decimal.ofFloatPointed v
  | .string _ _ v => stringLiteral v
  | .char _ _ v => Text.quotedChar v
  | .bool _ _ v => if v then "true" else "false"
  | .interpolated _ _ parts => "\"" ++ partsText depth parts ++ "\""
  | .array _ _ elems => "[" ++ ", ".intercalate (exprTexts depth elems) ++ "]"
  | .unary _ _ op r => op.symbol ++ exprText depth 12 r
  | .binary _ _ op l r =>
    parens (op.printLevel < level)
      (exprText depth op.printLevel l ++ " " ++ op.symbol ++ " "
        ++ exprText depth (op.printLevel + 1) r)
  | .assign _ _ target value =>
    parens (0 < level) (exprText depth 1 target ++ " = " ++ exprText depth 0 value)
  | .range _ _ a b => exprText depth 9 a ++ ".." ++ exprText depth 9 b
  | .call _ _ info callee args =>
    (match st.method info with
      | some method => methodText depth method callee
      | none => exprText depth 13 callee)
      ++ "(" ++ ", ".intercalate (exprTexts depth args) ++ ")"
  | .member _ _ l m => exprText depth 13 l ++ "." ++ m.text
  | .index _ _ l i => exprText depth 13 l ++ "[" ++ exprText depth 0 i ++ "]"
  | .new _ _ _ path fields =>
    ".".intercalate path ++ " \x7b " ++ ", ".intercalate (initTexts depth fields) ++ " \x7d"
  | .tryUnwrap _ _ v => "try " ++ exprText depth 13 v
  | .block b => blockText depth b
  | .cond _ _ test body alt =>
    "if " ++ exprText depth 0 test ++ " " ++ blockText depth body ++ elseText depth alt
  | .cases _ _ subject decl arms =>
    "match " ++ st.subject decl ++ exprText depth 0 subject ++ " \x7b"
      ++ armsText (depth + 1) arms ++ lineStart depth ++ "\x7d"

def methodText (depth : Nat) (method : String) : Expr P → String
  | .member _ _ l _ => exprText depth 13 l ++ "." ++ method
  | _ => method

def exprTexts (depth : Nat) : List (Expr P) → List String
  | [] => []
  | e :: es => exprText depth 0 e :: exprTexts depth es

def partsText (depth : Nat) : List (Expr P) → String
  | [] => ""
  | e :: es =>
    (match e.stringValue? with
      | some v => segment v
      | none => "\x7b" ++ exprText depth 0 e ++ "\x7d")
      ++ partsText depth es

def elseText (depth : Nat) : Option (Expr P) → String
  | none => ""
  | some e => " else " ++ exprText depth 0 e

def initTexts (depth : Nat) : List (FieldInit P) → List String
  | [] => []
  | .mk _ name v :: fs => (name ++ " = " ++ exprText depth 1 v) :: initTexts depth fs

def armsText (depth : Nat) : List (Arm P) → String
  | [] => ""
  | .mk _ p b :: arms =>
    lineStart depth ++ patternText depth p ++ " => " ++ exprText depth 0 b ++ armsText depth arms

def patternText (depth : Nat) : Pattern P → String
  | .wildcard _ => "_"
  | .literal _ v => exprText depth 0 v
  | .bind n d => st.declared n.text d
  | .ctor _ _ path args =>
    ".".intercalate path
      ++ (if args.isEmpty then "" else "(" ++ ", ".intercalate (patternTexts depth args) ++ ")")

def patternTexts (depth : Nat) : List (Pattern P) → List String
  | [] => []
  | p :: ps => patternText depth p :: patternTexts depth ps

def blockText (depth : Nat) : Block P → String
  | .mk _ _ [] _ => "\x7b\x7d"
  | .mk _ _ (s :: ss) _ => "\x7b" ++ linesText (depth + 1) (s :: ss) ++ lineStart depth ++ "\x7d"

def linesText (depth : Nat) : List (Stmt P) → String
  | [] => ""
  | s :: ss => lineStart depth ++ stmtText depth s ++ linesText depth ss

def funText (depth : Nat) : FunDecl P → String
  | .mk _ name info hasSelf params result body =>
    "fun " ++ st.function name.text info ++ "(" ++ paramList st info hasSelf params ++ ")"
      ++ typeSuffix result ++ " " ++ blockText depth body

def methodsText (depth : Nat) : List (FunDecl P) → String
  | [] => ""
  | f :: fs => lineStart depth ++ funText depth f ++ methodsText depth fs

def returnText (depth : Nat) : Option (Expr P) → String
  | none => "return"
  | some e => "return " ++ exprText depth 0 e

def stmtText (depth : Nat) : Stmt P → String
  | .bind _ name decl type value =>
    "let " ++ st.declared name.text decl ++ typeSuffix type ++ " = " ++ exprText depth 0 value
  | .expr _ e => exprText depth 0 e
  | .block b => blockText depth b
  | .ret _ v => returnText depth v
  | .loop _ test body => "while " ++ exprText depth 0 test ++ " " ++ blockText depth body
  | .each _ name info series body =>
    "for " ++ st.loopVariable name.text info ++ " in " ++ exprText depth 0 series ++ " "
      ++ blockText depth body
  | .leave _ => "break"
  | .next _ => "continue"
  | .func d => funText depth d
  | .record _ name fields =>
    "type " ++ name.text ++ " \x7b " ++ fieldList false fields ++ " \x7d"
  | .union _ name variants =>
    "union " ++ name.text ++ " \x7b " ++ ", ".intercalate (variants.map variantText) ++ " \x7d"
  | .impl _ name methods =>
    "impl " ++ name.text ++ " \x7b" ++ methodsText (depth + 1) methods ++ lineStart depth ++ "\x7d"
  | .use _ path => "use " ++ ".".intercalate path

end

end Printer

def Source.text {P : Phase} (st : Style P) (s : Source P) : String :=
  String.join (s.stmts.map fun stmt => Printer.stmtText st 0 stmt ++ "\n")

end Scripting
