import Scripting.Library.Manifest
import Scripting.Text.CharClass

/-!
# Manifests of Go packages

A host written in Go can offer a package to scripts. `GoPackage` is the outline of such a package, and
`GoPackage.manifest?` declares its exported functions and types as a module. Nothing is known about the
implementations but their keys.
-/

namespace Scripting

/-- Kinds of basic types. -/
inductive GoBasic where
  | bool
  | int
  | float
  | string
  | other
deriving DecidableEq, Repr

/-- A type as a package writes it. -/
inductive GoType where
  | basic (kind : GoBasic)
  /-- The type of failures. -/
  | error
  | pointer (elem : GoType)
  | slice (elem : GoType)
  | array (elem : GoType)
  | param (name : String)
  /-- A type of the package itself. -/
  | named (name : String) (args : List GoType)
  /-- Every other type: those of other packages, maps, channels, functions, and types without a
  name. -/
  | other

namespace GoBasic

def scriptType : GoBasic → String
  | bool => "Bool"
  | int => "Int"
  | float => "Double"
  | string => "String"
  | other => "Any"

def intNames : List String :=
  ["int", "int8", "int16", "int32", "int64", "uint", "uint8", "uint16", "uint32", "uint64", "uintptr",
    "byte", "rune"]

end GoBasic

def GoType.ofName? (name : String) : Option GoType :=
  if GoBasic.intNames.contains name then some (.basic .int)
  else match name with
    | "bool" => some (.basic .bool)
    | "float32" | "float64" => some (.basic .float)
    | "string" => some (.basic .string)
    | "complex64" | "complex128" | "unsafe.Pointer" => some (.basic .other)
    | "error" => some .error
    | "any" | "comparable" => some .other
    | _ => none

/-- A function or method of a package. -/
structure GoFunc where
  name : String
  typeParams : List String := []
  params : List GoType := []
  results : List GoType := []
  variadic : Bool := false

/-- Whether a function that is variadic ends with a parameter that can take many arguments. -/
def GoFunc.takesMany (f : GoFunc) : Bool :=
  !f.variadic || match f.params.getLast? with
    | some (.slice _) => true
    | some (.basic .string) => true
    | _ => false

/-- What a type declaration declares. -/
inductive GoTypeDecl.Kind where
  | struct
  | interface
  /-- Another name of a type. -/
  | alias (of : GoType)
  /-- A new type that is made like another. -/
  | defined (of : GoType)

/-- A type declaration of a package. -/
structure GoTypeDecl where
  name : String
  kind : GoTypeDecl.Kind
  typeParams : List String := []
  methods : List GoFunc := []

/-- The outline of a package. -/
structure GoPackage where
  name : String
  path : String
  types : List GoTypeDecl := []
  funcs : List GoFunc := []

/-- What a type is made of, as far as it matters. -/
inductive GoShape where
  | basic (kind : GoBasic)
  | struct
  | interface
  | other
deriving DecidableEq, Repr

namespace GoPackage

variable (p : GoPackage)

def decl? (name : String) : Option GoTypeDecl := p.types.find? fun d => d.name == name

def shapeWithin : (fuel : Nat) → GoType → GoShape
  | _, .basic k => .basic k
  | _, .error => .interface
  | 0, _ => .other
  | fuel + 1, .named name _ =>
    match p.decl? name with
    | none => .other
    | some d =>
      match d.kind with
      | .struct => .struct
      | .interface => .interface
      | .alias t => shapeWithin fuel t
      | .defined t => shapeWithin fuel t
  | _, _ => .other

def shape (t : GoType) : GoShape := p.shapeWithin p.types.length t

def declShape (d : GoTypeDecl) : GoShape := p.shape (.named d.name [])

def replacement : Char := '\ufffd'

/-- The first character of a capitalized name. Only its first byte is taken for a letter, so a
character of several bytes falls apart, and each of them is replaced. -/
def capital (c : Char) : List Char :=
  if c.utf8Size = 1 then [c.toUpper] else List.replicate c.utf8Size replacement

def capitalized (s : String) : String :=
  match s.toList with
  | [] => ""
  | c :: cs => String.ofList (capital c ++ cs)

def module : String := "Go." ++ capitalized p.name

def typeName (name : String) : String := p.module ++ "." ++ name

def key (parts : List String) : String := "go:" ++ p.path ++ "." ++ ".".intercalate parts

mutual

/-- The script type that stands for a type. A type that scripts cannot name is any value. -/
def scriptType : GoType → String
  | .basic k => k.scriptType
  | .error => "String"
  | .pointer t => scriptType t
  | .slice t => scriptType t ++ "[]"
  | .array t => scriptType t ++ "[]"
  | .param name => name
  | .named name args =>
    match p.decl? name with
    | none => "Any"
    | some d =>
      match d.kind, Text.startsUpper name with
      | .alias _, _ => "Any"
      | _, false => "Any"
      | _, true =>
        match p.declShape d with
        | .basic k => k.scriptType
        | _ =>
          if args.isEmpty then p.typeName name
          else p.typeName name ++ "<" ++ ", ".intercalate (scriptTypes args) ++ ">"
  | .other => "Any"

def scriptTypes : List GoType → List String
  | [] => []
  | t :: ts => scriptType t :: scriptTypes ts

end

def isErrorWithin : (fuel : Nat) → GoType → Bool
  | _, .error => true
  | fuel + 1, .named name _ =>
    match (p.decl? name).map GoTypeDecl.kind with
    | some (.alias t) => isErrorWithin fuel t
    | _ => false
  | _, _ => false

def isError (t : GoType) : Bool := p.isErrorWithin p.types.length t

/-- The result of a function. A failure at the end is not a result, and more than one is any value. -/
def result (ts : List GoType) : String :=
  match if (ts.getLast?.map p.isError).getD false then ts.dropLast else ts with
  | [] => "Unit"
  | [t] => p.scriptType t
  | _ => "Any"

def element : GoType → GoType
  | .slice t => t
  | t => t

def callerParams (f : GoFunc) : List GoType :=
  match f.variadic, f.params.getLast? with
  | true, some t => f.params.dropLast ++ [element t]
  | _, _ => f.params

def func (isStatic : Bool) (owner : List String) (f : GoFunc) : Manifest.Func where
  name := f.name
  typeParams := f.typeParams
  params := p.scriptTypes (callerParams f)
  returns := p.result f.results
  isStatic := isStatic
  variadic := f.variadic
  impl := p.key (owner ++ [f.name])

/-- Leaves out what has a name that came before, and what is not exported, and sorts by name. -/
def exported {α : Type} (name : α → String) (xs : List α) : List α :=
  let firsts := xs.foldl (fun seen x => if seen.any fun y => name y == name x then seen else seen ++ [x]) []
  (firsts.filter fun x => Text.startsUpper (name x)).mergeSort fun a b => name a ≤ name b

/-- The declaration of a type. Only structures and interfaces are declared, and interfaces without
methods. -/
def typeDecl? (d : GoTypeDecl) : Option Manifest.TypeDecl :=
  match d.kind, p.declShape d with
  | .alias _, _ => none
  | _, .struct =>
    some { name := p.typeName d.name, typeParams := d.typeParams
           methods := (exported GoFunc.name d.methods).map (p.func false [d.name]) }
  | _, .interface => some { name := p.typeName d.name, typeParams := d.typeParams }
  | _, _ => none

def visibleFuncs : List GoFunc :=
  p.funcs.filter fun f => (p.decl? f.name).isNone

def moduleDecl : Manifest.Module where
  name := p.module
  types :=
    { name := p.module, isStatic := true
      methods := (exported GoFunc.name p.visibleFuncs).map (p.func true []) }
      :: (exported GoTypeDecl.name p.types).filterMap p.typeDecl?

mutual

def declares : GoType → Bool
  | .pointer t => declares t
  | .slice t => declares t
  | .array t => declares t
  | .named name args => (p.decl? name).isSome && declaresAll args
  | _ => true

def declaresAll : List GoType → Bool
  | [] => true
  | t :: ts => declares t && declaresAll ts

end

def accepts (f : GoFunc) : Bool :=
  f.takesMany && p.declaresAll f.params && p.declaresAll f.results

/-- Whether every function of the package is one that a compiler would accept. -/
def isWhole : Bool :=
  p.funcs.all p.accepts && p.types.all fun d => d.methods.all p.accepts

def manifest? : Option Manifest :=
  if p.isWhole then some { modules := [p.moduleDecl.withDefaults] } else none

end GoPackage

end Scripting
