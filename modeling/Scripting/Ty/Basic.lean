import Scripting.Fault

/-!
# Types

Types are nominal: a constructor is known by its name, which is fully qualified, and applied to
arguments. Type variables stand for the parameters of generic types and functions. `Any` is the
type of values that are only known at run time; `unknown` is the absence of a type.
-/

namespace Scripting

/-- A nominal type constructor. The number is its place in a program's type table, 0 if it has
none; two constructors are the same if their names are. -/
structure TyCon where
  name : String
  id : Nat := 0
deriving DecidableEq, Repr, Inhabited

def lastSegment (name : String) : String :=
  String.ofList (name.toList.reverse.takeWhile (· != '.')).reverse

def TyCon.simpleName (c : TyCon) : String := lastSegment c.name

/-- Types. -/
inductive Ty where
  /-- No type, or none yet. -/
  | unknown
  | var (name : String)
  | con (c : TyCon)
  | app (c : TyCon) (args : List Ty)
  /-- A function; if variadic, its last parameter takes any number of arguments. -/
  | func (params : List Ty) (result : Ty) (variadic : Bool)
  /-- The type of a type used as a value. -/
  | type (of : Ty)
deriving Inhabited, Repr

/-- The type of a function. -/
structure Signature where
  params : List Ty
  result : Ty
  variadic : Bool := false

namespace Ty

def intCon : TyCon := ⟨"Int", 1⟩
def doubleCon : TyCon := ⟨"Double", 2⟩
def stringCon : TyCon := ⟨"String", 3⟩
def boolCon : TyCon := ⟨"Bool", 4⟩
def charCon : TyCon := ⟨"Char", 5⟩
def unitCon : TyCon := ⟨"Unit", 6⟩
def anyCon : TyCon := ⟨"Any", 7⟩
def arrayCon : TyCon := ⟨"Array", 8⟩
def optionCon : TyCon := ⟨"Option", 9⟩
def resultCon : TyCon := ⟨"Result", 10⟩

def primitives : List TyCon :=
  [intCon, doubleCon, stringCon, boolCon, charCon, unitCon, anyCon]

def builtinCons : List TyCon := primitives ++ [arrayCon, optionCon, resultCon]

def int : Ty := .con intCon
def double : Ty := .con doubleCon
def string : Ty := .con stringCon
def bool : Ty := .con boolCon
def char : Ty := .con charCon
def unit : Ty := .con unitCon
def any : Ty := .con anyCon

def arrayOf (elem : Ty) : Ty := .app arrayCon [elem]
def optionOf (elem : Ty) : Ty := .app optionCon [elem]
def resultOf (value error : Ty) : Ty := .app resultCon [value, error]

def con? : Ty → Option TyCon
  | con c => some c
  | app c _ => some c
  | _ => none

def args : Ty → List Ty
  | app _ as => as
  | _ => []

def signature? : Ty → Option Signature
  | func ps r v => some ⟨ps, r, v⟩
  | _ => none

def elem? : Ty → Option Ty
  | app c [t] => if c.name == "Array" then some t else none
  | _ => none

def isNamed (name : String) : Ty → Bool
  | con c => c.name == name
  | _ => false

def isUnit (t : Ty) : Bool := t.isNamed "Unit"
def isAny (t : Ty) : Bool := t.isNamed "Any"
def isNumeric (t : Ty) : Bool := t.isNamed "Int" || t.isNamed "Double"
def isArray (t : Ty) : Bool := t.elem?.isSome

def isUnknown : Ty → Bool
  | unknown => true
  | _ => false

def orAny : Ty → Ty
  | unknown => any
  | t => t

def markLast : List String → List String
  | [] => []
  | [s] => ["..." ++ s]
  | s :: ss => s :: markLast ss

mutual

def text : Ty → String
  | unknown => "?"
  | var x => x
  | con c => c.name
  | app c as =>
    let parts := texts as
    match c.name == "Array", parts with
    | true, [elem] => elem ++ "[]"
    | _, _ => c.name ++ "<" ++ ", ".intercalate parts ++ ">"
  | func ps r v =>
    let parts := texts ps
    "(" ++ ", ".intercalate (if v then markLast parts else parts) ++ ") -> " ++ r.text
  | type t => "Type<" ++ t.text ++ ">"

def texts : List Ty → List String
  | [] => []
  | t :: ts => t.text :: texts ts

end

def listText (ts : List Ty) : String := "(" ++ ", ".intercalate (texts ts) ++ ")"

def isGapArray (c : TyCon) : List Ty → Bool
  | [unknown] => c.name == "Array"
  | _ => false

mutual

/-- Whether no part of the type is an array of an absent type, which could not be written. -/
def isWritable : Ty → Bool
  | unknown => true
  | var _ => true
  | con _ => true
  | app c as => !isGapArray c as && areWritable as
  | func ps r _ => areWritable ps && r.isWritable
  | type t => t.isWritable

def areWritable : List Ty → Bool
  | [] => true
  | t :: ts => t.isWritable && areWritable ts

end

def hasText (t : Ty) : Bool := !t.isUnknown && t.isWritable

def shown (t : Ty) : String :=
  if t.isUnknown then "%!s(<nil>)"
  else if t.hasText then t.text
  else HostFault.missing.inPlace 's'

mutual

def vars : Ty → List String
  | unknown => []
  | var x => [x]
  | con _ => []
  | app _ as => varsOfList as
  | func ps r _ => varsOfList ps ++ r.vars
  | type t => t.vars

def varsOfList : List Ty → List String
  | [] => []
  | t :: ts => t.vars ++ varsOfList ts

end

def freeVars (t : Ty) : List String := t.vars.eraseDups

mutual

/-- Whether every part of a type is there, but for the result of a function. Only such a type has
a list of variables. -/
def isWhole : Ty → Bool
  | unknown => false
  | var _ => true
  | con _ => true
  | app _ as => areWhole as
  | func ps r _ => areWhole ps && (r.isUnknown || r.isWhole)
  | type t => t.isWhole

def areWhole : List Ty → Bool
  | [] => true
  | t :: ts => t.isWhole && areWhole ts

end

mutual

def mapVars (f : String → Ty) : Ty → Ty
  | unknown => unknown
  | var x => f x
  | con c => con c
  | app c as => app c (mapVarsList f as)
  | func ps r v => func (mapVarsList f ps) (r.mapVars f) v
  | type t => type (t.mapVars f)

def mapVarsList (f : String → Ty) : List Ty → List Ty
  | [] => []
  | t :: ts => t.mapVars f :: mapVarsList f ts

end

end Ty

def Signature.text (s : Signature) : String := (Ty.func s.params s.result s.variadic).text

abbrev Subst := List (String × Ty)

namespace Subst

/-- Substitutes into a type, and again into what was put in, but never for a variable inside its
own replacement. `n` bounds how often replacements nest; the number of entries is enough. -/
def applyUpTo (s : Subst) : Nat → List String → Ty → Ty
  | 0, _, t => t
  | n + 1, inside, t =>
    t.mapVars fun x =>
      if inside.contains x then .var x
      else match s.lookup x with
        | none => .var x
        | some r => s.applyUpTo n (x :: inside) r

def apply (s : Subst) (t : Ty) : Ty := s.applyUpTo s.length [] t

def text (s : Subst) : String :=
  let entries := s.mergeSort fun a b => a.1 ≤ b.1
  "\x7b" ++ ", ".intercalate (entries.map fun (x, t) => x ++ " := " ++ t.text) ++ "\x7d"

def text? (s : Subst) : Option String :=
  if s.all fun e => e.2.isWritable then some s.text else none

end Subst

namespace Ty

def close (t : Ty) : Ty := t.orAny.mapVars fun _ => any

end Ty

end Scripting
