import Scripting.Program.Basic
import Scripting.Syntax.Basic
import Scripting.Diagnostic
import Scripting.Ty.Relations

/-!
# Looking up types

A qualified type name means the type with that name; a simple name means the only type whose last
segment it is.
-/

namespace Scripting

/-- A simple name that several types have. -/
structure AmbiguousName where
  name : String
  /-- The qualified names in order. -/
  candidates : List String

def AmbiguousName.message (e : AmbiguousName) : String :=
  "type name " ++ e.name ++ " is ambiguous: " ++ ", ".intercalate e.candidates

namespace Program

def resolveTypeName (p : Program) (name : String) : Except AmbiguousName (Option TypeDef) :=
  if '.' ∈ name.toList then .ok (p.type? name)
  else match p.typesNamed name with
    | [] => .ok none
    | [d] => .ok (some d)
    | ds => .error ⟨name, (ds.map TypeDef.name).mergeSort fun a b => a ≤ b⟩

/-- The table entry of a type: by number if it has one that is known, else by name. -/
def defOf? (p : Program) (t : Ty) : Option TypeDef := do
  let c ← t.con?
  match if c.id == 0 then none else p.typeById? c.id with
  | some d => some d
  | none => p.type? c.name

def bases (p : Program) (t : Ty) : List Ty :=
  match p.defOf? t with
  | none => []
  | some d => d.bases.map fun b => d.instantiate b t.args

def fieldType? (p : Program) (t : Ty) (name : String) : Option Ty := do
  let d ← p.defOf? t
  let f ← d.field? name
  return d.instantiate f.type t.args

mutual

def resolveType (p : Program) : TypeExpr → Except Diagnostic Ty
  | .array _ elem => do return .arrayOf (← p.resolveType elem)
  | .named tok path args =>
    let name := ".".intercalate path
    match p.resolveTypeName name with
    | .error e => .error (.report .ambiguousType tok e.message)
    | .ok none => .error (.report .unbound tok ("unknown type " ++ name))
    | .ok (some d) =>
      if args.length != d.typeParams.length then
        .error (.report .mismatch tok ("type " ++ d.name ++ " expects "
          ++ toString d.typeParams.length ++ " type arguments, got " ++ toString args.length))
      else if args.isEmpty then .ok (.con d.con)
      else do return .app d.con (← p.resolveTypes args)

def resolveTypes (p : Program) : List TypeExpr → Except Diagnostic (List Ty)
  | [] => .ok []
  | t :: ts => do
    let u ← p.resolveType t
    return u :: (← p.resolveTypes ts)

end

def assignable (p : Program) (target value : Ty) : Bool := Ty.assignable p.bases target value

end Program

end Scripting
