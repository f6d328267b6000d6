import Std.Data.ExtTreeMap
import Scripting.Program.Scope
import Scripting.Library.Functions

/-!
# The type table

A type is made once and has a place of its own in the table. Three maps lead to the places: by qualified
name, by simple name and by number. Each is kept up by itself when a type is added or removed.
-/

namespace Scripting

abbrev FunId := Nat

abbrev HostId := Nat

abbrev TypeId := Nat

/-- A field of a record or variant. -/
structure Field where
  name : String
  type : Ty

/-- A case of a union. -/
structure Variant where
  tag : String
  fields : List Field
  /-- The global that holds the constructor, or the only instance if there are no fields. -/
  binding : Option BindingId := none
  /-- The value of that global, once it is made. -/
  object : Option Value := none

/-- The kinds of types. -/
inductive TypeDef.Kind where
  | primitive | record | union | host | generic
deriving DecidableEq, Repr

def TypeDef.Kind.name : TypeDef.Kind → String
  | primitive => "primitive"
  | record => "record"
  | union => "union"
  | host => "host"
  | generic => "generic"

/-- An entry of the type table. -/
structure TypeDef where
  id : TypeId := 0
  /-- The qualified name. -/
  name : String
  /-- The module the type came from, empty for the program's own types. -/
  module : String := ""
  kind : TypeDef.Kind
  typeParams : List String := []
  fields : List Field := []
  variants : List Variant := []
  /-- The functions of `impl` blocks, in the order they were added. -/
  methods : List FunId := []
  /-- The host functions of the type by lower-case name, in the order they were added. -/
  hostMethods : List (String × HostId) := []
  /-- Bases, written with the type's own parameters. -/
  bases : List Ty := []
  /-- Whether the type has static functions only. -/
  isStatic : Bool := false
  /-- The hidden global that holds the type as a value, once the source reads it. -/
  binding : Option BindingId := none

namespace TypeDef

def simpleName (d : TypeDef) : String := lastSegment d.name

def con (d : TypeDef) : TyCon := ⟨d.name, d.id⟩

def type (d : TypeDef) : Ty :=
  if d.typeParams.isEmpty then .con d.con else .app d.con (d.typeParams.map Ty.var)

def field? (d : TypeDef) (name : String) : Option Field := d.fields.find? fun f => f.name == name

def variantIndex? (d : TypeDef) (tag : String) : Option Nat :=
  d.variants.findIdx? fun v => v.tag == tag

def fieldNames (d : TypeDef) : List String := d.fields.map Field.name

def addMethod (d : TypeDef) (f : FunId) : TypeDef := { d with methods := d.methods ++ [f] }

def removeMethod (d : TypeDef) (f : FunId) : TypeDef := { d with methods := d.methods.erase f }

def addHostMethod (d : TypeDef) (key : String) (f : HostId) : TypeDef :=
  { d with hostMethods := d.hostMethods ++ [(key, f)] }

def removeHostMethod (d : TypeDef) (key : String) (f : HostId) : TypeDef :=
  { d with hostMethods := d.hostMethods.erase (key, f) }

def heldBy (d : TypeDef) (b : Option BindingId) : TypeDef := { d with binding := b }

def instantiate (d : TypeDef) (t : Ty) (args : List Ty) : Ty :=
  if d.typeParams.isEmpty || args.length != d.typeParams.length then t
  else Subst.apply (d.typeParams.zip args) t

end TypeDef

namespace Variant

def fieldNames (v : Variant) : List String := v.fields.map Field.name

def isNullary (v : Variant) : Bool := v.fields.isEmpty

end Variant

/-- The types of a program. -/
structure TypeTable where
  /-- The types in the order they were added. -/
  defs : Array TypeDef := #[]
  names : Std.ExtTreeMap String Nat := {}
  /-- Several types may have one simple name; a name that none has is not a key. -/
  simpleNames : Std.ExtTreeMap String (List Nat) := {}
  ids : Std.ExtTreeMap TypeId Nat := {}

namespace TypeTable

def byName? (t : TypeTable) (name : String) : Option TypeDef := t.names[name]?.bind (t.defs[·]?)

def byId? (t : TypeTable) (id : TypeId) : Option TypeDef := t.ids[id]?.bind (t.defs[·]?)

def named (t : TypeTable) (name : String) : List TypeDef :=
  (t.simpleNames[name]?.getD []).filterMap (t.defs[·]?)

def map (t : TypeTable) (f : TypeDef → TypeDef) : TypeTable := { t with defs := t.defs.map f }

def mapM {m : Type → Type} [Monad m] (t : TypeTable) (f : TypeDef → m TypeDef) : m TypeTable := do
  return { t with defs := ← t.defs.mapM f }

def add (t : TypeTable) (d : TypeDef) : TypeTable where
  defs := t.defs.push d
  names := t.names.insert d.name t.defs.size
  simpleNames := t.simpleNames.alter d.simpleName fun l => some (l.getD [] ++ [t.defs.size])
  ids := t.ids.insert d.id t.defs.size

/-- The places of a simple name without one of them; without the last one it is no key any more. -/
def splice (place : Nat) (l : Option (List Nat)) : Option (List Nat) :=
  match (l.getD []).erase place with
  | [] => none
  | places => some places

def remove (t : TypeTable) (place : Nat) : TypeTable :=
  match t.defs[place]? with
  | none => t
  | some d =>
    { defs := t.defs.take place
      names := t.names.erase d.name
      simpleNames := t.simpleNames.alter d.simpleName (splice place)
      ids := t.ids.erase d.id }

def ofList (ds : List TypeDef) : TypeTable := ds.foldl add {}

end TypeTable

end Scripting
