import Scripting.Program.Types
import Scripting.Code.Chunk

/-!
# Objects of a program

Functions, host functions and variants are declared before there is any object that stands for them.
`Program.makeObjects` makes the objects that are missing, each once, so that every use of a
declaration shares one.
-/

namespace Scripting

namespace Program

def makeFunction (f : UserFunction) : StateM Heap UserFunction :=
  match f.ref with
  | some _ => return f
  | none => do
    let r ← modifyGet fun h => h.newFunc { name := f.name, arity := f.arity, signature := f.signature }
    return { f with ref := some r }

def makeHost (f : HostFunction) : StateM Heap HostFunction :=
  match f.objectId with
  | some _ => return f
  | none => do
    let id ← modifyGet fun h => h.newId
    return { f with objectId := some id }

/-- Gives a variant its object, if it has none: a constructor, or the only instance. -/
def makeVariant (typeName : String) (v : Variant) : StateM Heap Variant :=
  match v.object with
  | some _ => return v
  | none => do
    if v.isNullary then
      let x ← modifyGet fun h => h.newInst ⟨typeName, v.tag, [], #[]⟩
      return { v with object := some x }
    else
      let id ← modifyGet fun h => h.newId
      return { v with object := some (.ctor id ⟨typeName, v.tag, v.fieldNames⟩) }

def makeVariants (d : TypeDef) : StateM Heap TypeDef := do
  return { d with variants := ← d.variants.mapM (makeVariant d.name) }

def makeObjects (p : Program) : StateM Heap Program := do
  let funs ← p.funs.mapM makeFunction
  let hosts ← p.hosts.mapM makeHost
  let types ← p.types.mapM makeVariants
  return { p with funs, hosts, types }

def object (p : Program) : Callable → Value
  | .user f => ((p.funs[f]?.bind (·.ref)).map Value.func).getD .absent
  | .native name => (Native.object? name).getD .absent
  | .host f => (p.hosts[f]?.bind (·.object)).getD .absent
  | .ctor t i => ((p.variant? t i).bind fun x => x.2.object).getD .absent

/-- The value of a global that is known before the program runs. A type is a new object each time. -/
def initialValue? (p : Program) (h : Heap) (b : Binding) : Option (Value × Heap) :=
  if b.typeValue.isUnknown then b.callable.map fun c => (p.object c, h)
  else
    let (id, h) := h.newId
    some (.type id b.typeValue, h)

def noInitialValue (b : Binding) : String :=
  "global " ++ b.name ++ " has no compile-time value"

def linked? (p : Program) (key : String) : Option Value :=
  match Native.object? key with
  | some v => some v
  | none => (p.hostKeys.lookup key).map fun f => p.object (.host f)

end Program

end Scripting
