import Scripting.Library.Standard
import Scripting.Program.Basic
import Scripting.Syntax.Parser

/-!
# The registry of host modules

A registry holds the modules that `use` can load. Loading one gives its types and functions, ready to
be added to a program.
-/

namespace Scripting

/-- Why a module cannot be loaded. -/
structure LoadError where
  message : String
  /-- The failure to read a type, if that is the cause. -/
  cause : Option Diagnostic := none

def LoadError.inside (place : String) (e : LoadError) : LoadError :=
  { e with message := place ++ ": " ++ e.message }

/-- A module ready to be added to a program. -/
structure HostModule where
  name : String
  /-- Types with their functions. -/
  types : List (TypeDef × List HostFunction) := []
  /-- Methods with the qualified names of the types they are for. -/
  methods : List (String × HostFunction) := []
  extensions : List HostFunction := []

/-- The modules that can be loaded. -/
structure Registry where
  modules : List Manifest.Module := []

namespace Registry

/-- Makes the modules of a manifest available; none of them may be there already. -/
def add (r : Registry) (m : Manifest) : Except String Registry :=
  match m.modules.find? fun mod => r.modules.any fun old => old.name == mod.name with
  | some mod => .error ("module " ++ mod.name ++ " is already registered")
  | none => .ok { modules := r.modules ++ m.modules }

def names (r : Registry) : List String :=
  (r.modules.map Manifest.Module.name).mergeSort fun a b => a ≤ b

def standard : Registry := { modules := Manifest.standard.modules }

def declares (r : Registry) (key : String) : Bool :=
  r.modules.any fun m =>
    (m.types.any fun t => t.methods.any fun f => f.impl == key)
      || (m.methods.any fun s => s.methods.any fun f => f.impl == key)
      || m.extensions.any fun f => f.impl == key

/-- The host function behind a key: an implemented one, or one that fails because it is only
declared. `implemented` finds implementations. -/
def lookup? (r : Registry) (implemented : String → Option Prim) (key : String) : Option Builtin :=
  match implemented key with
  | some p => some ⟨key, some p⟩
  | none => if r.declares key then some ⟨key, some (.missing key)⟩ else none

mutual

/-- The type that an annotation stands for. Names other than type parameters and built-in types are
qualified names of host types. -/
def convert (params : List String) : TypeExpr → Ty
  | .array _ elem => .arrayOf (convert params elem)
  | .named _ path args =>
    let name := ".".intercalate path
    let con := (Ty.builtinCons.find? fun c => c.name == name).getD ⟨name, 0⟩
    match args with
    | [] => if params.contains name then .var name else .con con
    | a :: as => .app con (convert params a :: convertAll params as)

def convertAll (params : List String) : List TypeExpr → List Ty
  | [] => []
  | t :: ts => convert params t :: convertAll params ts

end

def readType (params : List String) (text : String) : Except LoadError Ty :=
  match TypeExpr.parse text with
  | .ok t => .ok (convert params t)
  | .error e =>
    .error ⟨e.message, match e with
      | .diagnostic d => some d
      | _ => none⟩

def readTypeAt (place : String) (params : List String) (text : String) : Except LoadError Ty :=
  (readType params text).mapError (LoadError.inside place)

def readFunc (implemented : String → Option Prim) (owner : String) (receiver : Option Ty)
    (ownerParams : List String) (f : Manifest.Func) : Except LoadError HostFunction := do
  let typeParams := (if f.isStatic then [] else ownerParams) ++ f.typeParams
  let place := owner ++ "." ++ f.name
  let params ← f.params.mapM fun t =>
    readTypeAt (place ++ ": parameter " ++ t) typeParams t
  let result ← readTypeAt (place ++ ": return type " ++ f.returns) typeParams f.returns
  return { name := f.name, key := f.impl, owner, receiver := if f.isStatic then none else receiver
           params, result, typeParams, variadic := f.variadic, impl := implemented f.impl }

def readTypeDecl (implemented : String → Option Prim) (t : Manifest.TypeDecl) :
    Except LoadError (TypeDef × List HostFunction) := do
  let bases ← t.bases.mapM fun b =>
    readTypeAt ("type " ++ t.name ++ ": base " ++ b) t.typeParams b
  let d : TypeDef :=
    { name := t.name, kind := if t.typeParams.isEmpty then .host else .generic
      typeParams := t.typeParams, bases, isStatic := t.isStatic }
  let fs ← t.methods.mapM (readFunc implemented t.name (some d.type) t.typeParams)
  return (d, fs)

def readMethodSet (implemented : String → Option Prim) (s : Manifest.MethodSet) :
    Except LoadError (List (String × HostFunction)) := do
  let text := if s.typeParams.isEmpty then s.type
    else s.type ++ "<" ++ ", ".intercalate s.typeParams ++ ">"
  let receiver ← readTypeAt ("methods of " ++ s.type) s.typeParams text
  let fs ← s.methods.mapM (readFunc implemented s.type (some receiver) s.typeParams)
  return fs.map fun f => (s.type, f)

def load (r : Registry) (implemented : String → Option Prim) (name : String) :
    Except LoadError HostModule :=
  match r.modules.find? fun m => m.name == name with
  | none => .error ⟨"unknown module " ++ name, none⟩
  | some m =>
    Except.mapError (LoadError.inside ("module " ++ name)) do
      let types ← m.types.mapM (readTypeDecl implemented)
      let methods ← m.methods.mapM (readMethodSet implemented)
      let extensions ← m.extensions.mapM fun f =>
        readFunc implemented m.name none [] { f with isStatic := true }
      return { name := m.name, types, methods := methods.flatten, extensions }

end Registry

end Scripting
