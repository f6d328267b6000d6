import Scripting.Document.Basic

/-!
# Manifests of host modules

A manifest declares modules of the host: types with their functions, methods for types that exist
before the module is loaded, and extensions, which are functions usable as methods of their first
parameter. `Manifest.validate` says what a manifest must keep to, and `Manifest.ofDocument` reads one.
-/

namespace Scripting

/-- A function in a manifest. Types are written as in source. -/
structure Manifest.Func where
  name : String := ""
  typeParams : List String := []
  params : List String := []
  returns : String := ""
  isStatic : Bool := false
  variadic : Bool := false
  /-- The key of the implementation. -/
  impl : String := ""

/-- A type in a manifest, by its qualified name. -/
structure Manifest.TypeDecl where
  name : String := ""
  typeParams : List String := []
  bases : List String := []
  isStatic : Bool := false
  methods : List Manifest.Func := []

/-- Methods for a type that exists already. -/
structure Manifest.MethodSet where
  type : String := ""
  typeParams : List String := []
  methods : List Manifest.Func := []

/-- A module in a manifest. -/
structure Manifest.Module where
  name : String := ""
  types : List Manifest.TypeDecl := []
  methods : List Manifest.MethodSet := []
  extensions : List Manifest.Func := []

/-- Declares modules. -/
structure Manifest where
  modules : List Manifest.Module := []

namespace Manifest

def Func.withDefaults (owner : String) (f : Func) : Func :=
  { f with
    returns := if f.returns.isEmpty then "Unit" else f.returns
    impl := if f.impl.isEmpty then owner ++ "." ++ f.name ++ "(" ++ ",".intercalate f.params ++ ")"
      else f.impl }

def Module.withDefaults (m : Module) : Module :=
  { m with
    types := m.types.map fun t => { t with methods := t.methods.map (Func.withDefaults t.name) }
    methods := m.methods.map fun s => { s with methods := s.methods.map (Func.withDefaults s.type) }
    extensions := m.extensions.map (Func.withDefaults m.name) }

def withDefaults (m : Manifest) : Manifest := { modules := m.modules.map Module.withDefaults }

def at_ (place list : String) (i : Nat) : String := place ++ list ++ "[" ++ toString i ++ "]"

def firstRepeat : List String → Option String
  | [] => none
  | s :: ss => firstRepeatFrom [s] ss
where
  firstRepeatFrom (seen : List String) : List String → Option String
    | [] => none
    | s :: ss => if seen.contains s then some s else firstRepeatFrom (s :: seen) ss

def Func.validate (place : String) (f : Func) : Except String Unit :=
  if f.name.isEmpty then .error (place ++ ": name is required")
  else if f.variadic && f.params.isEmpty then
    .error (place ++ " (" ++ f.name ++ "): variadic functions need at least one parameter")
  else match firstRepeat f.typeParams with
    | some x => .error (place ++ " (" ++ f.name ++ "): duplicate type parameter " ++ x)
    | none => .ok ()

def eachFunc (place : String) (check : String → Func → Except String Unit) (fs : List Func) :
    Except String Unit :=
  fs.zipIdx.forM fun (f, k) => check (at_ place ".methods" k) f

abbrev Declared := List (String × String)

def TypeDecl.validate (place module : String) (seen : Declared) (t : TypeDecl) :
    Except String Declared := do
  if t.name.isEmpty then throw (place ++ ": name is required")
  if let some first := seen.lookup t.name then
    throw (place ++ " (" ++ t.name ++ "): type already declared by module " ++ first)
  eachFunc place (fun at_ f => do
    f.validate at_
    if t.isStatic && !f.isStatic then
      throw (at_ ++ " (" ++ f.name ++ "): static type " ++ t.name ++ " cannot have instance methods"))
    t.methods
  return (t.name, module) :: seen

def MethodSet.validate (place : String) (s : MethodSet) : Except String Unit := do
  if s.type.isEmpty then throw (place ++ ": type is required")
  eachFunc place (fun at_ f => f.validate at_) s.methods

def Func.validateExtension (place : String) (f : Func) : Except String Unit := do
  f.validate place
  if f.params.isEmpty then
    throw (place ++ " (" ++ f.name ++ "): extension functions need a receiver parameter")

def Module.validate (place : String) (earlier : List String) (seen : Declared) (m : Module) :
    Except String Declared := do
  if m.name.isEmpty then throw (place ++ ": name is required")
  if earlier.contains m.name then throw (place ++ ": duplicate module " ++ m.name)
  let seen ← m.types.zipIdx.foldlM (fun seen (t, j) =>
    t.validate (at_ place ".types" j) m.name seen) seen
  m.methods.zipIdx.forM fun (s, j) => s.validate (at_ place ".methods" j)
  m.extensions.zipIdx.forM fun (f, j) => f.validateExtension (at_ place ".extensions" j)
  return seen

/-- Checks that a manifest declares modules, that every name is there, that no module or type is
declared twice, and that functions fit the place they are declared at. `path` names the manifest. -/
def validate (path : String) (m : Manifest) : Except String Unit := do
  if m.modules.isEmpty then throw (path ++ ": no modules defined")
  let _ ← m.modules.zipIdx.foldlM (fun (earlier, seen) (mod, i) => do
    let seen ← mod.validate (at_ (path ++ ": ") "modules" i) earlier seen
    return (mod.name :: earlier, seen)) (([] : List String), ([] : Declared))

def names (m : Manifest) : List String := m.modules.map Module.name

open Document (readText readBool readList readRecord field Reading Rules)

def texts : Document → Reading (List String) := readList (readText .block)

def readFunc : Document → Reading Func :=
  readRecord fun e => do
    let name ← field .block e "name" "" (readText .block)
    let typeParams ← field .block e "type_params" [] texts
    let params ← field .block e "params" [] texts
    let returns ← field .block e "returns" "" (readText .block)
    let isStatic ← field .block e "static" false (readBool .block)
    let variadic ← field .block e "variadic" false (readBool .block)
    let impl ← field .block e "impl" "" (readText .block)
    return { name, typeParams, params, returns, isStatic, variadic, impl }

def readTypeDecl : Document → Reading TypeDecl :=
  readRecord fun e => do
    let name ← field .block e "name" "" (readText .block)
    let typeParams ← field .block e "type_params" [] texts
    let bases ← field .block e "bases" [] texts
    let isStatic ← field .block e "static" false (readBool .block)
    let methods ← field .block e "methods" [] (readList readFunc)
    return { name, typeParams, bases, isStatic, methods }

def readMethodSet : Document → Reading MethodSet :=
  readRecord fun e => do
    let type ← field .block e "type" "" (readText .block)
    let typeParams ← field .block e "type_params" [] texts
    let methods ← field .block e "methods" [] (readList readFunc)
    return { type, typeParams, methods }

def readModule : Document → Reading Module :=
  readRecord fun e => do
    let name ← field .block e "name" "" (readText .block)
    let types ← field .block e "types" [] (readList readTypeDecl)
    let methods ← field .block e "methods" [] (readList readMethodSet)
    let extensions ← field .block e "extensions" [] (readList readFunc)
    return { name, types, methods, extensions }

def read : Document → Reading Manifest :=
  readRecord fun e => do
    return { modules := ← field .block e "modules" [] (readList readModule) }

/-- The manifest of a document; `path` names it in failures. There is no document if its text cannot
be read. -/
def ofDocument (path : String) (d : Option Document) : Except String Manifest := do
  match d.map read with
  | some (.ok m) =>
    let m := m.getD {}
    m.validate path
    return m.withDefaults
  | _ => throw ("parsing " ++ path)

end Manifest

end Scripting
