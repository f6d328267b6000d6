import Scripting.Library.Registry
import Scripting.Text.CharClass

/-!
# Loading host modules into a program
-/

namespace Scripting

abbrev Loading := ExceptT LoadError (StateM Program)

namespace Program

def registerKey (p : Program) (key : String) (h : HostId) : Program :=
  if (p.hostKeys.lookup key).isSome then p
  else { p with hostKeys := p.hostKeys ++ [(key, h)] }.record (.hostKey key)

def addHost (p : Program) (f : HostFunction) : HostId × Program :=
  (p.hosts.size, { p with hosts := p.hosts.push f }.registerKey f.key p.hosts.size)

def attachHost (p : Program) (id : TypeId) (f : HostFunction) : HostId × Program :=
  let (h, p) := p.addHost f
  (h, p.modifyType id fun d => d.addHostMethod (Text.lower f.name) h)

def addHostMethod (p : Program) (id : TypeId) (f : HostFunction) : Program :=
  let (h, p) := p.attachHost id f
  p.record (.hostMethod id (Text.lower f.name) h)

def addModuleType (module : String) (d : TypeDef) (fs : List HostFunction) : Loading Unit := do
  match (← get).addType { d with module } with
  | .error msg => throw ⟨"module " ++ module ++ ": " ++ msg, none⟩
  | .ok (id, p) => set (fs.foldl (fun p f => (p.attachHost id f).2) p)

def addModuleMethods (m : HostModule) (type : String) : Loading Unit := do
  let p ← get
  match p.type? type with
  | none => throw ⟨"module " ++ m.name ++ ": methods for unknown type " ++ type, none⟩
  | some d =>
    set ((m.methods.filter fun x => x.1 == type).foldl (fun p x => p.addHostMethod d.id x.2) p)

def addExtension (p : Program) (f : HostFunction) : Program :=
  let (h, p) := p.addHost f
  { p with extensions := p.extensions ++ [h] }.record (.extension h)

def addModule (p : Program) (name : String) : Program :=
  { p with modules := p.modules ++ [name] }.record (.module name)

def useModule (load : String → Except LoadError HostModule) (name : String) : Loading Unit := do
  if (← get).modules.contains name then return
  match load name with
  | .error e => throw e
  | .ok m =>
    m.types.forM fun (d, fs) => addModuleType m.name d fs
    ((m.methods.map Prod.fst).eraseDups.mergeSort fun a b => a ≤ b).forM (addModuleMethods m)
    modify fun p => m.extensions.foldl addExtension p
    modify fun p => p.addModule name

def moduleNames (p : Program) : List String := p.modules.mergeSort fun a b => a ≤ b

def hostMethodsOf (p : Program) (d : TypeDef) (name : String) : List (HostId × HostFunction) :=
  let key := Text.lower name
  d.hostMethods.filterMap fun (k, h) => if k == key then (p.hosts[h]?).map (h, ·) else none

def extensionsNamed (p : Program) (name : String) : List (HostId × HostFunction) :=
  p.extensions.filterMap fun h =>
    (p.hosts[h]?).bind fun f => if Text.equalFold f.name name then some (h, f) else none

end Program

end Scripting
