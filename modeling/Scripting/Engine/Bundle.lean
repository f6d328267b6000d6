import Scripting.Engine.Basic
import Scripting.Bundle.Cache
import Scripting.Bundle.Link

/-!
# Storing and loading scripts

A script that was the first batch of an engine can be stored and run by another engine. The loading
engine must have the same globals so far; the other globals of the bundle take the next slots. Scripts
that were compiled before can be had from a cache of bundles.
-/

namespace Scripting.Engine

def bundle (e : Engine) (script : Ref) (file id : String) : Except Bundle.CollectError Bundle :=
  (Bundle.ofScript e.heap script e.program.slots.toList file).map fun b =>
    { b with id, modules := e.program.moduleNames }

def needed (r : Registry) : List String → Loading Unit
  | [] => return
  | name :: names => do
    tryCatch (Program.useModule (loader r) name) fun e =>
      throw (e.inside ("bundle needs module " ++ name))
    needed r names

def sameGlobals (i : Nat) : (current stored : List String) → Except LoadError Unit
  | [], _ => .ok ()
  | c :: cs, s :: ss =>
    if c == s then sameGlobals (i + 1) cs ss
    else .error ⟨"bundle global slot " ++ toString i ++ " is " ++ s ++ ", engine has " ++ c, none⟩
  | _ :: _, [] => .ok ()

def continues (b : Bundle) (current : List String) : Except LoadError Unit :=
  if b.globals.length < current.length then
    .error ⟨"bundle has " ++ toString b.globals.length ++ " globals, engine already has "
      ++ toString current.length, none⟩
  else sameGlobals 0 current b.globals

def reserve (b : Bundle) : Loading Unit := do
  let current := (← get).slots.toList
  match continues b current with
  | .error e => throw e
  | .ok () =>
    let tok := { Token.blank with file := b.sourceFile }
    modify fun p => (b.globals.drop current.length).foldl (fun p name => (p.newSlot name tok).2) p

/-- The function of the host behind a name: one of the program's, or one of the registry's. -/
def resolve (r : Registry) (p : Program) (name : String) : StateM Heap (Option Value) :=
  match p.linked? name with
  | some v => return some v
  | none =>
    match r.lookup? Library.implementation? name with
    | none => return none
    | some b => do return some (.builtin (← modifyGet fun h => h.newId) b)

def linkBundle (r : Registry) (h : Heap) (b : Bundle) : Loading (Ref × Program × Heap) := do
  needed r b.modules
  reserve b
  let (p, h) := (← get).makeObjects.run h
  match (b.link (resolve r p)).run.run h with
  | (.ok ref, h) => return (ref, p, h)
  | (.error msg, _) => throw ⟨"linking bundle " ++ b.id ++ ": " ++ msg, none⟩

def loadBundle (e : Engine) (bytes : List UInt8) : Except LoadError Ref × Engine :=
  match Bundle.decode bytes with
  | .error err => (.error ⟨err.message, none⟩, e)
  | .ok b =>
    match (linkBundle e.registry e.heap b).run.run e.program.begin with
    | (.error err, p) => (.error err, e.discard p)
    | (.ok (ref, p, h), _) => (.ok ref, { e.withHeap h with program := p.commit })

/-- Why a script cannot be had through the cache. -/
inductive CachedError where
  | rejected (ds : List Diagnostic)
  | notStorable (cause : Bundle.CollectError)

/-- A script, and whether it came from the cache. -/
structure Cached where
  script : Ref
  isHit : Bool

def compileAndStore (e : Engine) (c : Cache) (key text file id : String) :
    Except CachedError Cached × Cache × Engine :=
  match e.compile text file with
  | (.error ds, e) => (.error (.rejected ds), c, e)
  | (.ok script, e) =>
    match e.bundle script file id with
    | .error err => (.error (.notStorable err), c, e)
    | .ok b =>
      match c.put key file b.encode with
      | (.error _, c) => (.error (.notStorable .fault), c, e)
      | (.ok (), c) => (.ok ⟨script, false⟩, (c.prune file key).2, e)

/-- Loads a stored script of the same source and modules, or else compiles the source. A stored script
that cannot be loaded is passed over. The log can show every key that is made here (`Cache.logged_key`). -/
def compileCached (e : Engine) (c : Cache) (text file id : String) :
    Except CachedError Cached × Cache × Engine :=
  let key := Cache.key text e.program.moduleNames
  match c.get? key with
  | .error _ => (.error (.notStorable .fault), c, e)
  | .ok none => e.compileAndStore c key text file id
  | .ok (some data) =>
    match e.loadBundle data with
    | (.ok script, e) => (.ok ⟨script, true⟩, c, e)
    | (.error _, e) => e.compileAndStore c key text file id

end Scripting.Engine
