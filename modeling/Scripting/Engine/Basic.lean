import Scripting.Script.Batch
import Scripting.Typed.Analyze
import Scripting.Resolved.Hoist
import Scripting.Program.Modules
import Scripting.Syntax.Format
import Scripting.Machine.Run

/-!
# Engines

An engine owns one program and one machine. Each batch is compiled against what the batches before it
declared and run on the same machine. A batch that fails to compile leaves the program as it was,
except that slots and type numbers it took are not given out again.
-/

namespace Scripting

/-- Compiles and runs batches against one program. -/
structure Engine where
  registry : Registry
  program : Program
  machine : Machine

/-- What an engine starts with. -/
structure Engine.Setup where
  /-- Manifests, each with its path. -/
  manifests : List (String × Except String Manifest) := []
  /-- Modules in scope without a `use`. -/
  preload : List String := ["System"]

namespace Engine

def loader (r : Registry) (name : String) : Except LoadError HostModule :=
  r.load Library.implementation? name

def withManifests (r : Registry) : List (String × Except String Manifest) → Except LoadError Registry
  | [] => .ok r
  | (_, m) :: ms =>
    match m.bind r.add with
    | .ok r => withManifests r ms
    | .error msg => .error ⟨"loading host manifest: " ++ msg, none⟩

def preloaded (r : Registry) (p : Program) : List String → Except LoadError Program
  | [] => .ok p
  | name :: names =>
    match (Program.useModule (loader r) name).run.run p with
    | (.ok (), p) => preloaded r p names
    | (.error e, _) => .error (e.inside ("preloading " ++ name))

def new (s : Setup) : Except LoadError Engine := do
  let r ← withManifests .standard s.manifests
  let p ← preloaded r .initial s.preload
  return { registry := r, program := p, machine := .initial .initial }

def heap (e : Engine) : Heap := e.machine.world.heap

def withHeap (e : Engine) (h : Heap) : Engine :=
  { e with machine := { e.machine with world := { e.machine.world with heap := h } } }

def discard (e : Engine) (p : Program) : Engine := { e with program := p.rollback }

/-- Starts a batch, and reads, resolves and checks it. The program is given back also if that
fails. -/
def analyze (e : Engine) (text file : String) :
    Except (List Diagnostic) (Source .typed) × Program :=
  match Source.read text file with
  | .error ds => (.error ds, e.program.begin)
  | .ok src =>
    match src.resolve (loader e.registry) e.program.begin with
    | (.error ds, p) => (.error ds, p)
    | (.ok src, p) => src.check p

def inFile (file : String) (ds : List Diagnostic) : List Diagnostic :=
  ds.map (Diagnostic.inFile file)

/-- Compiles a batch and keeps its declarations. The script must be run before the next batch is
compiled, because it stores the globals that the batch declares. -/
def compile (e : Engine) (text file : String) : Except (List Diagnostic) Ref × Engine :=
  let file := if file.isEmpty then inputName else file
  match e.analyze text file with
  | (.error ds, p) => (.error (inFile file ds), e.discard p)
  | (.ok src, p) =>
    match src.compile p e.heap with
    | .error d => (.error (inFile file [d]), e.discard p)
    | .ok (r, p, h) => (.ok r, { e.withHeap h with program := p.commit })

/-- Checks a batch and keeps nothing of it. The typed batch comes with the program that it was
checked against. -/
def check (e : Engine) (text file : String) :
    Except (List Diagnostic) (Source .typed × Program) × Engine :=
  let file := if file.isEmpty then inputName else file
  match e.analyze text file with
  | (.error ds, p) => (.error (inFile file ds), e.discard p)
  | (.ok src, p) => (.ok (src, p), e.discard p)

def run (e : Engine) (script : Ref) (budget : Nat) : Outcome × Engine :=
  match e.heap.func? script with
  | none => (.crashed, e)
  | some f =>
    let (outcome, m) := e.machine.run f budget
    (outcome, { e with machine := m })

def takeOutput (e : Engine) : String × Engine :=
  let (text, m) := e.machine.takeOutput
  (text, { e with machine := m })

/-- How a batch ends. -/
inductive Extended where
  | rejected (ds : List Diagnostic)
  | ran (outcome : Outcome)

def extend (e : Engine) (text file : String) (budget : Nat) : Extended × Engine :=
  match e.compile text file with
  | (.error ds, e) => (.rejected ds, e)
  | (.ok r, e) =>
    let (outcome, e) := e.run r budget
    (.ran outcome, e)

def global? (e : Engine) (name : String) : Option Value := do
  let b ← e.program.scope.get? name
  e.machine.global? (e.program.binding b).index

end Engine

end Scripting
