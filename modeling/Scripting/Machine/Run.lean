import Scripting.Machine.Step

/-!
# Running scripts

`Machine.run` runs a function from an empty stack until it returns or fails. Globals, objects and
output are kept for the next run.
-/

namespace Scripting

/-- How a run ends. -/
inductive Outcome where
  | value (v : Value)
  | failed (d : Diagnostic)
  /-- The script has no code at all. -/
  | crashed
  /-- No end: an instruction compares or prints a value that holds itself, and is never done. -/
  | unfinished

namespace Machine

def outcome (m : Machine) : Failure → Outcome
  | .fault .endless => .unfinished
  | e => .failed (m.report e)

def next (m : Machine) : Machine ⊕ Outcome × Machine :=
  match Exec.step.run m with
  | (.ok none, m) => .inl m
  | (.ok (some v), m) => .inr (.value v, m)
  | (.error e, m) => .inr (m.outcome e, m)

/-- Executes instructions until the outermost call returns or one of them fails. -/
def finish (m : Machine) : Outcome × Machine :=
  have : Nonempty (Outcome × Machine) := ⟨(.unfinished, m)⟩
  Id.run (repeatM (fun m => pure m.next) m)

def enter (m : Machine) (script : Function) (chunk : Chunk) (budget : Nat) : Machine :=
  let locals := Array.replicate script.localCount.toNat Value.absent
  { m with
    stack := []
    frames := [⟨script.name, chunk, [], locals, 0, 0⟩]
    budget := budget }

/-- Runs a function that takes no arguments. `budget` is the number of backward jumps it may take. -/
def run (m : Machine) (script : Function) (budget : Nat) : Outcome × Machine :=
  match script.chunk with
  | none => (.crashed, m)
  | some chunk =>
    (m.enter script chunk budget).finish

def initial (heap : Heap) : Machine := { world := { heap := heap }, budget := 0 }

def takeOutput (m : Machine) : String × Machine :=
  (m.world.output, { m with world := { m.world with output := "" } })

end Machine

end Scripting
