import Scripting.Library.Call
import Scripting.Code.Opcode
import Scripting.Code.Chunk
import Scripting.Diagnostic

/-!
# The state of the machine

A stack machine over the bytes of a chunk. All frames share one stack of values; a frame remembers
how high the stack was when it was entered. Globals outlive a run, so that scripts that run one after
another see each other's.
-/

namespace Scripting

/-- A call that has not returned. -/
structure Frame where
  name : String
  chunk : Chunk
  /-- The cells of the running closure's captured variables. -/
  free : List Ref
  locals : Array Value
  /-- The offset of the next byte. -/
  ip : Nat
  /-- The height of the stack on entry. -/
  base : Nat

/-- The machine. -/
structure Machine where
  world : World
  globals : Array Value := #[]
  /-- The top is first. -/
  stack : List Value := []
  /-- The running call is first. -/
  frames : List Frame := []
  /-- How many more backward jumps may be taken. -/
  budget : Nat

/-- Why an instruction fails. -/
inductive Failure where
  | message (text : String)
  /-- The host cannot go on, as when a field that is not there is asked for. -/
  | fault (cause : HostFault)
  /-- The code asks for what no code should ask for, as a value of an empty stack. -/
  | broken (text : String)

def Failure.text : Failure → String
  | message s => s
  | fault cause => cause.text
  | broken s => s

/-- What an instruction does. A failure leaves the machine as it was when the failure was met. -/
abbrev Exec := ExceptT Failure (StateM Machine)

namespace Exec

def fail {α : Type} (msg : String) : Exec α := throw (.message msg)

def fault {α : Type} (cause : HostFault) : Exec α := throw (.fault cause)

def broken {α : Type} (msg : String) : Exec α := throw (.broken msg)

def itemAt {α : Type} (items : Array α) (i : Nat) : Exec α :=
  match items[i]? with
  | some a => return a
  | none => fault (.outOfRange i items.size)

def operandAt {α : Type} (items : Array α) (i : Nat) : Exec α :=
  match items[i]? with
  | some a => return a
  | none => broken (HostFault.outOfRange i items.size).text

def underflow {α : Type} : Exec α := broken "stack underflow"

def truncated {α : Type} : Exec α := broken "truncated bytecode"

def push (v : Value) : Exec Unit := modify fun m => { m with stack := v :: m.stack }

def pop : Exec Value := do
  match ← modifyGet fun m => match m.stack with
    | v :: vs => (some v, { m with stack := vs })
    | [] => (none, m) with
  | some v => return v
  | none => underflow

def top : Exec Value := do
  match (← get).stack with
  | v :: _ => return v
  | [] => underflow

/-- Takes `n` values off the stack and lists them in the order they were pushed. -/
def takeFrom : Nat → List Value → List Value → Option (List Value × List Value)
  | 0, taken, stack => some (taken, stack)
  | _ + 1, _, [] => none
  | n + 1, taken, v :: vs => takeFrom n (v :: taken) vs

def popMany (n : Nat) : Exec (List Value) := do
  match takeFrom n [] (← get).stack with
  | some (vs, rest) =>
    modify fun m => { m with stack := rest }
    return vs
  | none => underflow

def frame : Exec Frame := do
  match (← get).frames with
  | f :: _ => return f
  | [] => fault .missing

def setFrame (g : Frame → Frame) : Exec Unit :=
  modify fun m => match m with
    | ⟨w, gs, st, f :: fs, b⟩ => ⟨w, gs, st, g f :: fs, b⟩
    | m => m

def jumpTo (target : Nat) : Exec Unit := setFrame fun f => { f with ip := target }

def readWord (width : Nat) : Exec Nat := do
  let f ← frame
  match f.chunk.readWord? width f.ip with
  | some n =>
    jumpTo (f.ip + width)
    return n
  | none => truncated

def readByte : Exec UInt8 := do
  let f ← frame
  match f.chunk.code[f.ip]? with
  | some b =>
    jumpTo (f.ip + 1)
    return b
  | none => truncated

def readConstant : Exec Value := do
  let i ← readWord 2
  operandAt (← frame).chunk.constants i

def readName : Exec String := do
  match ← readConstant with
  | .str s => return s
  | _ => broken "name operand is not a string constant"

def getLocal (i : Nat) : Exec Value := do operandAt (← frame).locals i

def setLocal (i : Nat) (v : Value) : Exec Unit := do
  let size := (← frame).locals.size
  if i < size then setFrame fun f => { f with locals := f.locals.setIfInBounds i v }
  else broken (HostFault.outOfRange i size).text

def localCell (i : Nat) : Exec Ref := do
  match ← getLocal i with
  | .cell r => return r
  | _ => broken ("local slot " ++ toString i ++ " holds no cell")

def freeCell (i : Nat) : Exec Ref := do operandAt (← frame).free.toArray i

def storeGlobal (gs : Array Value) (i : Nat) (v : Value) : Array Value :=
  if i < gs.size then gs.setIfInBounds i v
  else (gs ++ Array.replicate (i - gs.size) Value.absent).push v

def look {α : Type} (f : Heap → α) : Exec α := do return f (← get).world.heap

def onHeap {α : Type} (f : Heap → α × Heap) : Exec α :=
  modifyGet fun m => match m with
    | ⟨⟨h, o⟩, gs, st, fs, b⟩ => let (a, h) := f h; (a, ⟨⟨h, o⟩, gs, st, fs, b⟩)

def getCell (r : Ref) : Exec Value := look fun h => h.cells.getD r .absent

def setCell (r : Ref) (v : Value) : Exec Unit :=
  onHeap fun h => ((), { h with cells := h.cells.setIfInBounds r v })

def typeText (v : Value) : Exec String := do
  match ← look fun h => h.typeOf? v with
  | some t => return t.shown
  | none => fault .missing

def orFault {α : Type} : Except HostFault α → Exec α
  | .ok a => return a
  | .error cause => fault cause

def textOf (v : Value) : Exec String := do orFault (← look fun h => h.inspect v)

def presentText (v : Value) : Exec String := do
  match v with
  | .absent => fault .missing
  | v => textOf v

end Exec

namespace Machine

def report (m : Machine) (e : Failure) : Diagnostic :=
  match m.frames with
  | [] => .report .runtime Token.blank e.text
  | f :: _ =>
    let line := if f.ip = 0 then 0 else f.chunk.lines.getD (f.ip - 1) 0
    let msg := if f.name.isEmpty || f.name == "<script>" then e.text
      else "in " ++ f.name ++ ": " ++ e.text
    .report .runtime { Token.blank with line := line, file := f.chunk.file } msg

def global? (m : Machine) (i : Nat) : Option Value :=
  match m.globals[i]? with
  | some .absent => none
  | v => v

end Machine

end Scripting
