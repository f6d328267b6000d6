import Std.Data.TreeMap
import Scripting.Code.Assembly
import Scripting.Script.Objects
import Scripting.Typed.Basic

/-!
# The state of code generation

Code is generated function by function; each has its own constants. An operand that does not fit its
width does not stop the work at once: the first one is kept and reported in the end.
-/

namespace Scripting

/-- The state of code generation. -/
structure Emit.State where
  program : Program
  heap : Heap
  /-- The constants of the function that is being compiled. -/
  pool : Pool := {}
  /-- The constructors of records by type, one for each in a batch. -/
  templates : Std.TreeMap String Value := {}
  /-- The statement that is being compiled. -/
  stmt : Token
  /-- The first operand that did not fit. -/
  overflow : Option Diagnostic := none
  file : String

abbrev Emit := StateT Emit.State (Except Diagnostic)

namespace Emit

def unsupported {α : Type} (tok : Token) (msg : String) : Emit α :=
  throw (.report .unsupported tok msg)

def maxWord : Nat := 65535

def maxByte : Nat := 255

def checkWord (c : Opcode) (n : Nat) (line : Int) : Emit Unit :=
  modify fun s =>
    if maxWord < n && s.overflow.isNone then
      { s with overflow := some (.report .unsupported { s.stmt with line := line }
          (c.name ++ " operand " ++ toString n ++ " exceeds the limit of " ++ toString maxWord)) }
    else s

def word (c : Opcode) (n : Nat) (line : Int) : Emit Assembly := do
  checkWord c n line
  return [⟨line, .op c [n]⟩]

def intern (v : Value) : Emit Nat :=
  modifyGet fun s =>
    let pool := s.pool
    let s := { s with pool := {} }
    let (i, pool) := pool.add v
    (i, { s with pool })

def constant (v : Value) (line : Int) : Emit Assembly := do
  word .const (← intern v) line

def named (c : Opcode) (name : String) (line : Int) : Emit Assembly := do
  word c (← intern (.str name)) line

def template (t : Template) : Emit Value :=
  modifyGet fun s =>
    match s.templates[t.typeName]? with
    | some v => (v, s)
    | none =>
      let (id, heap) := s.heap.newId
      let v := Value.ctor id ⟨t.typeName, "", t.fields⟩
      (v, { s with heap, templates := s.templates.insert t.typeName v })

def binding (b : BindingId) : Emit Binding := do return (← get).program.binding b

/-- Pushes the value of a binding of the function that is being compiled, or of a global. -/
def load (b : BindingId) (line : Int) : Emit Assembly := do
  let x ← binding b
  match x.storage, x.captured with
  | .global, _ => word .getGlobal x.index line
  | .frame, true => word .getCell x.index line
  | .frame, false => word .getLocal x.index line

/-- Pops into a binding that is being declared. A captured variable gets a new cell each time. -/
def declare (b : BindingId) (line : Int) : Emit Assembly := do
  let x ← binding b
  match x.storage, x.captured with
  | .global, _ => word .setGlobal x.index line
  | .frame, true => word .makeCell x.index line
  | .frame, false => word .setLocal x.index line

def assign (b : BindingId) (line : Int) : Emit Assembly := do
  let x ← binding b
  match x.storage, x.captured with
  | .global, _ => word .setGlobal x.index line
  | .frame, true => word .setCell x.index line
  | .frame, false => word .setLocal x.index line

def loadSlot (s : Slot) (line : Int) : Emit Assembly := do
  match s.place with
  | .global => word .getGlobal s.index line
  | .free => word .getUpvalue s.index line
  | .frame =>
    word (if (← binding s.binding).captured then .getCell else .getLocal) s.index line

def storeSlot (s : Slot) (line : Int) : Emit Assembly := do
  match s.place with
  | .global => word .setGlobal s.index line
  | .free => word .setUpvalue s.index line
  | .frame =>
    word (if (← binding s.binding).captured then .setCell else .setLocal) s.index line

def paramCell (b : BindingId) (line : Int) : Emit Assembly := do
  let x ← binding b
  if x.captured then
    return (← word .getLocal x.index line) ++ (← word .makeCell x.index line)
  else return []

def call (count : Nat) (tok : Token) : Emit Assembly := do
  if maxByte < count then
    unsupported tok ("call with " ++ toString count ++ " arguments; at most 255 are supported")
  return [⟨tok.line, .op .call [count]⟩]

/-- Compiles the code of a function with constants of its own, and gives the function its body. -/
def withBody (info : FunSlots) (body : UserFunction → Emit Assembly) : Emit Unit := do
  let s ← get
  match s.program.funs[info.id]? with
  | none => return
  | some f =>
    let outer := s.pool
    set { s with pool := {} }
    let code ← body f
    modify fun s =>
      let chunk := code.chunk s.pool.values s.file
      let sig : Ty :=
        if f.result.isUnknown then .unknown
        else .func f.sig.params f.sig.result f.sig.variadic
      let heap := match f.ref with
        | none => s.heap
        | some r => { s.heap with funcs := s.heap.funcs.modify r fun x => { x with
            localCount := info.localCount, freeCount := info.free.length, chunk := some chunk
            signature := sig } }
      { s with
        pool := outer
        heap := heap
        program := s.program.modifyFun info.id fun f =>
          { f with localCount := info.localCount, freeCount := info.free.length, signature := sig } }

def closure (info : FunSlots) (tok : Token) : Emit Assembly := do
  match (← get).program.funs[info.id]? with
  | none => return []
  | some f =>
    if maxByte < info.free.length then
      unsupported tok ("function " ++ f.name ++ " captures more than 255 variables")
    let const ← intern ((f.ref.map Value.func).getD .absent)
    checkWord .closure const tok.line
    info.free.forM fun v => checkWord .closure v.index tok.line
    return [⟨tok.line, .closure const (info.free.map fun v => ⟨v.fromFrame, v.index⟩)⟩]

/-- Declares the name of a nested function. A captured name gets its cell before the closure is
made, so that the function can refer to itself. A function in a global slot is stored with the other
globals of the batch. -/
def nested (info : FunSlots) (tok : Token) : Emit Assembly := do
  match info.binding with
  | none => return []
  | some b =>
    let x ← binding b
    match x.storage, x.captured with
    | .global, _ => return []
    | .frame, true =>
      return Assembly.op .unit tok.line ++ (← word .makeCell x.index tok.line)
        ++ (← closure info tok) ++ (← word .setCell x.index tok.line)
    | .frame, false => return (← closure info tok) ++ (← word .setLocal x.index tok.line)

end Emit

end Scripting
