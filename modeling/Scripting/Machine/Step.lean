import Scripting.Machine.State

/-!
# Instructions at work

`Exec.step` executes the instruction at the running frame. It gives a value when the outermost call
returns.
-/

namespace Scripting.Exec

def maxFrames : Nat := 10000

def intArith (op : Opcode) (a b : Int64) : Exec Value :=
  match op with
  | .add => return .int (a + b)
  | .sub => return .int (a - b)
  | .mul => return .int (a * b)
  | .div => if b == 0 then fail "division by zero" else return .int (a / b)
  | .mod => if b == 0 then fail "division by zero" else return .int (a % b)
  | _ => return .int 0

def floatArith (op : Opcode) (a b : Float) : Float :=
  match op with
  | .add => a + b
  | .sub => a - b
  | .mul => a * b
  | .div => a / b
  | .mod => Double.remainder a b
  | _ => 0

def isText : Value → Bool
  | .str _ => true
  | _ => false

/-- Arithmetic: integers stay integers, a double makes doubles of both, and adding a text to
anything joins the texts of both. -/
def arith (op : Opcode) : Exec Unit := do
  let right ← pop
  let left ← pop
  if op == .add && (isText left || isText right) then
    let s ← textOf left
    push (.str (s ++ (← textOf right)))
  else match left, right with
    | .int a, .int b => push (← intArith op a b)
    | left, right =>
      match left.number?, right.number? with
      | some a, some b => push (.float (.ofFloat (floatArith op a b)))
      | _, _ =>
        fail ("operator " ++ op.name ++ " not defined for " ++ (← typeText left) ++ " and "
          ++ (← typeText right))

def orderHolds (op : Opcode) (o : Ordering) : Bool :=
  match op with
  | .lt => o == .lt
  | .le => o != .gt
  | .gt => o == .gt
  | .ge => o != .lt
  | _ => false

def comparison (op : Opcode) : Exec Unit := do
  let right ← pop
  let left ← pop
  match op with
  | .eq => push (.bool (← orFault (← look fun h => HostFault.answered (h.equal left right))))
  | .ne => push (.bool (!(← orFault (← look fun h => HostFault.answered (h.equal left right)))))
  | op =>
    match Heap.compare? left right with
    | some o => push (.bool (orderHolds op o))
    | none =>
      fail ("cannot compare " ++ (← typeText left) ++ " with " ++ (← typeText right))

def bitOr : Exec Unit := do
  let right ← pop
  let left ← pop
  match left, right with
  | .int a, .int b => push (.int (a ||| b))
  | .bool a, .bool b => push (.bool (a || b))
  | left, right =>
    fail ("operator | not defined for " ++ (← typeText left) ++ " and " ++ (← typeText right))

def negate : Exec Unit := do
  match ← pop with
  | .int a => push (.int (-a))
  | .float a => push (.float a.neg)
  | v => fail ("cannot negate " ++ (← typeText v))

def fieldOf (v : Value) (name : String) : Exec (Ref × Nat) := do
  match v with
  | .inst r =>
    match ← look fun h => (h.inst? r).bind fun i => i.fieldNames.findIdx? (· == name) with
    | some k => return (r, k)
    | none => fail ((← presentText v) ++ " has no field " ++ name)
  | v => fail ((← typeText v) ++ " has no field " ++ name)

def getField (name : String) : Exec Unit := do
  let (r, k) ← fieldOf (← pop) name
  let fields ← look fun h => ((h.inst? r).map (·.fields)).getD #[]
  push (← itemAt fields k)

def setField (name : String) : Exec Unit := do
  let v ← pop
  let (r, k) ← fieldOf (← pop) name
  let size ← look fun h => ((h.inst? r).map (·.fields.size)).getD 0
  if k < size then
    onHeap fun h => ((), { h with insts := h.insts.modify r fun i =>
      { i with fields := i.fields.setIfInBounds k v } })
    push v
  else fault (.outOfRange k size)

def element (checked : Bool) : Exec Unit := do
  let index ← pop
  let target ← pop
  match target with
  | .array r =>
    match index with
    | .int i =>
      let items ← look fun h => (h.array? r).map (·.items)
      let items := items.getD #[]
      match if i < 0 then none else items[i.toNatClampNeg]? with
      | some v =>
        if checked then push (← onHeap fun h => h.newInst (.some_ v)) else push v
      | none =>
        if checked then push Value.none_
        else fail ("index " ++ toString i.toInt ++ " out of range [0, " ++ toString items.size ++ ")")
    | v => fail ("array index must be Int, got " ++ (← typeText v))
  | v => fail ("cannot index " ++ (← typeText v))

def length : Exec Unit := do
  match ← pop with
  | .array r => push (.int (Int64.ofNat (← look fun h => ((h.array? r).map (·.items.size)).getD 0)))
  | .str s => push (.int (Int64.ofNat s.length))
  | v => fail ("cannot take the length of " ++ (← typeText v))

def construct (c : Ctor) (n : Nat) : Exec Unit := do
  match c.construct (← popMany n) with
  | .ok i => push (← onHeap fun h => h.newInst i)
  | .error msg => fail msg

def captureCells : Nat → Exec (List Ref)
  | 0 => return []
  | n + 1 => do
    let isLocal := (← readByte) == 1
    let i ← readWord 2
    let r ← if isLocal then localCell i else freeCell i
    return r :: (← captureCells n)

def makeClosure : Exec Unit := do
  let f ← readConstant
  let n ← readByte
  match f with
  | .func r =>
    let cells ← captureCells n.toNat
    let id ← onHeap Heap.newId
    push (.closure id r cells)
  | _ => broken "CLOSURE operand is not a function"

def enter (name : String) (chunk : Chunk) (localCount : Int) (free : List Ref) (args : List Value) :
    Exec Unit := do
  if maxFrames ≤ (← get).frames.length then
    fail ("stack overflow: more than " ++ toString maxFrames ++ " nested calls")
  else
    let locals := args.toArray ++ Array.replicate (localCount.toNat - args.length) Value.absent
    modify fun m => { m with frames := ⟨name, chunk, free, locals, 0, m.stack.length⟩ :: m.frames }

def callFunction (f : Function) (free : List Ref) (argc : Nat) : Exec Unit := do
  if f.arity != argc then
    fail (f.name ++ " expects " ++ toString f.arity ++ " arguments but got " ++ toString argc)
  else match f.chunk with
    | none => fail ("function " ++ f.name ++ " has no compiled body")
    | some chunk =>
      if f.freeCount != free.length then
        fail ("function " ++ f.name ++ " needs " ++ toString f.freeCount
          ++ " captured variables, got " ++ toString free.length)
      else enter f.name chunk f.localCount free (← popMany argc)

def callHost (p : Prim) (args : List Value) : Exec (Except CallFailure Value) :=
  modifyGet fun m => match m with
    | ⟨w, gs, st, fs, b⟩ => let (r, w) := (p.run args).run w; (r, ⟨w, gs, st, fs, b⟩)

def functionAt (r : Ref) : Exec Function := do
  match ← look fun h => h.func? r with
  | some f => return f
  | none => fault .missing

def call (argc : Nat) : Exec Unit := do
  let callee ← pop
  if (takeFrom argc [] (← get).stack).isNone then underflow
  else match callee with
    | .func r => callFunction (← functionAt r) [] argc
    | .closure _ r free => callFunction (← functionAt r) free argc
    | .builtin _ b =>
      match b.impl with
      | none => fail (b.name ++ " has no implementation")
      | some p =>
        match ← callHost p (← popMany argc) with
        | .ok .absent => push .unit
        | .ok v => push v
        | .error (.message msg) => fail (b.name ++ ": " ++ msg)
        | .error (.fault cause) => fault cause
    | .ctor _ c => construct c argc
    | v => fail ((← presentText v) ++ " is not callable")

def toHeight (n : Nat) (stack : List Value) : List Value :=
  List.replicate (n - stack.length) Value.absent ++ stack.drop (stack.length - n)

/-- Leaves the running call. The outermost one gives its result away, others push it for their
caller. -/
def leave (result : Value) : Exec (Option Value) := do
  let f ← frame
  modify fun m => { m with
    stack := result :: toHeight f.base m.stack
    frames := m.frames.tail }
  return if (← get).frames.isEmpty then some result else none

def loop : Exec Unit := do
  jumpTo (← readWord 4)
  match ← modifyGet fun m => match m.budget with
    | 0 => (false, m)
    | n + 1 => (true, { m with budget := n }) with
  | true => return
  | false => fail "context canceled"

/-- Executes an instruction that stays in the running call or enters another one. -/
def operate (op : Opcode) : Exec Unit := do
  match op with
  | .const => push (← readConstant)
  | .pop => let _ ← pop
  | .popBelow =>
    let v ← pop
    let _ ← pop
    push v
  | .dup => push (← top)
  | .unit => push .unit
  | .add | .sub | .mul | .div | .mod => arith op
  | .eq | .ne | .lt | .le | .gt | .ge => comparison op
  | .bitOr => bitOr
  | .neg => negate
  | .not => push (.bool (!(← pop).truthy))
  | .getLocal => push (← getLocal (← readWord 2))
  | .setLocal =>
    let i ← readWord 2
    setLocal i (← pop)
  | .getGlobal =>
    let i ← readWord 2
    match (← get).global? i with
    | some v => push v
    | none => fail ("global slot " ++ toString i ++ " read before it was set")
  | .setGlobal =>
    let i ← readWord 2
    let v ← pop
    modify fun m => match m with
      | ⟨w, gs, st, fs, b⟩ => ⟨w, storeGlobal gs i v, st, fs, b⟩
  | .makeCell =>
    let i ← readWord 2
    let v ← pop
    let r ← onHeap fun h => h.newCell v
    setLocal i (.cell r)
  | .getCell => push (← getCell (← localCell (← readWord 2)))
  | .setCell =>
    let r ← localCell (← readWord 2)
    setCell r (← pop)
  | .getUpvalue => push (← getCell (← freeCell (← readWord 2)))
  | .setUpvalue =>
    let i ← readWord 2
    let v ← pop
    setCell (← freeCell i) v
  | .closure => makeClosure
  | .jump => jumpTo (← readWord 4)
  | .jumpIfFalse =>
    let target ← readWord 4
    if !(← pop).truthy then jumpTo target
  | .loop => loop
  | .call => call (← readByte).toNat
  | .getField => getField (← readName)
  | .setField => setField (← readName)
  | .new =>
    let template ← readConstant
    let n ← readByte
    match template with
    | .ctor _ c => construct c n.toNat
    | _ => broken "NEW operand is not a record type"
  | .makeArray =>
    let vs ← popMany (← readWord 2)
    push (← onHeap fun h => h.newArray ⟨.unknown, vs.toArray⟩)
  | .getIndex => element true
  | .getElem => element false
  | .len => length
  | .checkType =>
    let tag ← readName
    let v ← pop
    match ← look fun h => h.matchesTag? v tag with
    | some b => push (.bool b)
    | none => fault .missing
  | .toText =>
    push (.str (← textOf (← pop)))
  | .ret | .unwrapOrReturn => return

def execute (op : Opcode) : Exec (Option Value) := do
  match op with
  | .ret => leave (← pop)
  | .unwrapOrReturn =>
    let v ← pop
    match ← look fun h => h.unwrap v with
    | .payload p =>
      push p
      return none
    | .failure v => leave v
    | .broken => fault (.outOfRange 0 0)
  | op =>
    operate op
    return none

def step : Exec (Option Value) := do
  let b ← readByte
  match Opcode.ofByte? b with
  | some op => execute op
  | none => broken ("unknown opcode " ++ toString b.toNat)

end Scripting.Exec
