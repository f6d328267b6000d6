import Scripting.Bundle.Basic
import Scripting.Value.Text
import Scripting.Text.Quoted

/-!
# From scripts to bundles and back

`Bundle.ofScript` collects a script and every function that its constants reach. `Bundle.link` makes
the functions of a bundle in a heap; functions of the host are found by name.
-/

namespace Scripting.Bundle

/-- Why a script cannot be stored. -/
inductive CollectError where
  | message (text : String)
  /-- A constant is missing, or is a type without a text. -/
  | fault

/-- Functions in the order they were met. -/
structure Collected where
  refs : Array Ref := #[]
  functions : Array Function := #[]

abbrev Collect := ExceptT CollectError (StateM Collected)

def CollectError.inside (name : String) : CollectError → CollectError
  | message text => message (name ++ ": " ++ text)
  | fault => fault

def within {α : Type} (name : String) (x : Collect α) : Collect α :=
  tryCatch x fun e => throw (e.inside name)

/-- The place of a function in the bundle. When it is first met it gets a place, and then `one` stores
its constants. -/
def store (h : Heap) (one : Value → Collect Constant) (r : Ref) : Collect Nat := do
  let s ← get
  match s.refs.findIdx? (· == r), h.func? r with
  | some i, _ => return i
  | none, none => throw .fault
  | none, some f =>
    match f.chunk with
    | none => throw (.message ("function " ++ f.name ++ " has no compiled body"))
    | some c =>
      let i := s.refs.size
      set { s with refs := s.refs.push r, functions := s.functions.push default }
      let constants ← within f.name (c.constants.toList.mapM one)
      let stored : Function :=
        { name := f.name, arity := f.arity, localCount := f.localCount, freeCount := f.freeCount
          code := c.code.toList, lines := c.lines.toList, constants, file := c.file }
      modify fun s => { s with functions := s.functions.setIfInBounds i stored }
      return i

/-- The stored form of a constant. `n` bounds how deep functions and instances are nested. -/
def constant (h : Heap) : (n : Nat) → Value → Collect Constant
  | _, .int n => return .int n
  | _, .float x => return .float x
  | _, .str s => return .str s
  | _, .bool b => return .bool b
  | _, .char c => return .char c.toInt64
  | _, .unit => return .unit
  | _, .builtin _ b => return .builtin b.name
  | _, .ctor _ c => return .ctor c.typeName c.tag c.fields
  | _, .type _ t => if t.hasText then return .type t.text else throw .fault
  | _, .absent => throw .fault
  | 0, _ => throw .fault
  | n + 1, .func r => do return .func (← store h (constant h n) r)
  | n + 1, .inst r =>
    match h.inst? r with
    | none => throw .fault
    | some i => do
      return .inst i.typeName i.tag i.fieldNames (← i.fields.toList.mapM (constant h n))
  | _ + 1, v =>
    match h.inspect? v with
    | some s => throw (.message ("constant " ++ s ++ " of kind " ++ v.kind ++ " cannot be serialized"))
    | none => throw .fault

/-- How deep functions and instances can be nested: every function is entered once, and from one
function to the next no instance holds itself. -/
def depthBound (h : Heap) : Nat := (h.funcs.size + 1) * (h.insts.size + 2)

def ofScript (h : Heap) (script : Ref) (globals : List String) (sourceFile : String) :
    Except CollectError Bundle :=
  match (store h (constant h (depthBound h)) script).run.run {} with
  | (.ok i, s) => .ok { sourceFile, globals, functions := s.functions.toList, script := i }
  | (.error e, _) => .error e

abbrev Linking := ExceptT String (StateM Heap)

/-- The value of a stored constant. `funcs` are the functions of the bundle, and `resolve` finds
functions of the host. -/
def load (resolve : String → StateM Heap (Option Value)) (funcs : Array Ref) :
    Constant → Linking Value
  | .int n => return .int n
  | .float x => return .float x
  | .str s => return .str s
  | .bool b => return .bool b
  | .char c => return .char c.toInt32
  | .unit => return .unit
  | .func i =>
    match if i < 0 then none else funcs[i.toNat]? with
    | some r => return .func r
    | none => throw ("function index " ++ toString i ++ " out of range")
  | .builtin name => do
    match ← (resolve name : StateM Heap (Option Value)) with
    | some v => return v
    | none => throw ("unknown builtin " ++ Text.quoted name)
  | .ctor t tag fields => do
    return .ctor (← modifyGet fun h => h.newId) ⟨t, tag, fields⟩
  | .inst t tag names fields => do
    let vs ← loadAll resolve funcs fields
    modifyGet fun h => h.newInst ⟨t, tag, names, vs.toArray⟩
  | .type text => do
    return .type (← modifyGet fun h => h.newId) (.con ⟨text, 0⟩)
  | .unknown k => throw ("unknown constant kind " ++ toString k)
where
  /-- The values of stored constants. -/
  loadAll (resolve : String → StateM Heap (Option Value)) (funcs : Array Ref) :
      List Constant → Linking (List Value)
    | [] => return []
    | c :: cs => do
      let v ← load resolve funcs c
      return v :: (← loadAll resolve funcs cs)

def loadBody (resolve : String → StateM Heap (Option Value)) (funcs : Array Ref) (f : Function)
    (r : Ref) : Linking Unit := do
  let constants ← tryCatch (f.constants.mapM (load resolve funcs)) fun e =>
    throw (f.name ++ ": " ++ e)
  let chunk : Chunk :=
    { code := f.code.toArray, spare := [], lines := f.lines.toArray, constants := constants.toArray
      file := f.file }
  modify fun h => { h with funcs := h.funcs.modify r fun x => { x with chunk := some chunk } }

/-- Makes the functions of a bundle and gives the script. All functions are there before the first
constant is read, because functions may refer to each other. -/
def link (resolve : String → StateM Heap (Option Value)) (b : Bundle) : Linking Ref := do
  let refs ← b.functions.mapM fun f => modifyGet fun h => h.newFunc
    { name := f.name, arity := f.arity, localCount := f.localCount, freeCount := f.freeCount }
  let funcs := refs.toArray
  (b.functions.zip refs).forM fun (f, r) => loadBody resolve funcs f r
  return funcs.getD b.script.toNat 0

end Scripting.Bundle
