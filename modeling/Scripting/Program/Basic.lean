import Scripting.Program.TypeTable
import Scripting.Library.Functions
import Scripting.Token

/-!
# Programs

A program is what all batches compiled against it share: the type table, the global slots and their
names, the functions and the loaded modules. It only grows. Bindings, functions of the program and
functions of the host stand in tables, and everything else refers to them by their place there.

A program remembers how to take back what a batch changes. A batch that is given up takes its
declarations with it; the slots and type numbers it took are not given out again.
-/

namespace Scripting

/-- What a call can be settled to. -/
inductive Callable where
  | user (id : FunId)
  /-- A native function, by name. -/
  | native (name : String)
  | host (id : HostId)
  /-- The constructor of a variant, by the number of its union and its place there. -/
  | ctor (type : TypeId) (variant : Nat)
deriving DecidableEq, Repr

/-- Where a binding is stored. -/
inductive Storage where
  | global
  /-- In the frame of the function around it. -/
  | frame
deriving DecidableEq, Repr

def Storage.name : Storage → String
  | global => "global"
  | frame => "local"

/-- A named storage location. -/
structure Binding where
  name : String
  index : Nat
  storage : Storage
  /-- How many functions are around the binding; 0 at top level. -/
  depth : Nat := 0
  /-- Whether a nested function uses the binding, which then lives in a cell. -/
  captured : Bool := false
  type : Ty := .unknown
  /-- What the binding names, if it names a function or constructor. -/
  callable : Option Callable := none
  /-- The type that the binding holds as a value, if it does. -/
  typeValue : Ty := .unknown
  /-- Whether source text cannot name the binding. -/
  hidden : Bool := false
  token : Token := Token.blank

/-- A function declared in source. -/
structure UserFunction where
  name : String
  paramNames : List String
  /-- Absent until the signature is settled. -/
  params : List Ty
  /-- Absent until it is declared or inferred. -/
  result : Ty := .unknown
  /-- Whether the source declares the result. -/
  declared : Bool := false
  /-- The type that an `impl` function belongs to. -/
  owner : Option Ty := none
  hasSelf : Bool := false
  localCount : Nat := 0
  freeCount : Nat := 0
  /-- The signature once it is settled. -/
  signature : Ty := .unknown
  /-- The function object, once it is made. -/
  ref : Option Ref := none

namespace UserFunction

def fullName (f : UserFunction) : String :=
  match f.owner.bind Ty.con? with
  | some c => c.name ++ "." ++ f.name
  | none => f.name

def arity (f : UserFunction) : Nat :=
  f.paramNames.length + if f.hasSelf then 1 else 0

def sig (f : UserFunction) : Signature :=
  match f.hasSelf, f.owner with
  | true, some t => ⟨t :: f.params, f.result, false⟩
  | _, _ => ⟨f.params, f.result, false⟩

end UserFunction

/-- A function of the host that a module declares: a static function, a method if it has a receiver,
or an extension. -/
structure HostFunction where
  name : String
  /-- Names the implementation; a bundle finds the function again by it. -/
  key : String
  owner : String
  receiver : Option Ty := none
  params : List Ty := []
  result : Ty
  typeParams : List String := []
  variadic : Bool := false
  impl : Option Prim
  /-- The identity of the object of the function, once it is made. -/
  objectId : Option Nat := none

namespace HostFunction

def fullName (f : HostFunction) : String :=
  if f.owner.isEmpty then f.name else f.owner ++ "." ++ f.name

def object (f : HostFunction) : Option Value :=
  f.objectId.map fun id => .builtin id ⟨f.key, some (f.impl.getD (.missing f.key))⟩

def sig (f : HostFunction) : Signature :=
  ⟨f.receiver.toList ++ f.params, f.result, f.variadic⟩

def dotLast : List String → List String
  | [] => []
  | [s] => [s ++ "..."]
  | s :: ss => s :: dotLast ss

def text (f : HostFunction) : String :=
  let params := Ty.texts f.sig.params
  f.fullName ++ (if f.typeParams.isEmpty then "" else "<" ++ ", ".intercalate f.typeParams ++ ">")
    ++ "(" ++ ", ".intercalate (if f.variadic then dotLast params else params) ++ ")"
    ++ (if f.result.isUnknown then "" else ": " ++ f.result.text)

end HostFunction

namespace Program

/-- How a change made by a batch is taken back. -/
inductive Undo where
  /-- Gives a top-level name back what it meant before, if it meant anything. -/
  | global (name : String) (b : BindingId) (before : Option BindingId)
  /-- Removes the type at a place. -/
  | type (place : Nat)
  /-- Forgets the latest function with a name. -/
  | function (name : String)
  | method (type : TypeId) (f : FunId)
  | typeBinding (type : TypeId)
  | hostMethod (type : TypeId) (key : String) (f : HostId)
  | hostKey (key : String)
  | extension (f : HostId)
  | module (name : String)

/-- A batch under way: how long the tables were when it began, and how its changes are taken back, the
latest first. -/
structure Batch where
  bindings : Nat
  funs : Nat
  hosts : Nat
  pending : Nat
  undo : List Undo := []

end Program

/-- A program. -/
structure Program where
  bindings : Array Binding := #[]
  /-- The top-level names. -/
  scope : Scope := .top
  /-- The names of all global slots in slot order. -/
  slots : Array String := #[]
  types : TypeTable := {}
  /-- The number of the next type. -/
  nextType : TypeId := Ty.builtinCons.length + 1
  funs : Array UserFunction := #[]
  hosts : Array HostFunction := #[]
  /-- Top-level functions by name, the latest first. -/
  functions : List (String × FunId) := []
  /-- Loaded modules. -/
  modules : List String := []
  /-- Host functions that can be called as methods of their first parameter. -/
  extensions : List HostId := []
  /-- Host functions by key; the first one of a key stays. -/
  hostKeys : List (String × HostId) := []
  /-- Globals whose value is known when a batch is compiled; the next script stores them. -/
  pending : Array BindingId := #[]
  /-- The batch that is being compiled, if there is one. -/
  batch : Option Program.Batch := none

namespace Program

def record (p : Program) (u : Undo) : Program :=
  { p with batch := p.batch.map fun b => { b with undo := u :: b.undo } }

def binding? (p : Program) (b : BindingId) : Option Binding := p.bindings[b]?

def binding (p : Program) (b : BindingId) : Binding :=
  p.bindings.getD b { name := "", index := 0, storage := .global }

def modifyBinding (p : Program) (b : BindingId) (f : Binding → Binding) : Program :=
  { p with bindings := p.bindings.modify b f }

def addBinding (p : Program) (b : Binding) : BindingId × Program :=
  (p.bindings.size, { p with bindings := p.bindings.push b })

/-- Takes the next global slot for a binding that has no name in the top-level scope. Slots are never
given twice. -/
def newSlot (p : Program) (name : String) (tok : Token) : BindingId × Program :=
  let (b, p) := p.addBinding { name := name, index := p.slots.size, storage := .global, token := tok }
  (b, { p with slots := p.slots.push name })

/-- Takes the next global slot and binds a top-level name to it, which shadows an earlier one. -/
def declareGlobal (p : Program) (name : String) (tok : Token) : BindingId × Program :=
  let before := p.scope.get? name
  let (b, p) := p.newSlot name tok
  (b, { p with scope := p.scope.define name b }.record (.global name b before))

def addPending (p : Program) (b : BindingId) : Program :=
  { p with pending := p.pending.push b }

def type? (p : Program) (name : String) : Option TypeDef := p.types.byName? name

def typeById? (p : Program) (id : TypeId) : Option TypeDef := p.types.byId? id

def typesNamed (p : Program) (name : String) : List TypeDef := p.types.named name

def modifyType (p : Program) (id : TypeId) (f : TypeDef → TypeDef) : Program :=
  { p with types := p.types.map fun d => if d.id == id then f d else d }

def addType (p : Program) (d : TypeDef) : Except String (TypeId × Program) :=
  let place := p.types.defs.size
  if p.types.names.contains d.name then .error ("type " ++ d.name ++ " is already defined")
  else if d.id == 0 then
    .ok (p.nextType,
      { p with types := p.types.add { d with id := p.nextType }, nextType := p.nextType + 1 }.record
        (.type place))
  else .ok (d.id, { p with types := p.types.add d }.record (.type place))

def typeBinding (p : Program) (d : TypeDef) (tok : Token) : BindingId × Program :=
  match d.binding with
  | some b => (b, p)
  | none =>
    let (b, p) := p.newSlot ("$type:" ++ d.name) tok
    let p := p.modifyBinding b fun x =>
      { x with hidden := true, typeValue := d.type, type := .type d.type }
    let p := (p.addPending b).modifyType d.id fun d => d.heldBy (some b)
    (b, p.record (.typeBinding d.id))

def variant? (p : Program) (type : TypeId) (i : Nat) : Option (TypeDef × Variant) := do
  let d ← p.typeById? type
  let v ← d.variants[i]?
  return (d, v)

def ctorSig (d : TypeDef) (v : Variant) : Signature := ⟨v.fields.map Field.type, d.type, false⟩

def callableName (p : Program) : Callable → String
  | .user f => (p.funs[f]?.map UserFunction.fullName).getD ""
  | .native name => name
  | .host h => (p.hosts[h]?.map HostFunction.fullName).getD ""
  | .ctor t i => ((p.variant? t i).map fun x => x.2.tag).getD ""

def callableSig (p : Program) : Callable → Signature
  | .user f => (p.funs[f]?.map UserFunction.sig).getD ⟨[], .unknown, false⟩
  | .native name => ((Native.named? name).map Native.signature).getD ⟨[], .unknown, false⟩
  | .host h => (p.hosts[h]?.map HostFunction.sig).getD ⟨[], .unknown, false⟩
  | .ctor t i => ((p.variant? t i).map fun (d, v) => ctorSig d v).getD ⟨[], .unknown, false⟩

def bindVariants (p : Program) (id : TypeId) (tok : Token) : Program :=
  match p.typeById? id with
  | none => p
  | some d =>
    (List.range d.variants.length).foldl (fun p i =>
      match d.variants[i]? with
      | none => p
      | some v =>
        let (b, p) := p.declareGlobal v.tag tok
        let sig := ctorSig d v
        let p := p.modifyBinding b fun x => { x with
          callable := some (.ctor id i)
          type := if v.isNullary then d.type else .func sig.params sig.result sig.variadic }
        let p := p.modifyType id fun d =>
          { d with variants := d.variants.modify i fun v => { v with binding := some b } }
        p.addPending b) p

def addFun (p : Program) (f : UserFunction) : FunId × Program :=
  (p.funs.size, { p with funs := p.funs.push f })

def modifyFun (p : Program) (id : FunId) (f : UserFunction → UserFunction) : Program :=
  { p with funs := p.funs.modify id f }

def addFunction (p : Program) (name : String) (id : FunId) : Program :=
  { p with functions := (name, id) :: p.functions }.record (.function name)

def addMethod (p : Program) (type : TypeId) (id : FunId) : Program :=
  (p.modifyType type fun d => d.addMethod id).record (.method type id)

def builtinTypes : List TypeDef :=
  (Ty.primitives.map fun c => { id := c.id, name := c.name, kind := .primitive })
    ++ [{ id := Ty.arrayCon.id, name := "Array", kind := .generic, typeParams := ["T"] },
      { id := Ty.optionCon.id, name := "Option", kind := .union, typeParams := ["T"],
        variants := [⟨"Some", [⟨"value", .var "T"⟩], none, none⟩,
          ⟨"None", [], none, some Value.none_⟩] },
      { id := Ty.resultCon.id, name := "Result", kind := .union, typeParams := ["T", "E"],
        variants := [⟨"Ok", [⟨"value", .var "T"⟩], none, none⟩,
          ⟨"Err", [⟨"error", .var "E"⟩], none, none⟩] }]

def bindNative (p : Program) (f : Native) : Program :=
  let (b, p) := p.declareGlobal f.name Token.blank
  let p := p.modifyBinding b fun x => { x with
    callable := some (.native f.name), type := .func f.params f.result f.variadic }
  p.addPending b

/-- A program that nothing was compiled against: it has the built-in types, the native functions and
the variants of options and results. -/
def initial : Program :=
  let p : Program := { types := .ofList builtinTypes }
  let p := Native.globals.foldl bindNative p
  (p.bindVariants Ty.optionCon.id Token.blank).bindVariants Ty.resultCon.id Token.blank

def undo (p : Program) : Undo → Program
  | .global name b before => { p with scope := p.scope.restore name b before }
  | .type place => { p with types := p.types.remove place }
  | .function name => { p with functions := p.functions.eraseP fun x => x.1 == name }
  | .method type f => p.modifyType type fun d => d.removeMethod f
  | .typeBinding type => p.modifyType type fun d => d.heldBy none
  | .hostMethod type key f => p.modifyType type fun d => d.removeHostMethod key f
  | .hostKey key => { p with hostKeys := p.hostKeys.eraseP fun x => x.1 == key }
  | .extension f => { p with extensions := p.extensions.erase f }
  | .module name => { p with modules := p.modules.erase name }

def begin (p : Program) : Program :=
  { p with batch := some ⟨p.bindings.size, p.funs.size, p.hosts.size, p.pending.size, []⟩ }

def commit (p : Program) : Program := { p with pending := #[], batch := none }

def truncate (p : Program) (b : Batch) : Program :=
  { p with
    bindings := p.bindings.take b.bindings
    funs := p.funs.take b.funs
    hosts := p.hosts.take b.hosts
    pending := p.pending.take b.pending }

def rollback (p : Program) : Program :=
  match p.batch with
  | none => p
  | some b => { (b.undo.foldl undo p).truncate b with batch := none }

end Program

end Scripting
