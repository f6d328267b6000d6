import Scripting.Code.ConstKey
import Scripting.Code.Storage
import Scripting.Number.Rounding
import Scripting.Ty.Basic

/-!
# Run-time values

Scalars are values by themselves. Arrays, instances, cells and the objects of the library can be
changed through any reference to them; they live in a `Heap` and values refer to them by number.
Other objects never change, but are told apart by an identity of their own.
-/

namespace Scripting

abbrev Ref := Nat

/-- The functions that are not written in the language: the built-in ones and those of the
library. -/
inductive Prim where
  | print | concat | toText | len | panic | equals | typeName
  | absInt | abs | sqrt | floor | pow | max | min
  | writeLine | write
  | upper | lower | trim | length | contains | startsWith | endsWith | split
  | push | count | arrayContains | indexOf
  | newBuilder | append | builderLength | build
  | listOf | emptyList | add | get
  | enumCount | enumFirst
  /-- Declared under a key, but implemented nowhere. -/
  | missing (key : String)
deriving DecidableEq, Repr

/-- A function of the host. -/
structure Builtin where
  name : String
  impl : Option Prim
deriving DecidableEq, Repr

/-- Builds the instances of a record type, or of a variant if it has a tag. -/
structure Ctor where
  typeName : String
  tag : String := ""
  fields : List String := []
deriving DecidableEq, Repr, Inhabited

/-- Run-time values. -/
inductive Value where
  /-- What a slot holds before anything is stored in it. -/
  | absent
  | int (n : Int64)
  | float (x : Double)
  | str (s : String)
  | bool (b : Bool)
  /-- A character, by its code; not every code is one of a character. -/
  | char (code : Int32)
  | unit
  | array (ref : Ref)
  | inst (ref : Ref)
  | cell (ref : Ref)
  | host (ref : Ref)
  | func (ref : Ref)
  | type (id : Nat) (t : Ty)
  | builtin (id : Nat) (b : Builtin)
  | ctor (id : Nat) (c : Ctor)
  | closure (id : Nat) (func : Ref) (free : List Ref)
deriving Inhabited

/-- A growable sequence. The element type is absent if it is not known. -/
structure ArrayObject where
  elem : Ty := .unknown
  items : Array Value
deriving Inhabited

/-- A record, or a variant of a union if it has a tag. -/
structure Instance where
  typeName : String
  tag : String := ""
  fieldNames : List String := []
  fields : Array Value := #[]
deriving Inhabited

/-- The objects of the library's own types. -/
inductive HostObject where
  | list (elem : Ty) (items : Array Value)
  | builder (text : String)
deriving Inhabited

/-- The code of a function: bytes, the source line of each byte, and the constants. -/
structure Chunk where
  code : Array UInt8 := #[]
  /-- The bytes of the storage behind the code. -/
  spare : List UInt8 := List.replicate Storage.initialRoom 0
  lines : Array Int := #[]
  constants : Array Value := #[]
  file : String := ""
  /-- The place of the first constant of each key. There is none until a constant is looked for. -/
  index : Option (Std.TreeMap ConstKey Nat) := none
deriving Inhabited

/-- A function of the program. It has no code until it is compiled. -/
structure Function where
  name : String
  arity : Int := 0
  localCount : Int := 0
  freeCount : Int := 0
  chunk : Option Chunk := none
  signature : Ty := .unknown
deriving Inhabited

/-- The objects of a running program. -/
structure Heap where
  arrays : Array ArrayObject := #[]
  insts : Array Instance := #[]
  cells : Array Value := #[]
  hosts : Array HostObject := #[]
  funcs : Array Function := #[]
  /-- The next identity. -/
  nextId : Nat := 0
deriving Inhabited

namespace Heap

def newArray (h : Heap) (a : ArrayObject) : Value × Heap :=
  (.array h.arrays.size, { h with arrays := h.arrays.push a })

def newInst (h : Heap) (i : Instance) : Value × Heap :=
  (.inst h.insts.size, { h with insts := h.insts.push i })

def newCell (h : Heap) (v : Value) : Ref × Heap :=
  (h.cells.size, { h with cells := h.cells.push v })

def newHost (h : Heap) (o : HostObject) : Value × Heap :=
  (.host h.hosts.size, { h with hosts := h.hosts.push o })

def newFunc (h : Heap) (f : Function) : Ref × Heap :=
  (h.funcs.size, { h with funcs := h.funcs.push f })

def newId (h : Heap) : Nat × Heap := (h.nextId, { h with nextId := h.nextId + 1 })

def func? (h : Heap) (r : Ref) : Option Function := h.funcs[r]?
def inst? (h : Heap) (r : Ref) : Option Instance := h.insts[r]?
def array? (h : Heap) (r : Ref) : Option ArrayObject := h.arrays[r]?
def host? (h : Heap) (r : Ref) : Option HostObject := h.hosts[r]?

/-- The empty option, which every program shares. It is the first instance of a heap. -/
def noneRef : Ref := 0

/-- A heap that holds the empty option. The first identities are those of the native functions. -/
def initial : Heap := { insts := #[⟨"Option", "None", [], #[]⟩], nextId := 16 }

end Heap

namespace Value

def none_ : Value := .inst Heap.noneRef

def kind : Value → String
  | absent => ""
  | int _ => "INTEGER"
  | float _ => "FLOAT"
  | str _ => "STRING"
  | bool _ => "BOOLEAN"
  | char _ => "CHAR"
  | unit => "UNIT"
  | array _ => "ARRAY"
  | inst _ => "INSTANCE"
  | cell _ => "CELL"
  | host _ => "HOST"
  | func _ => "FUNCTION"
  | type .. => "TYPE"
  | builtin .. => "BUILTIN"
  | ctor .. => "CONSTRUCTOR"
  | closure .. => "CLOSURE"

def hostKind : Value → String
  | absent => "nil"
  | int _ => "*object.Integer"
  | float _ => "*object.Float"
  | str _ => "*object.String"
  | bool _ => "*object.Boolean"
  | char _ => "*object.Char"
  | unit => "*object.Unit"
  | array _ => "*object.Array"
  | inst _ => "*object.Instance"
  | cell _ => "*object.Cell"
  | host _ => "*object.HostValue"
  | func _ => "*bytecode.Function"
  | type .. => "*object.TypeObject"
  | builtin .. => "*object.Builtin"
  | ctor .. => "*object.Constructor"
  | closure .. => "*bytecode.Closure"

def number? : Value → Option Float
  | int n => some n.toFloat
  | float x => some x.toFloat
  | _ => none

/-- Whether a value counts as true in a condition: all do but `false`, unit and nothing at all. -/
def truthy : Value → Bool
  | bool b => b
  | unit => false
  | absent => false
  | _ => true

end Value

namespace Instance

def some_ (v : Value) : Instance := ⟨"Option", "Some", ["value"], #[v]⟩
def ok (v : Value) : Instance := ⟨"Result", "Ok", ["value"], #[v]⟩
def err (v : Value) : Instance := ⟨"Result", "Err", ["error"], #[v]⟩

end Instance

def Ctor.construct (c : Ctor) (args : List Value) : Except String Instance :=
  if args.length == c.fields.length then .ok ⟨c.typeName, c.tag, c.fields, args.toArray⟩
  else
    .error ((if c.tag.isEmpty then c.typeName else c.tag) ++ " expects "
      ++ toString c.fields.length ++ " arguments, got " ++ toString args.length)

end Scripting
