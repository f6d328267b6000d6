import Scripting.Value.Equal
import Scripting.Number.Double
import Scripting.Text.CharClass

/-!
# The functions of the host

`Prim.run` is what a call of a host function does: it reads and changes objects, appends to the
output, and gives a value or fails. A call with arguments that the function cannot even look at is a
fault of the host; every other failure has a message.
-/

namespace Scripting

/-- What host functions act on. -/
structure World where
  heap : Heap
  output : String := ""

/-- Why a host function gives no value. -/
inductive CallFailure where
  | message (text : String)
  /-- The arguments are not what the function takes for granted. -/
  | fault (cause : HostFault)

abbrev Call := ExceptT CallFailure (StateM World)

namespace Call

def fault {α : Type} (cause : HostFault) : Call α := throw (.fault cause)

def fail {α : Type} (msg : String) : Call α := throw (.message msg)

def look {α : Type} (f : Heap → α) : Call α := do return f (← get).heap

def make {α : Type} (f : Heap → α × Heap) : Call α :=
  modifyGet fun w => let (a, h) := f w.heap; (a, { w with heap := h })

def emit (s : String) : Call Unit :=
  modify fun w => { w with output := w.output ++ s }

def orFault {α : Type} : Except HostFault α → Call α
  | .ok a => return a
  | .error cause => fault cause

def textOf (v : Value) : Call String := do orFault (← look fun h => h.inspect v)

def presentText (v : Value) : Call String :=
  match v with
  | .absent => fault .missing
  | v => textOf v

def arg (args : List Value) (i : Nat) : Call Value :=
  match args[i]? with
  | some v => return v
  | none => fault (.outOfRange i args.length)

def asText (v : Value) : Call String := textOf v

def asInt (v : Value) : Call Int64 :=
  match v with
  | .int n => return n
  | v => fault (.wrongKind v.hostKind "*object.Integer")

def asArray (v : Value) : Call Ref :=
  match v with
  | .array r => return r
  | v => fault (.wrongKind v.hostKind "*object.Array")

def itemsOf (r : Ref) : Call (Array Value) := look fun h =>
  match h.array? r with
  | some a => a.items
  | none => #[]

def asList (v : Value) : Call (Ref × Array Value) := do
  match v with
  | .host r =>
    match ← look fun h => h.host? r with
    | some (.list _ items) => return (r, items)
    | _ => fail ("expected System.Collections.List, got " ++ (← presentText v))
  | v => fail ("expected System.Collections.List, got " ++ (← presentText v))

def asBuilder (v : Value) : Call (Ref × String) := do
  match v with
  | .host r =>
    match ← look fun h => h.host? r with
    | some (.builder s) => return (r, s)
    | _ => fail ("expected System.Text.StringBuilder, got " ++ (← presentText v))
  | v => fail ("expected System.Text.StringBuilder, got " ++ (← presentText v))

def enumerate (v : Value) : Call (Array Value) := do
  match v with
  | .array r => itemsOf r
  | .host r =>
    match ← look fun h => h.host? r with
    | some (.list _ items) => return items
    | _ => fail ((← presentText v) ++ " is not enumerable")
  | v => fail ((← presentText v) ++ " is not enumerable")

def onNumber (f : Float → Float) (args : List Value) : Call Value := do
  let v ← arg args 0
  match v.number? with
  | some x => return .float (.ofFloat (f x))
  | none => fail ("expected a number, got " ++ (← presentText v))

def onText (f : String → Value) (args : List Value) : Call Value := do
  return f (← asText (← arg args 0))

def onTexts (f : String → String → Bool) (args : List Value) : Call Value := do
  let s ← asText (← arg args 0)
  let t ← asText (← arg args 1)
  return .bool (f s t)

def order (v w : Value) : Call Ordering := do
  match v, w with
  | .char _, .char _ => fail ("cannot compare " ++ (← textOf v) ++ " and " ++ (← textOf w))
  | v, w =>
    match Heap.compare? v w with
    | some o => return o
    | none => fail ("cannot compare " ++ (← presentText v) ++ " and " ++ (← presentText w))

/-- The first argument if `keep` likes its order to the second, else the second. -/
def pick (keep : Ordering → Bool) (args : List Value) : Call Value := do
  let v ← arg args 0
  let w ← arg args 1
  return if keep (← order v w) then v else w

def setHost (r : Ref) (o : HostObject) : Call Unit :=
  modify fun w => { w with heap := { w.heap with hosts := w.heap.hosts.setIfInBounds r o } }

def pushItem (r : Ref) (v : Value) : Call Unit :=
  modify fun w => { w with heap := { w.heap with
    arrays := w.heap.arrays.modify r fun a => { a with items := a.items.push v } } }

def pushListItem (r : Ref) (v : Value) : Call Unit :=
  modify fun w => { w with heap := { w.heap with
    hosts := w.heap.hosts.modify r fun
      | .list elem items => .list elem (items.push v)
      | o => o } }

def findItem (r : Ref) (v : Value) : Call (Option Nat) := do
  let items ← itemsOf r
  orFault (← look fun h => HostFault.answered (h.findEqual v items.toList))

end Call

def occurs (part : List Char) : List Char → Bool
  | [] => part.isEmpty
  | c :: cs => part.isPrefixOf (c :: cs) || occurs part cs

/-- The pieces of a text between the occurrences of a separator, which is not empty. `n` bounds the
number of steps; the length of the text is enough. -/
def splitText (sep : List Char) : Nat → (piece : List Char) → List Char → List String
  | 0, piece, rest => [String.ofList (piece.reverse ++ rest)]
  | _ + 1, piece, [] => [String.ofList piece.reverse]
  | n + 1, piece, c :: cs =>
    if sep.isPrefixOf (c :: cs) then
      String.ofList piece.reverse :: splitText sep n [] ((c :: cs).drop sep.length)
    else splitText sep n (c :: piece) cs

def pieces (s sep : String) : List String :=
  if sep.isEmpty then s.toList.map (·.toString)
  else splitText sep.toList (s.toList.length + 1) [] s.toList

open Call in
def Prim.run (p : Prim) (args : List Value) : Call Value := do
  match p with
  | print =>
    let parts ← args.mapM textOf
    emit (" ".intercalate parts ++ "\n")
    return .unit
  | concat => return .str (String.join (← args.mapM textOf))
  | toText => return .str (← textOf (← arg args 0))
  | len =>
    match ← arg args 0 with
    | .str s => return .int (Int64.ofNat s.length)
    | .array r => return .int (Int64.ofNat (← itemsOf r).size)
    | .absent => fault .missing
    | v => fail ("len: unsupported argument " ++ v.kind)
  | panic => fail ("panic: " ++ (← textOf (← arg args 0)))
  | equals =>
    let v ← arg args 0
    let w ← arg args 1
    return .bool (← orFault (← look fun h => HostFault.answered (h.equal v w)))
  | typeName =>
    let v ← arg args 0
    match ← look fun h => h.typeOf? v with
    | some t => if t.hasText then return .str t.text else fault .missing
    | none => fault .missing
  | absInt =>
    let n ← asInt (← arg args 0)
    return .int (if n < 0 then -n else n)
  | abs => onNumber Float.abs args
  | sqrt => onNumber Float.sqrt args
  | floor => onNumber Float.floor args
  | pow =>
    let x ← arg args 0
    let y ← arg args 1
    return .float (.ofFloat (Double.pow (x.number?.getD 0) (y.number?.getD 0)))
  | max => pick (· != .lt) args
  | min => pick (· != .gt) args
  | writeLine =>
    emit ((← textOf (← arg args 0)) ++ "\n")
    return .unit
  | write =>
    emit (← textOf (← arg args 0))
    return .unit
  | upper => onText (fun s => .str (Text.upper s)) args
  | lower => onText (fun s => .str (Text.lower s)) args
  | trim => onText (fun s => .str (Text.trim s)) args
  | length => onText (fun s => .int (Int64.ofNat s.length)) args
  | contains => onTexts (fun s t => occurs t.toList s.toList) args
  | startsWith => onTexts (fun s t => t.toList.isPrefixOf s.toList) args
  | endsWith => onTexts (fun s t => t.toList.isSuffixOf s.toList) args
  | split =>
    let s ← asText (← arg args 0)
    let sep ← asText (← arg args 1)
    make fun h => h.newArray ⟨.string, ((pieces s sep).map Value.str).toArray⟩
  | push =>
    let r ← asArray (← arg args 0)
    pushItem r (← arg args 1)
    return .unit
  | count => return .int (Int64.ofNat (← itemsOf (← asArray (← arg args 0))).size)
  | arrayContains =>
    let r ← asArray (← arg args 0)
    return .bool (← findItem r (← arg args 1)).isSome
  | indexOf =>
    let r ← asArray (← arg args 0)
    match ← findItem r (← arg args 1) with
    | some i => return .int (Int64.ofNat i)
    | none => return .int (-1)
  | newBuilder => make fun h => h.newHost (.builder "")
  | append =>
    let v ← arg args 0
    let (r, s) ← asBuilder v
    setHost r (.builder (s ++ (← textOf (← arg args 1))))
    return v
  | builderLength => return .int (Int64.ofNat (← asBuilder (← arg args 0)).2.utf8ByteSize)
  | build => return .str (← asBuilder (← arg args 0)).2
  | listOf =>
    let r ← asArray (← arg args 0)
    let a ← look fun h => (h.array? r).getD ⟨.unknown, #[]⟩
    make fun h => h.newHost (.list a.elem.orAny a.items)
  | emptyList => make fun h => h.newHost (.list .any #[])
  | add =>
    let (r, _) ← asList (← arg args 0)
    pushListItem r (← arg args 1)
    return .unit
  | get =>
    let (_, items) ← asList (← arg args 0)
    let i ← asInt (← arg args 1)
    if i < 0 then
      fail ("index " ++ toString i.toInt ++ " out of range for list of length "
        ++ toString items.size)
    else match items[i.toNatClampNeg]? with
      | some v => return v
      | none =>
        fail ("index " ++ toString i.toInt ++ " out of range for list of length "
          ++ toString items.size)
  | enumCount => return .int (Int64.ofNat (← enumerate (← arg args 0)).size)
  | enumFirst =>
    match (← enumerate (← arg args 0))[0]? with
    | some v => return v
    | none => fail "sequence contains no elements"
  | missing key => fail ("host function " ++ key ++ " has no implementation")

end Scripting
