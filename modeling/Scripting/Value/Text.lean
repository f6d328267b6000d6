import Scripting.Value.Basic
import Scripting.Decimal.Notation
import Scripting.Text.Quoted

/-!
# Values as text, their types and hashes

`Heap.inspect` is the text that printing and interpolation use. Texts inside arrays and instances
stand in quotes. It follows the parts of a value, so it ends only if no part holds itself.
-/

namespace Scripting

/-- The character of a code; codes of no character give the replacement character. -/
def charText (code : Int32) : String :=
  let n := code.toInt
  if 0 ≤ n && n.toNat.isValidChar then (Char.ofNat n.toNat).toString else "\ufffd"

def Ctor.text (c : Ctor) : String :=
  if c.tag.isEmpty then "<constructor " ++ c.typeName ++ ">"
  else "<constructor " ++ c.typeName ++ "." ++ c.tag ++ ">"

/-- The text of an instance from the texts of its fields: variants list them, records name them. -/
def Instance.textWith (i : Instance) (parts : List String) : String :=
  let name := if i.tag.isEmpty then i.typeName else i.tag
  if parts.isEmpty then name
  else if !i.tag.isEmpty then name ++ "(" ++ ", ".intercalate parts ++ ")"
  else
    let named := parts.mapIdx fun k s =>
      match i.fieldNames[k]? with
      | some f => f ++ " = " ++ s
      | none => s
    name ++ " \x7b " ++ ", ".intercalate named ++ " \x7d"

def listed (parts : List String) : String := "[" ++ ", ".intercalate parts ++ "]"

def textsOf (one : Value → Option (Except HostFault String)) :
    List Value → Option (Except HostFault (List String))
  | [] => some (.ok [])
  | v :: vs => do
    match ← one v with
    | .ok s => return (← textsOf one vs).map fun parts => s :: parts
    | .error e => return .error e

namespace Heap

/-- How many levels of parts are followed. A value without an end has more levels than there are
objects, and no value with an end has. They are also more than any stack has room for, so nothing is
ever done about a value without an end. -/
def levels (h : Heap) : Nat :=
  Nat.pow 2 62 + (h.arrays.size + h.insts.size + h.cells.size + h.hosts.size)

/-- The text of a value; `quoted` puts texts and characters in quotes. A list shows a fault among its
items in their place. There is no answer if the value has too many levels. -/
def inspectFrom (h : Heap) : (levels : Nat) → (quoted : Bool) → Value → Option (Except HostFault String)
  | 0, _, _ => none
  | n + 1, quoted, v =>
    match v with
    | .absent => some (.ok "<nil>")
    | .int v => some (.ok (toString v.toInt))
    | .float x => some (.ok (Decimal.ofFloatPointed x.toFloat))
    | .str s => some (.ok (if quoted then Text.quoted s else s))
    | .bool b => some (.ok (if b then "true" else "false"))
    | .char c => some (.ok (if quoted then "'" ++ charText c ++ "'" else charText c))
    | .unit => some (.ok "()")
    | .func r =>
      match h.func? r with
      | some f => some (.ok ("<fn " ++ f.name ++ ">"))
      | none => some (.error .missing)
    | .closure _ r _ =>
      match h.func? r with
      | some f => some (.ok ("<closure " ++ f.name ++ ">"))
      | none => some (.error .missing)
    | .type _ t => some (if t.hasText then .ok ("<type " ++ t.text ++ ">") else .error .missing)
    | .builtin _ b => some (.ok ("<builtin " ++ b.name ++ ">"))
    | .ctor _ c => some (.ok c.text)
    | .cell r =>
      match h.cells[r]? with
      | some v => (h.inspectFrom n false v).map fun t => t.map fun s => "<cell " ++ s ++ ">"
      | none => some (.error .missing)
    | .array r =>
      match h.array? r with
      | some a => (textsOf (h.inspectFrom n true) a.items.toList).map fun ts => ts.map listed
      | none => some (.error .missing)
    | .inst r =>
      match h.inst? r with
      | some i => (textsOf (h.inspectFrom n true) i.fields.toList).map fun ts => ts.map i.textWith
      | none => some (.error .missing)
    | .host r =>
      match h.host? r with
      | some (.list _ items) =>
        (textsOf (h.inspectFrom n true) items.toList).map fun
          | .ok parts => .ok (listed parts)
          | .error e => .ok (e.inPlace 'v')
      | some (.builder s) => some (.ok s)
      | none => some (.error .missing)

/-- The text of a value. A type without a text has none, nor has a value that shows such a type. -/
def inspect (h : Heap) (v : Value) : Except HostFault String :=
  (h.inspectFrom h.levels false v).getD (.error .endless)

def inspect? (h : Heap) (v : Value) : Option String := (h.inspect v).toOption

def funcType (h : Heap) (r : Ref) : Ty :=
  match h.func? r with
  | some f => if f.signature.isUnknown then .con ⟨"Function", 0⟩ else f.signature
  | none => .con ⟨"Function", 0⟩

def typeOf? (h : Heap) : Value → Option Ty
  | .absent => none
  | .int _ => some .int
  | .float _ => some .double
  | .str _ => some .string
  | .bool _ => some .bool
  | .char _ => some .char
  | .unit => some .unit
  | .cell _ => some .any
  | .array r => (h.array? r).map fun a => .arrayOf a.elem.orAny
  | .inst r => (h.inst? r).map fun i => .con ⟨i.typeName, 0⟩
  | .host r => (h.host? r).map fun
    | .list elem _ => .app ⟨"System.Collections.List", 0⟩ [elem]
    | .builder _ => .con ⟨"System.Text.StringBuilder", 0⟩
  | .func r => some (h.funcType r)
  | .closure _ r _ => some (h.funcType r)
  | .type _ t => some (.type t)
  | .builtin .. => some (.con ⟨"Function", 0⟩)
  | .ctor .. => some (.con ⟨"Function", 0⟩)

end Heap

def hashText (s : String) : UInt32 :=
  s.toUTF8.foldl (fun h b => (h ^^^ b.toUInt32) * 16777619) 2166136261

def foldWord (w : UInt64) : UInt32 := (w ^^^ (w >>> 32)).toUInt32

def Value.hash? : Value → Option UInt32
  | .int n => some (n ^^^ (n >>> 32)).toUInt64.toUInt32
  | .float x => some (foldWord x.bits)
  | .str s => some (hashText s)
  | .bool b => some (if b then 1 else 0)
  | .char c => some c.toUInt32
  | .unit => some 0
  | .type _ t => some (hashText t.text)
  | _ => none

end Scripting
