import Scripting.Value.Basic
import Scripting.Value.Text
import Scripting.Ty.Relations

/-!
# Comparing and testing values

Numbers are equal across integers and doubles; arrays and instances are compared part by part, and
all other objects by identity.
-/

namespace Scripting

def equalParts (eq : Value → Value → Option Bool) : List Value → List Value → Option Bool
  | v :: vs, w :: ws => do if ← eq v w then equalParts eq vs ws else some false
  | _, _ => some true

namespace Heap

/-- Equality of values. There is no answer if the values have too many levels. -/
def equalFrom (h : Heap) : (levels : Nat) → Value → Value → Option Bool
  | 0, _, _ => none
  | n + 1, v, w =>
    match v, w with
    | .absent, .absent => some true
    | .int a, .int b => some (a == b)
    | .int a, .float b => some (a.toFloat == b.toFloat)
    | .float a, .float b => some (a.toFloat == b.toFloat)
    | .float a, .int b => some (a.toFloat == b.toFloat)
    | .str a, .str b => some (a == b)
    | .bool a, .bool b => some (a == b)
    | .char a, .char b => some (a == b)
    | .unit, .unit => some true
    | .type _ t, .type _ u => some (t.same u)
    | .cell r, .cell s => some (r == s)
    | .host r, .host s => some (r == s)
    | .func r, .func s => some (r == s)
    | .builtin i _, .builtin j _ => some (i == j)
    | .ctor i _, .ctor j _ => some (i == j)
    | .closure i _ _, .closure j _ _ => some (i == j)
    | .array r, .array s =>
      match h.array? r, h.array? s with
      | some a, some b =>
        if a.items.size == b.items.size then
          equalParts (h.equalFrom n) a.items.toList b.items.toList
        else some false
      | _, _ => some false
    | .inst r, .inst s =>
      match h.inst? r, h.inst? s with
      | some a, some b =>
        if a.typeName == b.typeName && a.tag == b.tag && a.fields.size == b.fields.size then
          equalParts (h.equalFrom n) a.fields.toList b.fields.toList
        else some false
      | _, _ => some false
    | _, _ => some false

def equal (h : Heap) (v w : Value) : Option Bool := h.equalFrom h.levels v w

def findEqual (h : Heap) (v : Value) : List Value → Option (Option Nat)
  | [] => some none
  | w :: ws => do
    if ← h.equal w v then return some 0
    else return (← h.findEqual v ws).map (· + 1)

/-- Whether a value has the run-time tag of a type or of a variant, `Type` or `Type.Variant`;
`none` for nothing, which has no tag. -/
def matchesTag? (h : Heap) (v : Value) (tag : String) : Option Bool :=
  if tag == "Any" then some true
  else match v with
    | .inst r => (h.inst? r).map fun i =>
      (!i.tag.isEmpty && tag == i.typeName ++ "." ++ i.tag) || tag == i.typeName
    | .array _ => some (tag == "Array")
    | v => (h.typeOf? v).map fun t =>
      match t.con? with
      | some c => c.name == tag
      | none => false

/-- The outcome of unwrapping: the payload of a success, a failure as it is, or no answer because
the success holds nothing. -/
inductive Unwrapped where
  | payload (v : Value)
  | failure (v : Value)
  | broken

def unwrap (h : Heap) (v : Value) : Unwrapped :=
  match v with
  | .inst r =>
    match h.inst? r with
    | some i =>
      if i.tag == "Some" || i.tag == "Ok" then
        match i.fields[0]? with
        | some p => .payload p
        | none => .broken
      else if i.tag == "None" || i.tag == "Err" then .failure v
      else .payload v
    | none => .payload v
  | v => .payload v

def compareFloats (x y : Float) : Ordering :=
  if x < y then .lt else if y < x then .gt else .eq

def compare? : Value → Value → Option Ordering
  | .int a, .int b => some (compare a b)
  | .str a, .str b => some (compare a b)
  | .char a, .char b => some (compare a b)
  | v, w =>
    match v.number?, w.number? with
    | some x, some y => some (compareFloats x y)
    | _, _ => none

end Heap

end Scripting
