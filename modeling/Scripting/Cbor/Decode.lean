import Scripting.Cbor.Basic

/-!
# Reading CBOR

Items may be nested up to a limit, and arrays and maps may have up to a number of members. Strings
and containers of indefinite length are accepted. A text must be well-formed UTF-8.
-/

namespace Scripting.Cbor

def maxLevels : Nat := 32

def maxMembers : Nat := 131072

def take? (n : Nat) (bs : List UInt8) : Option (List UInt8 × List UInt8) :=
  let front := bs.take n
  if front.length == n then some (front, bs.drop n) else none

/-- The size that a head gives. -/
inductive Size where
  | definite (n : Nat)
  | indefinite

def head? : List UInt8 → Option (Nat × Nat × Size × List UInt8)
  | [] => none
  | b :: bs =>
    let major := b.toNat / 32
    let info := b.toNat % 32
    if info < 24 then some (major, info, .definite info, bs)
    else if info < 28 then
      (take? (Nat.pow 2 (info - 24)) bs).map fun (front, rest) =>
        (major, info, .definite (ofBigEndian front), rest)
    else if info == 31 then some (major, info, .indefinite, bs)
    else none

def many {α : Type} (one : List UInt8 → Option (α × List UInt8)) :
    Nat → List UInt8 → Option (List α × List UInt8)
  | 0, bs => some ([], bs)
  | n + 1, bs => do
    let (a, bs) ← one bs
    let (as, bs) ← many one n bs
    return (a :: as, bs)

/-- Reads members up to the mark of an end. Each takes a byte at least, which bounds the rounds. -/
def untilBreak {α : Type} (one : List UInt8 → Option (α × List UInt8)) :
    (rounds : Nat) → List UInt8 → Option (List α × List UInt8)
  | 0, _ => none
  | n + 1, bs =>
    match bs with
    | 0xff :: rest => some ([], rest)
    | bs => do
      let (a, bs) ← one bs
      let (as, bs) ← untilBreak one n bs
      return (a :: as, bs)

def members {α : Type} (one : List UInt8 → Option (α × List UInt8)) (size : Size)
    (bs : List UInt8) : Option (List α × List UInt8) :=
  match size with
  | .definite n => if maxMembers < n then none else many one n bs
  | .indefinite => do
    let (as, bs) ← untilBreak one (bs.length + 1) bs
    if maxMembers < as.length then none else return (as, bs)

def chunk? (major : Nat) (bs : List UInt8) : Option (List UInt8 × List UInt8) := do
  let (m, _, size, bs) ← head? bs
  match size with
  | .definite n => if m == major then take? n bs else none
  | .indefinite => none

def string? (major : Nat) (size : Size) (bs : List UInt8) : Option (List UInt8 × List UInt8) :=
  match size with
  | .definite n => take? n bs
  | .indefinite => do
    let (parts, bs) ← untilBreak (chunk? major) (bs.length + 1) bs
    return (parts.flatten, bs)

def utf8? (bs : List UInt8) : Option String := String.fromUTF8? ⟨bs.toArray⟩

def simple? (info : Nat) (size : Size) (bs : List UInt8) : Option (Item × List UInt8) :=
  match info, size with
  | 24, .definite n => if n < 32 then none else some (.simple n, bs)
  | 25, .definite n => some (.float (FloatFormat.half.value n), bs)
  | 26, .definite n => some (.float (FloatFormat.single.value n), bs)
  | 27, .definite n => some (.float ⟨UInt64.ofNat n⟩, bs)
  | _, .definite n => some (.simple n, bs)
  | _, .indefinite => none

def pair? (one : List UInt8 → Option (Item × List UInt8)) (bs : List UInt8) :
    Option ((Item × Item) × List UInt8) := do
  let (k, bs) ← one bs
  let (v, bs) ← one bs
  return ((k, v), bs)

/-- Reads an item with at most `levels` levels of nesting, and gives the bytes behind it. -/
def item? (levels : Nat) (bs : List UInt8) : Option (Item × List UInt8) :=
  match head? bs with
  | none => none
  | some (major, info, size, bs) =>
    match major, size, levels with
    | 0, .definite n, _ => some (.uint n, bs)
    | 1, .definite n, _ => some (.negInt n, bs)
    | 2, size, _ => do
      let (content, bs) ← string? 2 size bs
      return (.bytes content, bs)
    | 3, size, _ => do
      let (content, bs) ← string? 3 size bs
      return (.text (← utf8? content), bs)
    | 4, size, levels + 1 => do
      let (items, bs) ← members (item? levels) size bs
      return (.array items, bs)
    | 5, size, levels + 1 => do
      let (entries, bs) ← members (pair? (item? levels)) size bs
      return (.map entries, bs)
    | 6, .definite n, levels + 1 => do
      let (item, bs) ← item? levels bs
      return (.tag n item, bs)
    | 7, size, _ => simple? info size bs
    | _, _, _ => none

def decode? (bs : List UInt8) : Option Item :=
  match item? maxLevels bs with
  | some (item, []) => some item
  | _ => none

end Scripting.Cbor
