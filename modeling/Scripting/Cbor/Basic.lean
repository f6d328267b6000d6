import Scripting.Number.Rounding

/-!
# CBOR

The concise binary object representation: a tree of data items, each written as a head that gives
its kind and size, followed by its content. Items are written in the canonical way: heads and
floating-point numbers are as short as they can be.
-/

namespace Scripting.Cbor

/-- A data item. -/
inductive Item where
  | uint (n : Nat)
  /-- The number `-1 - n`. -/
  | negInt (n : Nat)
  | bytes (content : List UInt8)
  | text (content : String)
  | array (items : List Item)
  | map (entries : List (Item × Item))
  | tag (number : Nat) (item : Item)
  | simple (n : Nat)
  | float (x : Double)
deriving Inhabited

def Item.null : Item := .simple 22

def Item.ofInt (n : Int) : Item :=
  if n < 0 then .negInt (-1 - n).toNat else .uint n.toNat

def bigEndian (width n : Nat) : List UInt8 :=
  (List.range width).reverse.map fun k => UInt8.ofNat (n / Nat.pow 256 k)

def ofBigEndian (bs : List UInt8) : Nat := bs.foldl (fun n b => n * 256 + b.toNat) 0

def head (major n : Nat) : List UInt8 :=
  let first (info : Nat) : UInt8 := UInt8.ofNat (32 * major + info)
  if n < 24 then [first n]
  else if n < 0x100 then first 24 :: bigEndian 1 n
  else if n < 0x10000 then first 25 :: bigEndian 2 n
  else if n < 0x100000000 then first 26 :: bigEndian 4 n
  else first 27 :: bigEndian 8 n

/-- A binary format: how many bits the exponent and the fraction take. -/
structure FloatFormat where
  exponent : Nat
  fraction : Nat

namespace FloatFormat

def half : FloatFormat := ⟨5, 10⟩
def single : FloatFormat := ⟨8, 23⟩
def double : FloatFormat := ⟨11, 52⟩

def unit (f : FloatFormat) : Nat := Nat.pow 2 f.fraction

def bias (f : FloatFormat) : Int := (Nat.pow 2 (f.exponent - 1) : Nat) - 1

def special (f : FloatFormat) : Nat := Nat.pow 2 f.exponent - 1

/-- The bits of `m * 2 ^ q`, without the sign, if the format holds the number exactly; `m` is odd. -/
def bits? (f : FloatFormat) (m : Nat) (q : Int) : Option Nat :=
  let least := 1 - f.bias
  let top := (m.log2 : Int) + q
  if top > f.bias || q < least - f.fraction then none
  else if least ≤ top then
    if m.log2 ≤ f.fraction then
      some ((top + f.bias).toNat * f.unit + (m * Nat.pow 2 (f.fraction - m.log2) - f.unit))
    else none
  else some (m * Nat.pow 2 (q - (least - f.fraction)).toNat)

/-- The bits of a double that is no number, with a sign and the high bits of a fraction. It never
signals. -/
def quiet (f : FloatFormat) (sign fraction : Nat) : Double :=
  let place := double.fraction - f.fraction
  ⟨UInt64.ofNat (sign * Nat.pow 2 63) ||| 0x7FF8000000000000
    ||| UInt64.ofNat (fraction * Nat.pow 2 place)⟩

def value (f : FloatFormat) (bits : Nat) : Double :=
  let fraction := bits % f.unit
  let exponent := bits / f.unit % Nat.pow 2 f.exponent
  let sign := bits / Nat.pow 2 (f.fraction + f.exponent)
  if exponent == f.special && fraction != 0 then f.quiet sign fraction
  else
    let size : Float :=
      if exponent == f.special then 1.0 / 0.0
      else if exponent == 0 then
        Double.nearest fraction (1 - f.bias - f.fraction)
      else Double.nearest (f.unit + fraction) (exponent - f.bias - f.fraction)
    .ofFloat (if sign == 1 then -size else size)

end FloatFormat

def floatBytes (d : Double) : List UInt8 :=
  let x := d.toFloat
  if x.isNaN then [0xf9, 0x7e, 0x00]
  else
    let sign : Nat := if Double.isNegative x then 1 else 0
    if x.isInf then 0xf9 :: bigEndian 2 (sign * 0x8000 + 0x7c00)
    else if x == 0 then 0xf9 :: bigEndian 2 (sign * 0x8000)
    else
      let (m, q) := Double.magnitude x
      let (m, q) := Double.stripTwos 64 m q
      match FloatFormat.half.bits? m q, FloatFormat.single.bits? m q with
      | some b, _ => 0xf9 :: bigEndian 2 (sign * 0x8000 + b)
      | none, some b => 0xfa :: bigEndian 4 (sign * 0x80000000 + b)
      | none, none => 0xfb :: bigEndian 8 d.bits.toNat

mutual

def Item.encode : Item → List UInt8
  | .uint n => head 0 n
  | .negInt n => head 1 n
  | .bytes bs => head 2 bs.length ++ bs
  | .text s =>
    let bs := s.toUTF8.toList
    head 3 bs.length ++ bs
  | .array items => head 4 items.length ++ encodeItems items
  | .map entries => head 5 entries.length ++ encodeEntries entries
  | .tag n item => head 6 n ++ item.encode
  | .simple n => head 7 n
  | .float x => floatBytes x

def encodeItems : List Item → List UInt8
  | [] => []
  | i :: is => i.encode ++ encodeItems is

def encodeEntries : List (Item × Item) → List UInt8
  | [] => []
  | (k, v) :: es => k.encode ++ v.encode ++ encodeEntries es

end

end Scripting.Cbor
