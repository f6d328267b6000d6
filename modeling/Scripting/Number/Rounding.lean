import Scripting.Decimal.Shortest

/-!
# Exact numbers rounded to doubles

A finite double is `m * 2 ^ q`, so products and sums of doubles are such numbers too, with integers
that may be longer. `Double.nearest` is the double next to one of them, a tie going to the even
neighbour; `Double.mulAdd` is a product and a sum with that one rounding.
-/

namespace Scripting

/-- A double as it is stored. Two doubles that are no number may differ in their bits, which `Float`
does not keep apart. -/
structure Double where
  bits : UInt64
deriving DecidableEq, Repr, Inhabited

namespace Double

def toFloat (x : Double) : Float := Float.ofBits x.bits

def ofFloat (x : Float) : Double := ⟨if x.isNaN then 0x7FF8000000000001 else x.toBits⟩

def neg (x : Double) : Double := ⟨x.bits ^^^ 0x8000000000000000⟩

def isNegative (x : Float) : Bool := x.toBits >>> 63 == 1

def magnitude (x : Float) : Nat × Int :=
  let b := Decimal.Binary.ofBits (x.toBits &&& 0x7FFFFFFFFFFFFFFF)
  (b.m, b.q)

def stripTwos : Nat → Nat → Int → Nat × Int
  | 0, m, q => (m, q)
  | n + 1, m, q => if m != 0 && m % 2 == 0 then stripTwos n (m / 2) (q + 1) else (m, q)

def divEven (m d : Nat) : Nat :=
  let n := m / d
  match compare (2 * (m % d)) d with
  | .lt => n
  | .gt => n + 1
  | .eq => n + n % 2

/-- The double nearest to `m * 2 ^ q`. Its last place is worth `2 ^ e`, where `e` leaves 53 digits
but is no less than the least exponent. -/
def nearest (m : Nat) (q : Int) : Float :=
  let top : Int := m.log2 + 1 + q
  if m == 0 || top < -1100 then 0.0
  else if 1100 < top then 1.0 / 0.0
  else
    let e := max (top - 53) (-1074)
    let n := if q < e then divEven m (Nat.pow 2 (e - q).toNat) else m * Nat.pow 2 (q - e).toNat
    (Float.ofNat n).scaleB e

/-- A finite double in units of `2 ^ q`, for an exponent `q` no greater than its own. -/
def inUnits (q : Int) (x : Float) : Int :=
  let (m, p) := magnitude x
  let n : Int := (m * Nat.pow 2 (p - q).toNat : Nat)
  if isNegative x then -n else n

/-- The value `x * y + z` with a single rounding, for finite arguments. An exact zero has the sign
that rounding both steps gives it. -/
def mulAdd (x y z : Float) : Float :=
  let (mx, qx) := magnitude x
  let (my, qy) := magnitude y
  let q := min (qx + qy) (magnitude z).2
  let size : Int := (mx * my * Nat.pow 2 (qx + qy - q).toNat : Nat)
  let product := if isNegative x == isNegative y then size else -size
  let sum := product + inUnits q z
  if sum == 0 then x * y + z
  else if sum < 0 then -nearest sum.natAbs q
  else nearest sum.natAbs q

end Double

end Scripting
