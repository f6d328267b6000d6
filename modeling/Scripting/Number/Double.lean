import Scripting.Number.Exponential

/-!
# Arithmetic of doubles

The remainder, exact and with the sign of the dividend, and powers, by repeated squaring of the
mantissa so that no intermediate result leaves the range.
-/

namespace Scripting.Double

def remainder (x y : Float) : Float :=
  if x.isNaN || y.isNaN || x.isInf || y == 0 then 0.0 / 0.0
  else if y.isInf then x
  else
    let (mx, qx) := magnitude x
    let (my, qy) := magnitude y
    let q := min qx qy
    let r := (mx * Nat.pow 2 (qx - q).toNat) % (my * Nat.pow 2 (qy - q).toNat)
    let size := nearest r q
    if isNegative x then -size else size

def isOdd (y : Float) : Bool :=
  let (m, q) := magnitude y
  if q ≥ 0 then q == 0 && m % 2 == 1
  else
    let d := Nat.pow 2 (-q).toNat
    m % d == 0 && m / d % 2 == 1

/-- Multiplies `a * 2 ^ e` by the power `(x * 2 ^ xe) ^ i`, squaring once for each bit of `i`. A
mantissa below a half is doubled. Exponents beyond all doubles end the loop. -/
def powLoop : Nat → (i : Nat) → (a : Float) → (e : Int) → (x : Float) → (xe : Int) → Float × Int
  | 0, _, a, e, _, _ => (a, e)
  | n + 1, i, a, e, x, xe =>
    if i == 0 then (a, e)
    else if xe < -4096 || 4096 < xe then (a, e + xe)
    else
      let (a, e) := if i % 2 == 1 then (a * x, e + xe) else (a, e)
      let y := x * x
      let ye := xe * 2
      if y < 0.5 then powLoop n (i / 2) a e (y + y) (ye - 1) else powLoop n (i / 2) a e y ye

/-- A power with finite arguments, the base neither zero nor one and the exponent neither zero, one
nor a half. -/
def powFinite (x y : Float) : Float :=
  let size := y.abs
  let whole := size.floor
  let frac := size - whole
  if frac != 0 && x < 0 then 0.0 / 0.0
  else if whole ≥ 9223372036854775808.0 then
    if x == -1 then 1
    else if (x.abs < 1) == (y > 0) then 0
    else 1.0 / 0.0
  else
    let (frac, whole) := if frac > 0.5 then (frac - 1, whole + 1) else (frac, whole)
    let a := if frac != 0 then exp (frac * log x) else 1.0
    let (x, xe) := x.frExp
    let (a, e) := powLoop 64 whole.toUInt64.toNat a 0 x xe
    if y < 0 then (1 / a).scaleB (-e) else a.scaleB e

def powUnlimited (x y : Float) : Float :=
  if y == 0 || x == 1 then 1
  else if y == 1 then x
  else if x.isNaN || y.isNaN then 0.0 / 0.0
  else if x == 0 then
    if y < 0 then
      if isNegative x && isOdd y then -1.0 / 0.0 else 1.0 / 0.0
    else if isNegative x && isOdd y then x
    else 0
  else if y.isInf then
    if x == -1 then 1
    else if (x.abs < 1) == (y > 0) then 0
    else 1.0 / 0.0
  else if x.isInf then (if y < 0 then 0 else 1.0 / 0.0)
  else if y == 0.5 then x.sqrt
  else if y == -0.5 then 1 / x.sqrt
  else powFinite x y

def pow (x y : Float) : Float :=
  if x.isInf && x < 0 && !(y == 0) && !(y == 1) && !y.isNaN && !y.isInf then
    powUnlimited (1 / x) (-y)
  else powUnlimited x y

end Scripting.Double
