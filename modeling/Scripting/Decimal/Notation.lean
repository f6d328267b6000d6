import Scripting.Decimal.Shortest

/-!
# Decimal notation of doubles

A double is written with the fewest digits that identify it: positionally while the exponent of the
leading digit is at least -4 and below 6, otherwise with a signed
exponent of at least two digits.
-/

namespace Scripting.Decimal

def exponentText (e : Int) : String :=
  let digits := toString e.natAbs
  (if e < 0 then "e-" else "e+") ++ (if digits.length < 2 then "0" ++ digits else digits)

/-- Lays out `digits * 10 ^ exp`, positionally for leading exponents in `-4 ≤ e < plainBelow`. -/
def layout (plainBelow : Int) (d : Dec) : String :=
  let ds := (toString d.digits).toList
  let point : Int := ds.length + d.exp
  let lead := point - 1
  if lead < -4 || plainBelow ≤ lead then
    let mantissa := match ds with
      | [] => []
      | [c] => [c]
      | c :: rest => c :: '.' :: rest
    String.ofList mantissa ++ exponentText lead
  else if point ≤ 0 then
    String.ofList ('0' :: '.' :: List.replicate (-point).toNat '0' ++ ds)
  else if ds.length ≤ point.toNat then
    String.ofList (ds ++ List.replicate (point.toNat - ds.length) '0')
  else
    String.ofList (ds.take point.toNat ++ '.' :: ds.drop point.toNat)

def plainLimit : Int := 6

def ofFloat (x : Float) : String :=
  if x.isNaN then "NaN"
  else if x.isInf then (if x < 0 then "-Inf" else "+Inf")
  else
    let bits := x.toBits
    let sign := if bits >>> 63 == 1 then "-" else ""
    sign ++ layout plainLimit (Binary.ofBits (bits &&& 0x7FFFFFFFFFFFFFFF)).shortest

/-- The text of a double that never reads as an integer: `.0` is added to a number without point and
exponent. -/
def ofFloatPointed (x : Float) : String :=
  let s := ofFloat x
  if x.isNaN || x.isInf || s.any (fun c => c == '.' || c == 'e') then s else s ++ ".0"

/-- Reads `digits * 10 ^ exp`, rounded to nearest. Exponents far outside the range of doubles are
settled without computing the power. -/
def toFloat (digits : Nat) (exp : Int) : Float :=
  if digits == 0 then 0.0
  else
    let lead : Int := (toString digits).length + exp
    if lead > 400 then 1.0 / 0.0
    else if lead < -400 then 0.0
    else Float.ofScientific digits (exp < 0) exp.natAbs

end Scripting.Decimal
