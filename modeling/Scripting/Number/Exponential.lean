import Scripting.Number.Rounding

/-!
# Logarithms and exponentials of doubles

`Double.log` takes the logarithm of the mantissa from a polynomial and adds the exponent's share.
`Double.exp` divides by `log 2`, takes the exponential of a sixteenth of the remainder from its
series, and squares it four times. Both are good to the last place or so; the order of their steps
fixes that place.
-/

namespace Scripting.Double

/-- The coefficients of the odd powers in the logarithm's polynomial, highest first. -/
def logOdd : List Float :=
  [1.479819860511658591e-01, 1.818357216161805012e-01, 2.857142874366239149e-01,
    6.666666666666735130e-01]

/-- The coefficients of the even powers in the logarithm's polynomial, highest first. -/
def logEven : List Float :=
  [1.531383769920937332e-01, 2.222219843214978396e-01, 3.999999999940941908e-01]

def horner (x : Float) : List Float → Float
  | [] => 0
  | c :: cs => cs.foldl (fun y c => c + x * y) c

/-- The leading digits of the logarithm of two, so few that a product with an exponent is exact. -/
def logTwoHigh : Float := 6.93147180369123816490e-01

def logTwoLow : Float := 1.90821492927058770002e-10

/-- The natural logarithm of a positive finite number. The mantissa is brought between the roots of
a half and of two; that of a number below the normal range is taken as if its leading digit were
there. -/
def log (x : Float) : Float :=
  let b := x.toBits
  let mantissa := Float.ofBits ((b &&& 0xFFFFFFFFFFFFF) ||| 0x3FE0000000000000)
  let exponent := Float.ofNat ((b >>> 52) &&& 0x7FF).toNat - 1022
  let (mantissa, k) :=
    if 0.70710678118654752440 < mantissa then (mantissa, exponent)
    else (mantissa * 2, exponent - 1)
  let f := mantissa - 1
  let s := f / (2 + f)
  let s2 := s * s
  let s4 := s2 * s2
  let r := s2 * horner s4 logOdd + s4 * horner s4 logEven
  let half := 0.5 * f * f
  k * logTwoHigh - ((half - (s * (half + r) + k * logTwoLow)) - f)

/-- The whole number nearest to a double of at most 52 binary places, a half going to the even
neighbour. -/
def roundEven (x : Float) : Int :=
  let (m, q) := magnitude x
  let n : Int := if q < 0 then divEven m (Nat.pow 2 (-q).toNat) else m * Nat.pow 2 q.toNat
  if isNegative x then -n else n

def expSeries : List Float :=
  [2.4801587301587301587e-5, 1.9841269841269841270e-4, 1.3888888888888888889e-3,
    8.3333333333333333333e-3, 4.1666666666666666667e-2, 1.6666666666666666667e-1, 0.5, 1.0]

/-- The value of a polynomial with one rounding a step, its coefficients given highest first. -/
def hornerExact (x : Float) : List Float → Float
  | [] => 0
  | c :: cs => cs.foldl (fun y c => mulAdd y x c) c

/-- The exponential of a number whose exponential lies well inside the normal range. The last of the
four squarings adds the one that the others leave out. -/
def exp (x : Float) : Float :=
  let e := roundEven (1.4426950408889634073599246810018920 * x)
  let k := Float.ofInt e
  let x := mulAdd (-0.69314718055966295651160180568695068359375) k x
  let x := mulAdd (-0.28235290563031577122588448175013436025525412068e-12) k x
  let x := x * 0.0625
  let grow (y : Float) : Float := y * (y + 2)
  let y := grow (grow (grow (x * hornerExact x expSeries)))
  (mulAdd y (y + 2) 1).scaleB e

end Scripting.Double
