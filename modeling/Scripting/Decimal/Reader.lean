import Scripting.Decimal.Notation
import Scripting.Number.Rounding
import Scripting.Text.Hex

/-!
# Reading doubles

The text of a double is a sign and then `inf`, `infinity`, or digits with an optional point and an
exponent; `nan` has no sign. A number in base sixteen starts with `0x`, and its exponent, which it
must have, is one of two. Underscores may stand between digits and behind `0x`. A number beyond all
doubles is refused; one too small for them is zero.
-/

namespace Scripting.Decimal

/-- The number of the digits of an exponent. It grows no further once it has reached 10000, which
decides every number that is not written with thousands of digits. -/
def exponentValue (ds : List Char) : Nat :=
  ds.foldl (fun e c => if e < 10000 then 10 * e + (c.toNat - 48) else e) 0

/-- How a number is written: its base, the digits before and behind the point, and the exponent. -/
structure Written where
  hex : Bool
  whole : List Char
  fraction : List Char
  exponent : Int

def runValue (hex : Bool) (ds : List Char) : Nat :=
  ds.foldl (fun n c => (if hex then 16 else 10) * n + (Hex.digit? c).getD 0) 0

def Written.value (w : Written) : Float :=
  let digits := runValue w.hex (w.whole ++ w.fraction)
  let places : Int := w.fraction.length
  if w.hex then Double.nearest digits (w.exponent - 4 * places)
  else toFloat digits (w.exponent - places)

def isDigitOf (hex : Bool) (c : Char) : Bool :=
  if hex then (Hex.digit? c).isSome else c.isDigit

/-- Whether every underscore has a digit on both sides. `behindDigit` says whether the text follows a
digit. -/
def spacedBy (hex : Bool) : (behindDigit : Bool) → List Char → Bool
  | _, [] => true
  | behindDigit, '_' :: c :: cs => behindDigit && isDigitOf hex c && spacedBy hex true cs
  | _, ['_'] => false
  | _, c :: cs => spacedBy hex (isDigitOf hex c) cs

def exponent? (cs : List Char) : Option Int :=
  let number? (ds : List Char) : Option Nat :=
    if ds.isEmpty || !ds.all Char.isDigit then none else some (exponentValue ds)
  match cs with
  | '-' :: ds => (number? ds).map fun n => -(n : Int)
  | '+' :: ds => (number? ds).map fun n => (n : Int)
  | ds => (number? ds).map fun n => (n : Int)

def written? (hex : Bool) (cs : List Char) : Option Written := do
  let whole := cs.takeWhile (isDigitOf hex)
  let (fraction, rest) := match cs.drop whole.length with
    | '.' :: cs => (cs.takeWhile (isDigitOf hex), cs.dropWhile (isDigitOf hex))
    | cs => ([], cs)
  if whole.isEmpty && fraction.isEmpty then none
  else
    match rest with
    | [] => if hex then none else return ⟨hex, whole, fraction, 0⟩
    | mark :: cs =>
      if mark.toLower == (if hex then 'p' else 'e') then
        return ⟨hex, whole, fraction, ← exponent? cs⟩
      else none

def unsigned? (cs : List Char) : Option Float :=
  let number? (hex behindDigit : Bool) (cs : List Char) : Option Float :=
    if spacedBy hex behindDigit cs then
      ((written? hex (cs.filter (· != '_'))).map Written.value).filter fun x => !x.isInf
    else none
  match cs with
  | '0' :: 'x' :: cs | '0' :: 'X' :: cs => number? true true cs
  | cs => number? false false cs

def read? (s : String) : Option Float :=
  let size? (cs : List Char) : Option Float :=
    if ["inf", "infinity"].contains (String.ofList (cs.map Char.toLower)) then some (1.0 / 0.0)
    else unsigned? cs
  match s.toList with
  | '-' :: cs => (size? cs).map fun x => -x
  | '+' :: cs => size? cs
  | cs => if cs.map Char.toLower == ['n', 'a', 'n'] then some (0.0 / 0.0) else size? cs

def readInt? (s : String) : Option Int64 := do
  let number? (ds : List Char) : Option Int :=
    if ds.isEmpty || !ds.all Char.isDigit then none else some (runValue false ds : Nat)
  let n ← match s.toList with
    | '-' :: ds => (number? ds).map fun n => -n
    | '+' :: ds => number? ds
    | ds => number? ds
  if -9223372036854775808 ≤ n && n < 9223372036854775808 then return Int64.ofInt n else none

end Scripting.Decimal
