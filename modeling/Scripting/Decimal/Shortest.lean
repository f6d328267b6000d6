/-!
# The fewest decimal digits that identify a double

`Binary` is a finite double as `m * 2 ^ q`. `Binary.shortest` gives the decimal with the fewest digits
among those that round to it, the nearest of these, an exact tie going to the even digit.
-/

namespace Scripting.Decimal

/-- A finite non-negative double, `m * 2 ^ q`. -/
structure Binary where
  m : Nat
  q : Int
  /-- The gap to the value below is half the gap to the value above. -/
  narrowBelow : Bool

def Binary.ofBits (b : UInt64) : Binary :=
  let e := ((b >>> 52) &&& 0x7FF).toNat
  let f := (b &&& 0xFFFFFFFFFFFFF).toNat
  if e == 0 then ⟨f, -1074, false⟩ else ⟨0x10000000000000 + f, (e : Int) - 1075, f == 0 && e > 1⟩

/-- The decimal `digits * 10 ^ exp`. -/
structure Dec where
  digits : Nat
  exp : Int
deriving DecidableEq

def cmpScaled (a : Nat) (i : Int) (n : Nat) (j : Int) : Ordering :=
  compare (a * Nat.pow 10 i.toNat * Nat.pow 2 (-j).toNat) (n * Nat.pow 2 j.toNat * Nat.pow 10 (-i).toNat)

/-- Whether `d` lies among the reals that round to `x`, to nearest with ties to even. -/
def Binary.readsBack (x : Binary) (d : Dec) : Bool :=
  let lo := if x.narrowBelow then 4 * x.m - 1 else 4 * x.m - 2
  let hi := 4 * x.m + 2
  let ends := x.m % 2 == 0
  let cl := cmpScaled d.digits d.exp lo (x.q - 2)
  let ch := cmpScaled d.digits d.exp hi (x.q - 2)
  (cl == .gt || (ends && cl == .eq)) && (ch == .lt || (ends && ch == .eq))

def Binary.floorAt (x : Binary) (e : Int) : Nat :=
  (x.m * Nat.pow 2 x.q.toNat * Nat.pow 10 (-e).toNat) / (Nat.pow 2 (-x.q).toNat * Nat.pow 10 e.toNat)

def Binary.scaleUp (x : Binary) : Nat → Int → Int
  | 0, k => k
  | fuel + 1, k => if cmpScaled 1 k x.m x.q == .gt then k else scaleUp x fuel (k + 1)

/-- The least `k` with the value below `10 ^ k`, for a value that is not zero. -/
def Binary.scale (x : Binary) : Int :=
  let bits : Int := x.m.log2 + x.q
  x.scaleUp 4 (bits * 30103 / 100000 - 1)

def Dec.strip : Nat → Dec → Dec
  | 0, d => d
  | fuel + 1, d =>
    if d.digits != 0 && d.digits % 10 == 0 then strip fuel ⟨d.digits / 10, d.exp + 1⟩ else d

/-- The neighbour of the value on the grid `10 ^ e` that reads back, if one does: of two, the nearer,
and on a tie the even one. -/
def Binary.onGrid? (x : Binary) (e : Int) : Option Dec :=
  let lo : Dec := ⟨x.floorAt e, e⟩
  let hi : Dec := ⟨lo.digits + 1, e⟩
  match x.readsBack lo, x.readsBack hi with
  | true, false => some lo
  | false, true => some hi
  | false, false => none
  | true, true =>
    match cmpScaled (lo.digits + hi.digits) e (2 * x.m) x.q with
    | .gt => some lo
    | .lt => some hi
    | .eq => some (if lo.digits % 2 == 0 then lo else hi)

def Binary.exact (x : Binary) : Dec :=
  ⟨x.m * Nat.pow 2 x.q.toNat * Nat.pow 5 (-x.q).toNat, -(-x.q).toNat⟩

def Binary.shortest (x : Binary) : Dec :=
  if x.m == 0 then ⟨0, 0⟩
  else
    let k := x.scale
    match (List.range 17).findSome? fun (n : Nat) => x.onGrid? (k - ((n : Int) + 1)) with
    | some d => d.strip 20
    | none => x.exact.strip 1100

end Scripting.Decimal
