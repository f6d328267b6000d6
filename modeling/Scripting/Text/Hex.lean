/-!
# Bytes in base 16
-/

namespace Scripting.Hex

def digit? (c : Char) : Option Nat :=
  if c.isDigit then some (c.toNat - '0'.toNat)
  else if 'a' ≤ c && c ≤ 'f' then some (c.toNat - 'a'.toNat + 10)
  else if 'A' ≤ c && c ≤ 'F' then some (c.toNat - 'A'.toNat + 10)
  else none

def digit (n : Nat) : Char := (Nat.toDigits 16 n).headD '0'

def encode (bs : List UInt8) : String :=
  String.ofList (bs.flatMap fun b => [digit (b.toNat / 16), digit (b.toNat % 16)])

def decodeChars? : List Char → Option (List UInt8)
  | [] => some []
  | [_] => none
  | a :: b :: rest => do
    let hi ← digit? a
    let lo ← digit? b
    let bs ← decodeChars? rest
    return UInt8.ofNat (16 * hi + lo) :: bs

def decode? (s : String) : Option (List UInt8) := decodeChars? s.toList

end Scripting.Hex
