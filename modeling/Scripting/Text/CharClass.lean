import Scripting.Text.LetterRanges
import Scripting.Text.PrintRanges
import Scripting.Text.CaseRanges

/-!
# Character classes

Letters, upper-case letters, printable characters, white space and the one-to-one case mappings of
Unicode 17.0, each a lookup in a table of ranges. ASCII is answered without the tables.
-/

namespace Scripting.Text

/-- Binary search for the range of `rs` that holds `n`, between the positions `lo` and `hi`. -/
def searchRanges (rs : Array (Nat × Nat)) (n : Nat) (lo hi : Nat) : Bool :=
  if lo < hi then
    let mid := (lo + hi) / 2
    match rs[mid]? with
    | none => false
    | some (a, b) =>
      if n < a then searchRanges rs n lo mid
      else if b < n then searchRanges rs n (mid + 1) hi
      else true
  else false
termination_by hi - lo

def inRanges (rs : Array (Nat × Nat)) (n : Nat) : Bool :=
  searchRanges rs n 0 rs.size

def onGrid (lo hi step n : Nat) : Bool :=
  lo ≤ n && n ≤ hi && (n - lo) % step == 0

def isLetter (c : Char) : Bool :=
  if c.toNat < 0x80 then c.isAlpha else inRanges letterRanges c.toNat

def isUpper (c : Char) : Bool :=
  if c.toNat < 0x80 then c.isUpper
  else upperRanges.any fun (lo, hi, step) => onGrid lo hi step c.toNat

/-- A character that is shown as itself inside quotes: a letter, mark, number, punctuation or symbol,
or the ASCII space. -/
def isPrint (c : Char) : Bool :=
  if c.toNat < 0x80 then 0x20 ≤ c.toNat && c.toNat < 0x7F else inRanges printRanges c.toNat

def isSpace (c : Char) : Bool :=
  let n := c.toNat
  (0x09 ≤ n && n ≤ 0x0D) || n == 0x20 || n == 0x85 || n == 0xA0 || n == 0x1680
    || (0x2000 ≤ n && n ≤ 0x200A) || n == 0x2028 || n == 0x2029 || n == 0x202F || n == 0x205F
    || n == 0x3000

/-- The image of `c` under the first entry of a case mapping that covers it, or `c` itself. -/
def mapCase (table : Array (Nat × Nat × Nat × Int)) (c : Char) : Char :=
  match table.find? fun (lo, hi, step, _) => onGrid lo hi step c.toNat with
  | some (_, _, _, delta) => Char.ofNat ((c.toNat : Int) + delta).toNat
  | none => c

def toUpper (c : Char) : Char :=
  if c.toNat < 0x80 then c.toUpper else mapCase toUpperRanges c

def toLower (c : Char) : Char :=
  if c.toNat < 0x80 then c.toLower else mapCase toLowerRanges c

/-- Small letters with the same capital written in several characters, by the code of the letter that
stands for both. -/
def foldTwins : List (Nat × Nat) := [(0xFB05, 0xFB06), (0x1FD3, 0x390), (0x1FE3, 0x3B0)]

/-- Two characters are the same up to case exactly if their keys agree. The dotted capital and the
dotless small i have no case partner. -/
def foldKey (c : Char) : Char :=
  if c == 'İ' || c == 'ı' then c
  else
    match foldTwins.lookup c.toNat with
    | some n => Char.ofNat n
    | none => toLower (toUpper c)

def upper (s : String) : String := String.ofList (s.toList.map toUpper)

def lower (s : String) : String := String.ofList (s.toList.map toLower)

def equalFold (s t : String) : Bool := s.toList.map foldKey == t.toList.map foldKey

def trim (s : String) : String :=
  String.ofList (((s.toList.dropWhile isSpace).reverse.dropWhile isSpace).reverse)

def startsUpper (s : String) : Bool :=
  match s.toList with
  | [] => false
  | c :: _ => isUpper c

end Scripting.Text
