import Scripting.Text.CharClass
import Scripting.Text.Hex

/-!
# Documents

Manifests and configurations are documents: scalars, sequences and mappings. A record is read from a
mapping field by field. A field that is missing or null keeps its default, and a field of the wrong
shape spoils the whole record. `Rules` says what a scalar may be read as, which depends on the format
that the document was written in.

Block documents and typed documents share the characters behind a backslash, and line ends.
-/

namespace Scripting

/-- A document. -/
inductive Document where
  /-- A scalar. Only a plain one can be null, a number or a truth value. -/
  | scalar (text : String) (isPlain : Bool)
  | seq (items : List Document)
  | map (entries : List (String × Document))
deriving Inhabited

namespace Document

def null : Document := .scalar "null" true

def nullWords : List String := ["", "~", "null", "Null", "NULL"]

def isNull : Document → Bool
  | .scalar s isPlain => isPlain && nullWords.contains s
  | _ => false

def digits? (base : Nat) : List Char → Option Nat
  | [] => none
  | cs => cs.foldlM (fun n c => ((Hex.digit? c).filter (· < base)).map (n * base + ·)) 0

/-- A number without sign. A zero in front marks the base: sixteen, eight or two by a letter, and eight
without one. -/
def natural? : List Char → Option Nat
  | ['0'] => some 0
  | '0' :: c :: cs =>
    if c == 'x' || c == 'X' then digits? 16 cs
    else if c == 'o' || c == 'O' then digits? 8 cs
    else if c == 'b' || c == 'B' then digits? 2 cs
    else digits? 8 (c :: cs)
  | cs => digits? 10 cs

def signed? (number? : List Char → Option Nat) : List Char → Option Int
  | '-' :: cs => (number? cs).map fun n => -(n : Int)
  | '+' :: cs => (number? cs).map fun n => (n : Int)
  | cs => (number? cs).map fun n => (n : Int)

def truncated? (cs : List Char) : Option Nat := do
  let mantissa := cs.takeWhile fun c => c != 'e' && c != 'E'
  let exponent ← match cs.drop mantissa.length with
    | [] => some 0
    | _ :: e => signed? (digits? 10) e
  let whole := mantissa.takeWhile (· != '.')
  let fraction := (mantissa.drop whole.length).drop 1
  let n ← digits? 10 (whole ++ fraction)
  let shift := exponent - fraction.length
  if 400 < shift then none
  else if 0 ≤ shift then some (n * Nat.pow 10 shift.toNat)
  else some (n / Nat.pow 10 (min (-shift).toNat 400))

def fits (n : Int) : Bool := -9223372036854775808 ≤ n && n < 9223372036854775808

/-- A whole number; with `truncates`, also the whole part of another number. Underscores count for
nothing. -/
def integer? (truncates : Bool) (text : String) : Option Int :=
  let cs := text.toList.filter (· != '_')
  match (signed? natural? cs).filter fits with
  | some n => some n
  | none => if truncates then (signed? truncated? cs).filter fits else none

/-- What scalars may be read as. -/
structure Rules where
  /-- Whether any scalar is a text. -/
  anyText : Bool
  /-- Whether a fraction can be cut off. -/
  truncates : Bool
  /-- Words for true and for false, and whether they may be quoted. -/
  trueWords : List String
  falseWords : List String
  looseTrue : List String := []
  looseFalse : List String := []
  /-- Whether the names of fields are found whatever their case. -/
  foldsCase : Bool

def Rules.block : Rules where
  anyText := true
  truncates := true
  trueWords := ["true", "True", "TRUE"]
  falseWords := ["false", "False", "FALSE"]
  looseTrue := ["y", "Y", "yes", "on"]
  looseFalse := ["n", "N", "no", "off"]
  foldsCase := false

def Rules.typed : Rules where
  anyText := false
  truncates := false
  trueWords := ["true"]
  falseWords := ["false"]
  foldsCase := true

/-- The shape does not fit. -/
structure Mismatch where

abbrev Reading (α : Type) := Except Mismatch (Option α)

variable (r : Rules)

def readText (d : Document) : Reading String :=
  match d with
  | .scalar s isPlain =>
    if d.isNull then .ok none
    else if isPlain && !r.anyText then .error {}
    else .ok (some s)
  | _ => .error {}

def readInt (d : Document) : Reading Int :=
  match d with
  | .scalar s true =>
    if d.isNull then .ok none
    else match integer? r.truncates s with
      | some n => .ok (some n)
      | none => .error {}
  | _ => .error {}

def readBool (d : Document) : Reading Bool :=
  match d with
  | .scalar s isPlain =>
    if d.isNull then .ok none
    else if isPlain && r.trueWords.contains s || r.looseTrue.contains s then .ok (some true)
    else if isPlain && r.falseWords.contains s || r.looseFalse.contains s then .ok (some false)
    else .error {}
  | _ => .error {}

def readList {α : Type} (item : Document → Reading α) (d : Document) : Reading (List α) :=
  match d with
  | .seq items =>
    (items.mapM (m := Except Mismatch) item).map fun xs => some (xs.filterMap id)
  | d => if d.isNull then .ok none else .error {}

def distinct : List String → Bool
  | [] => true
  | k :: ks => !ks.contains k && distinct ks

def readRecord {α : Type} (record : List (String × Document) → Except Mismatch α) (d : Document) :
    Reading α :=
  match d with
  | .map entries =>
    if distinct (entries.map Prod.fst) then (record entries).map some else .error {}
  | d => if d.isNull then .ok none else .error {}

def entry? (entries : List (String × Document)) (name : String) : Option Document :=
  match entries.lookup name with
  | some d => some d
  | none =>
    if r.foldsCase then
      (entries.find? fun e => Text.equalFold e.1 name).map Prod.snd
    else none

def field {α : Type} (entries : List (String × Document)) (name : String) (default : α)
    (read : Document → Reading α) : Except Mismatch α :=
  match entry? r entries name with
  | none => .ok default
  | some d => Except.map (fun x => x.getD default) (read d)

def unixLines : List Char → List Char
  | '\r' :: '\n' :: cs => '\n' :: unixLines cs
  | '\r' :: cs => '\n' :: unixLines cs
  | c :: cs => c :: unixLines cs
  | [] => []

def isBlank (c : Char) : Bool := c == ' ' || c == '\t'

def hexNumber? (cs : List Char) : Option Nat :=
  cs.foldlM (fun n c => (Hex.digit? c).map (n * 16 + ·)) 0

/-- The character whose code is written in the next `width` hexadecimal digits. Half of a surrogate
pair is no character. -/
def coded? (width : Nat) (cs : List Char) : Option (Char × List Char) :=
  if cs.length < width then none
  else do
    let n ← hexNumber? (cs.take width)
    if n.isValidChar then return (Char.ofNat n, cs.drop width) else none

def escaped? (table : List (Char × Char)) (cs : List Char) : Option (Char × List Char) :=
  match cs with
  | [] => none
  | 'u' :: cs => coded? 4 cs
  | 'U' :: cs => coded? 8 cs
  | c :: cs => (table.lookup c).map (·, cs)

end Document

end Scripting
