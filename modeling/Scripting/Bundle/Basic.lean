import Scripting.Cbor.Decode
import Scripting.Value.Basic

/-!
# Bundles

A bundle is a compiled script that can be stored: the script and every function that it reaches, with
the names of the globals and modules that it relies on. Functions of the host are kept by name.

A bundle is written as four bytes that mark it, followed by one CBOR map whose keys are small
numbers. Fields that are empty are left out where their absence means the same.
-/

namespace Scripting

/-- A constant of a stored function. -/
inductive Bundle.Constant where
  | int (n : Int64)
  | float (x : Double)
  | str (s : String)
  | bool (b : Bool)
  | char (code : Int64)
  | unit
  /-- A function, by its place in the bundle. -/
  | func (index : Int)
  | builtin (name : String)
  | ctor (typeName tag : String) (fields : List String)
  | inst (typeName tag : String) (names : List String) (fields : List Bundle.Constant)
  /-- A type as a value, by its text. -/
  | type (text : String)
  /-- A kind that this version does not know. -/
  | unknown (kind : Nat)
deriving Inhabited

/-- A stored function. -/
structure Bundle.Function where
  name : String
  arity : Int := 0
  localCount : Int := 0
  freeCount : Int := 0
  code : List UInt8 := []
  lines : List Int := []
  constants : List Bundle.Constant := []
  file : String := ""
deriving Inhabited

/-- A stored script. -/
structure Bundle where
  id : String := ""
  sourceFile : String := ""
  /-- The names of the global slots in order. -/
  globals : List String := []
  functions : List Bundle.Function := []
  /-- The place of the script among the functions. -/
  script : Int := 0
  /-- The modules to load before linking. -/
  modules : List String := []

namespace Bundle

open Cbor (Item)

def entry (key : Nat) (value : Item) : Item × Item := (.uint key, value)

def textEntry (key : Nat) (s : String) : List (Item × Item) :=
  if s.isEmpty then [] else [entry key (.text s)]

def intEntry (key : Nat) (n : Int) : List (Item × Item) :=
  if n == 0 then [] else [entry key (.ofInt n)]

def listEntry (key : Nat) (items : List Item) : List (Item × Item) :=
  if items.isEmpty then [] else [entry key (.array items)]

def textItems (ss : List String) : List Item := ss.map Item.text

mutual

def Constant.item : Constant → Item
  | .int n => .map (entry 1 (.uint 1) :: intEntry 2 n.toInt)
  | .float x => .map (entry 1 (.uint 2) :: if x.toFloat == 0 then [] else [entry 3 (.float x)])
  | .str s => .map (entry 1 (.uint 3) :: textEntry 4 s)
  | .bool b => .map (entry 1 (.uint 4) :: intEntry 2 (if b then 1 else 0))
  | .char c => .map (entry 1 (.uint 5) :: intEntry 2 c.toInt)
  | .unit => .map [entry 1 (.uint 6)]
  | .func i => .map (entry 1 (.uint 7) :: intEntry 2 i)
  | .builtin s => .map (entry 1 (.uint 8) :: textEntry 4 s)
  | .ctor t tag fields =>
    .map (entry 1 (.uint 9) :: textEntry 4 t ++ textEntry 5 tag ++ listEntry 6 (textItems fields))
  | .inst t tag names fields =>
    .map (entry 1 (.uint 10) :: textEntry 4 t ++ textEntry 5 tag ++ listEntry 6 (textItems names)
      ++ listEntry 7 (Constant.items fields))
  | .type s => .map (entry 1 (.uint 11) :: textEntry 4 s)
  | .unknown k => .map [entry 1 (.uint k)]

def Constant.items : List Constant → List Item
  | [] => []
  | c :: cs => c.item :: Constant.items cs

end

def listOrNull (items : List Item) : Item := if items.isEmpty then .null else .array items

def Function.item (f : Function) : Item :=
  .map ([entry 1 (.text f.name), entry 2 (.ofInt f.arity), entry 3 (.ofInt f.localCount),
    entry 4 (.ofInt f.freeCount), entry 5 (.bytes f.code), entry 6 (.array (f.lines.map Item.ofInt)),
    entry 7 (listOrNull (Constant.items f.constants))] ++ textEntry 8 f.file)

def item (b : Bundle) : Item :=
  .map ([entry 1 (.text b.id)] ++ textEntry 2 b.sourceFile
    ++ [entry 3 (listOrNull (textItems b.globals)),
      entry 4 (.array (b.functions.map Function.item)), entry 5 (.ofInt b.script)]
    ++ listEntry 6 (textItems b.modules))

def magic : List UInt8 := [0x4a, 0x5a, 0x42, 0x01]

def encode (b : Bundle) : List UInt8 := magic ++ b.item.encode

def untag : Item → Item
  | .tag _ i => untag i
  | i => i

def isNull : Item → Bool
  | .simple n => n == 22 || n == 23
  | _ => false

def readInt (i : Item) : Option Int :=
  match untag i with
  | .uint n => if n < 9223372036854775808 then some n else none
  | .negInt n => if n < 9223372036854775808 then some (-1 - n) else none
  | i => if isNull i then some 0 else none

def readByte (i : Item) : Option Nat :=
  match untag i with
  | .uint n => if n < 256 then some n else none
  | i => if isNull i then some 0 else none

def readFloat (i : Item) : Option Double :=
  match untag i with
  | .float x => some x
  | .uint n => some (.ofFloat (Float.ofNat n))
  | .negInt n => some (.ofFloat (Float.ofInt (-1 - n)))
  | i => if isNull i then some ⟨0⟩ else none

def readText (i : Item) : Option String :=
  match untag i with
  | .text s => some s
  | i => if isNull i then some "" else none

def readBytes (i : Item) : Option (List UInt8) :=
  match untag i with
  | .bytes bs => some bs
  | .array items => (items.mapM readByte).map fun ns => ns.map UInt8.ofNat
  | i => if isNull i then some [] else none

def readList {α : Type} (one : Item → Option α) (i : Item) : Option (List α) :=
  match untag i with
  | .array items => items.mapM one
  | i => if isNull i then some [] else none

def isKey : Item × Item → Bool
  | (.uint _, _) | (.negInt _, _) | (.text _, _) => true
  | _ => false

def hasKey (key : Nat) : Item × Item → Bool
  | (.uint n, _) => n == key
  | _ => false

def fields? (i : Item) : Option (List (Item × Item)) :=
  match untag i with
  | .map entries => if entries.all isKey then some entries else none
  | i => if isNull i then some [] else none

def field {α : Type} (entries : List (Item × Item)) (key : Nat) (default : α)
    (read : Item → Option α) : Option α :=
  match entries.find? (hasKey key) with
  | some (_, v) => read v
  | none => some default

def Constant.ofFields (kind : Nat) (n : Int) (x : Double) (text tag : String) (names : List String)
    (fields : List Constant) : Constant :=
  match kind with
  | 1 => .int (Int64.ofInt n)
  | 2 => .float x
  | 3 => .str text
  | 4 => .bool (n == 1)
  | 5 => .char (Int64.ofInt n)
  | 6 => .unit
  | 7 => .func n
  | 8 => .builtin text
  | 9 => .ctor text tag names
  | 10 => .inst text tag names fields
  | 11 => .type text
  | k => .unknown k

def Constant.read : (levels : Nat) → Item → Option Constant
  | 0, _ => none
  | levels + 1, i => do
    let es ← fields? i
    let kind ← field es 1 0 readByte
    let n ← field es 2 0 readInt
    let x ← field es 3 ⟨0⟩ readFloat
    let text ← field es 4 "" readText
    let tag ← field es 5 "" readText
    let names ← field es 6 [] (readList readText)
    let fields ← field es 7 [] (readList (Constant.read levels))
    return Constant.ofFields kind n x text tag names fields

def Function.read (i : Item) : Option Function := do
  let es ← fields? i
  let name ← field es 1 "" readText
  let arity ← field es 2 0 readInt
  let localCount ← field es 3 0 readInt
  let freeCount ← field es 4 0 readInt
  let code ← field es 5 [] readBytes
  let lines ← field es 6 [] (readList readInt)
  let constants ← field es 7 [] (readList (Constant.read (Cbor.maxLevels + 1)))
  let file ← field es 8 "" readText
  return { name, arity, localCount, freeCount, code, lines, constants, file }

def read (i : Item) : Option Bundle := do
  let es ← fields? i
  let id ← field es 1 "" readText
  let sourceFile ← field es 2 "" readText
  let globals ← field es 3 [] (readList readText)
  let functions ← field es 4 [] (readList Function.read)
  let script ← field es 5 0 readInt
  let modules ← field es 6 [] (readList readText)
  return { id, sourceFile, globals, functions, script, modules }

/-- Why bytes are no bundle. -/
inductive DecodeError where
  | notMarked
  | malformed
  | noScript (index : Int)

def DecodeError.message : DecodeError → String
  | notMarked => "not a jitzu bundle"
  | malformed => "bundle: unmarshal"
  | noScript i => "bundle: script index " ++ toString i ++ " out of range"

def decode (bs : List UInt8) : Except DecodeError Bundle :=
  if bs.take magic.length == magic then
    match (Cbor.decode? (bs.drop magic.length)).bind read with
    | none => .error .malformed
    | some b =>
      if 0 ≤ b.script && b.script < b.functions.length then .ok b else .error (.noScript b.script)
  else .error .notMarked

end Bundle

end Scripting
