import Scripting.Code.Opcode
import Scripting.Value.Text

/-!
# Reading and writing code

A chunk is written byte by byte, each byte with its source line, and read in little-endian words.
Words may reach into the storage behind the code, which holds what was put there or zeros.
Its constants are kept once: scalars by value, other objects by identity.
-/

namespace Scripting

def Value.constKey : Value → ConstKey
  | int n => .int n.toUInt64
  | float x => .float x.bits
  | str s => .str s
  | bool b => .bool b
  | char c => .char c.toUInt32
  | unit => .unit
  | absent => .object "" 0
  | array r => .object "array" r
  | inst r => .object "inst" r
  | cell r => .object "cell" r
  | host r => .object "host" r
  | func r => .object "func" r
  | type i _ => .object "type" i
  | builtin i _ => .object "builtin" i
  | ctor i _ => .object "ctor" i
  | closure i _ _ => .object "closure" i

/-- Constants, with the position of the first one of each key. -/
structure Pool where
  values : Array Value := #[]
  index : Std.TreeMap ConstKey Nat := {}

def Pool.add (p : Pool) (v : Value) : Nat × Pool :=
  match p.index[v.constKey]? with
  | some i => (i, p)
  | none =>
    (p.values.size, ⟨p.values.push v, p.index.insert v.constKey p.values.size⟩)

def Pool.indexFrom (index : Std.TreeMap ConstKey Nat) (i : Nat) : List Value → Std.TreeMap ConstKey Nat
  | [] => index
  | v :: vs => indexFrom (index.insertIfNew v.constKey i) (i + 1) vs

def Pool.ofValues (values : Array Value) : Pool := ⟨values, indexFrom {} 0 values.toList⟩

def littleEndian : (width n : Nat) → List UInt8
  | 0, _ => []
  | w + 1, n => UInt8.ofNat n :: littleEndian w (n / 256)

def wordBytes (width : Nat) (n : Int) : List UInt8 :=
  littleEndian width (n.emod (Nat.pow 2 (8 * width) : Nat)).toNat

def ofLittleEndian : List UInt8 → Nat
  | [] => 0
  | b :: bs => b.toNat + 256 * ofLittleEndian bs

namespace Chunk

/-- The storage behind `size` bytes of code once one more byte is written. New storage holds zeros, so
what stood in the old one is lost when that is full. -/
def spareAfterPush (size : Nat) : (spare : List UInt8) → List UInt8
  | _ :: rest => rest
  | [] => List.replicate (Storage.grown size - size - 1) 0

def writeByte : Chunk → UInt8 → Int → Chunk
  | ⟨code, spare, lines, constants, file, index⟩, b, line =>
    let spare := spareAfterPush code.size spare
    ⟨code.push b, spare, lines.push line, constants, file, index⟩

def writeBytes (c : Chunk) (bs : List UInt8) (line : Int) : Chunk :=
  bs.foldl (fun c b => c.writeByte b line) c

def writeWord (c : Chunk) (width : Nat) (n : Int) (line : Int) : Chunk :=
  c.writeBytes (wordBytes width n) line

/-- The widths of `count` operands of an instruction; those behind the fixed ones of `closure` describe
captured variables. -/
def operandWidths (op : Opcode) (count : Nat) : List Nat :=
  op.widths ++ if op == .closure then
      (List.range (count - op.widths.length)).map fun i => if i % 2 == 0 then 1 else 2
    else []

def writeInstruction (c : Chunk) (op : Opcode) (operands : List Int) (line : Int) : Chunk :=
  ((operandWidths op operands.length).zip operands).foldl
    (fun c (w, n) => c.writeWord w n line) (c.writeBytes [op.byte] line)

def readWord? (c : Chunk) (width offset : Nat) : Option Nat :=
  if offset + width ≤ c.code.size then
    some (ofLittleEndian (c.code.extract offset (offset + width)).toList)
  else none

def storedByte? (c : Chunk) (offset : Nat) : Option UInt8 :=
  if offset < c.code.size then c.code[offset]? else c.spare[offset - c.code.size]?

/-- The number of the given width at an offset. It may reach behind the code, as far as there is
storage. -/
def peekWord? (c : Chunk) (width offset : Nat) : Option Nat := do
  let bytes ← (List.range width).mapM fun k => c.storedByte? (offset + k)
  return ofLittleEndian bytes

def storeByte? (c : Chunk) (offset : Nat) (b : UInt8) : Option Chunk :=
  let behind := offset - c.code.size
  if offset < c.code.size then some { c with code := c.code.setIfInBounds offset b }
  else if behind < c.spare.length then some { c with spare := c.spare.set behind b }
  else none

def storeBytes? (c : Chunk) (offset : Nat) : List UInt8 → Option Chunk
  | [] => some c
  | b :: bs => do (← c.storeByte? offset b).storeBytes? (offset + 1) bs

def patch? (c : Chunk) (offset : Nat) (n : Int) : Option Chunk :=
  c.storeBytes? offset (wordBytes 4 n)

def pool (c : Chunk) : Pool :=
  match c.index with
  | some index => ⟨c.constants, index⟩
  | none => .ofValues c.constants

def addConstant (c : Chunk) (v : Value) : Nat × Chunk :=
  let (i, p) := c.pool.add v
  (i, { c with constants := p.values, index := some p.index })

end Chunk

end Scripting
