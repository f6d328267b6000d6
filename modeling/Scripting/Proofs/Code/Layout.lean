import Mathlib.Algebra.GroupWithZero.Nat
import Mathlib.Data.List.Induction
import Scripting.Code.Assembly

/-!
# Where instructions stand

`Assembly.offset` is the sum of the sizes of the instructions before a place. `Assembly.code_drop`
says that the code of a placed assembly, from the offset of an instruction on, starts with the bytes
of that instruction. The lemmas before it read words back from bytes.

A shape tells how many values of its own a frame has on the stack and which of its slots hold a value
or a cell. `Limits.Asks` says what an instruction asks of the shape and of its operands, and
`Shape.after` what it leaves.
-/

namespace Scripting

@[simp] theorem littleEndian_length (w n : Nat) : (littleEndian w n).length = w := by
  induction w generalizing n with
  | zero => rfl
  | succ w ih => simp [littleEndian, ih]

theorem ofLittleEndian_littleEndian {w n : Nat} (h : n < 256 ^ w) :
    ofLittleEndian (littleEndian w n) = n := by
  induction w generalizing n with
  | zero =>
    have : n = 0 := by simpa using h
    simp [littleEndian, ofLittleEndian, this]
  | succ w ih =>
    have hdiv : n / 256 < 256 ^ w := by
      rw [Nat.pow_succ] at h
      exact Nat.div_lt_of_lt_mul (by rwa [Nat.mul_comm])
    have hbyte : (UInt8.ofNat n).toNat = n % 256 := by simp
    rw [littleEndian, ofLittleEndian, ih hdiv, hbyte]
    exact Nat.mod_add_div n 256

theorem littleEndian_mod (w n : Nat) : littleEndian w (n % 256 ^ w) = littleEndian w n := by
  induction w generalizing n with
  | zero => rfl
  | succ w ih =>
    have hbyte : UInt8.ofNat (n % 256 ^ (w + 1)) = UInt8.ofNat n := by
      rw [← UInt8.ofNat_mod_size, Nat.mod_mod_of_dvd n ⟨256 ^ w, Nat.pow_succ'⟩,
        UInt8.ofNat_mod_size]
    have hdiv : n % 256 ^ (w + 1) / 256 = n / 256 % 256 ^ w := by
      rw [Nat.pow_succ', Nat.mod_mul_right_div_self]
    rw [littleEndian, littleEndian, hbyte, hdiv, ih]

theorem littleEndian_one {n : Nat} (h : n < 256) : (UInt8.ofNat n).toNat = n := by
  simpa using Nat.mod_eq_of_lt h

namespace Chunk

theorem get?_of_drop {c : Chunk} {o : Nat} {b : UInt8} {rest : List UInt8}
    (h : c.code.toList.drop o = b :: rest) : c.code[o]? = some b := by
  have hget : c.code.toList[o]? = some b := by
    rw [← List.head?_drop, h]
    rfl
  simpa using hget

theorem drop_succ {c : Chunk} {o : Nat} {b : UInt8} {rest : List UInt8}
    (h : c.code.toList.drop o = b :: rest) : c.code.toList.drop (o + 1) = rest := by
  rw [← List.tail_drop, h]
  rfl

theorem drop_add {c : Chunk} {o : Nat} {bs rest : List UInt8}
    (h : c.code.toList.drop o = bs ++ rest) : c.code.toList.drop (o + bs.length) = rest := by
  rw [← List.drop_drop, h]
  simp

theorem room_of_drop {c : Chunk} {o : Nat} {bs rest : List UInt8} (hne : bs ≠ [])
    (h : c.code.toList.drop o = bs ++ rest) : o + bs.length ≤ c.code.size := by
  have hlen := congrArg List.length h
  have hpos : 0 < bs.length := List.length_pos_iff.mpr hne
  simp only [List.length_drop, List.length_append, Array.length_toList] at hlen
  omega

theorem readWord?_of_drop {c : Chunk} {w o n : Nat} {rest : List UInt8} (hw : 0 < w)
    (hn : n < 256 ^ w) (h : c.code.toList.drop o = littleEndian w n ++ rest) :
    c.readWord? w o = some n := by
  have hne : littleEndian w n ≠ [] := by
    intro he
    have := congrArg List.length he
    simp at this
    omega
  have hroom := room_of_drop hne h
  rw [littleEndian_length] at hroom
  have hbytes : (c.code.extract o (o + w)).toList = littleEndian w n := by
    rw [Array.toList_extract, List.extract_eq_take_drop, h]
    simp
  rw [readWord?, if_pos hroom, hbytes, ofLittleEndian_littleEndian hn]

theorem storedByte?_of_drop {c : Chunk} {o k : Nat} {bs rest : List UInt8} (hk : k < bs.length)
    (h : c.code.toList.drop o = bs ++ rest) : c.storedByte? (o + k) = bs[k]? := by
  have hne : bs ≠ [] := List.ne_nil_of_length_pos (by omega)
  have hroom := room_of_drop hne h
  have hget : c.code.toList[o + k]? = bs[k]? := by
    rw [← List.getElem?_drop, h, List.getElem?_append_left hk]
  rw [storedByte?, if_pos (by omega)]
  simpa using hget

theorem peekWord?_of_drop {c : Chunk} {w o n : Nat} {rest : List UInt8} (hn : n < 256 ^ w)
    (h : c.code.toList.drop o = littleEndian w n ++ rest) : c.peekWord? w o = some n := by
  have hread : ∀ ks : List Nat, (∀ k ∈ ks, k < w) →
      ks.mapM (fun k => c.storedByte? (o + k))
        = some (ks.map fun k => (littleEndian w n).getD k 0) := by
    intro ks hks
    induction ks with
    | nil => rfl
    | cons k ks ih =>
      have hk : k < (littleEndian w n).length := by simpa using hks k (by simp)
      rw [List.mapM_cons, storedByte?_of_drop hk h, ih fun j hj => hks j (by simp [hj])]
      simp [List.getD, List.getElem?_eq_getElem hk]
  have hall : (List.range w).map (fun k => (littleEndian w n).getD k 0) = littleEndian w n := by
    apply List.ext_getElem
    · simp
    · intro k h1 h2
      simp [List.getD, List.getElem?_eq_getElem h2]
  rw [peekWord?, hread _ (by simp), hall]
  simp [ofLittleEndian_littleEndian hn]

@[simp] theorem writeByte_code (c : Chunk) (b : UInt8) (line : Int) :
    (c.writeByte b line).code = c.code.push b := rfl

@[simp] theorem writeByte_lines (c : Chunk) (b : UInt8) (line : Int) :
    (c.writeByte b line).lines = c.lines.push line := rfl

@[simp] theorem writeByte_constants (c : Chunk) (b : UInt8) (line : Int) :
    (c.writeByte b line).constants = c.constants := rfl

@[simp] theorem writeByte_file (c : Chunk) (b : UInt8) (line : Int) :
    (c.writeByte b line).file = c.file := rfl

theorem writeBytes_cons (c : Chunk) (b : UInt8) (bs : List UInt8) (line : Int) :
    c.writeBytes (b :: bs) line = (c.writeByte b line).writeBytes bs line := rfl

@[simp] theorem writeBytes_code (c : Chunk) (bs : List UInt8) (line : Int) :
    (c.writeBytes bs line).code.toList = c.code.toList ++ bs := by
  induction bs generalizing c with
  | nil => simp [writeBytes]
  | cons b bs ih => simp [writeBytes_cons, ih]

@[simp] theorem writeBytes_lines (c : Chunk) (bs : List UInt8) (line : Int) :
    (c.writeBytes bs line).lines.toList = c.lines.toList ++ List.replicate bs.length line := by
  induction bs generalizing c with
  | nil => simp [writeBytes]
  | cons b bs ih => simp [writeBytes_cons, ih, List.replicate_succ]

@[simp] theorem writeBytes_constants (c : Chunk) (bs : List UInt8) (line : Int) :
    (c.writeBytes bs line).constants = c.constants := by
  induction bs generalizing c with
  | nil => rfl
  | cons b bs ih => simp [writeBytes_cons, ih]

@[simp] theorem writeBytes_file (c : Chunk) (bs : List UInt8) (line : Int) :
    (c.writeBytes bs line).file = c.file := by
  induction bs generalizing c with
  | nil => rfl
  | cons b bs ih => simp [writeBytes_cons, ih]

end Chunk

namespace Opcode

def isSpecial : Opcode → Bool
  | closure | jump | jumpIfFalse | loop => true
  | _ => false

theorem ofByte?_byte (c : Opcode) : ofByte? c.byte = some c := by
  cases c <;> decide

end Opcode

namespace Asm

/-- Whether there are as many operands as an instruction takes, each within its width. -/
def Fits : Asm → Prop
  | op c ns => c.isSpecial = false ∧ List.Forall₂ (fun w n => n < 256 ^ w) c.widths ns
  | closure k cs => k < 256 ^ 2 ∧ cs.length < 256 ∧ ∀ c ∈ cs, c.index < 256 ^ 2
  | _ => True

theorem length_words {ws ns : List Nat} (h : List.Forall₂ (fun w n => n < 256 ^ w) ws ns) :
    ((ws.zip ns).flatMap fun (w, n) => littleEndian w n).length = totalWidth ws := by
  induction h with
  | nil => rfl
  | cons _ _ ih => simp [totalWidth, ih] at ih ⊢

@[simp] theorem length_captureBytes (c : Capture) : (captureBytes c).length = 3 := by
  simp [captureBytes]

theorem length_captures (cs : List Capture) :
    (cs.flatMap captureBytes).length = 3 * cs.length := by
  induction cs with
  | nil => rfl
  | cons c cs ih =>
    rw [List.flatMap_cons, List.length_append, ih, length_captureBytes, List.length_cons]
    omega

theorem length_bytes {a : Asm} (h : a.Fits) (start : Nat → Nat) (i : Nat) :
    (a.bytes start i).length = a.size := by
  cases a with
  | op c ns => rw [bytes, size, List.length_cons, length_words h.2, Nat.add_comm]
  | closure k cs =>
    simp only [bytes, size, List.length_append, List.length_cons, littleEndian_length,
      length_captures]
  | skip n | skipIfFalse n | back n | exit k => simp [bytes, size]

theorem size_pos (a : Asm) : 0 < a.size := by
  cases a <;> simp only [size] <;> omega

end Asm

namespace Assembly

/-- Whether every instruction fits. -/
def Fits (code : Assembly) : Prop := ∀ l ∈ code, l.asm.Fits

/-- The offset of the instruction at a place, and of the end behind the last one. -/
def offset (code : Assembly) (i : Nat) : Nat := ((code.take i).map fun l => l.asm.size).sum

@[simp] theorem offset_zero (code : Assembly) : offset code 0 = 0 := by simp [offset]

theorem offset_succ {code : Assembly} {i : Nat} {l : Asm.Line} (h : code[i]? = some l) :
    offset code (i + 1) = offset code i + l.asm.size := by
  obtain ⟨hi, rfl⟩ := List.getElem?_eq_some_iff.mp h
  rw [offset, offset, List.take_succ_eq_append_getElem hi, List.map_append, List.sum_append]
  simp

theorem offset_cons_succ (l : Asm.Line) (code : Assembly) (i : Nat) :
    offset (l :: code) (i + 1) = l.asm.size + offset code i := by
  simp [offset]

theorem offset_le_offset (code : Assembly) {i j : Nat} (h : i ≤ j) :
    offset code i ≤ offset code j := by
  induction h with
  | refl => exact Nat.le_refl _
  | @step j _ ih =>
    cases hj : code[j]? with
    | none =>
      have hlen : code.length ≤ j := List.getElem?_eq_none_iff.mp hj
      have hsame : offset code (j + 1) = offset code j := by
        rw [offset, offset, List.take_of_length_le (by omega), List.take_of_length_le hlen]
      exact hsame ▸ ih
    | some l => exact offset_succ hj ▸ Nat.le_add_right_of_le ih

theorem offset_lt_offset {code : Assembly} {i j : Nat} (h : i < j) (hi : i < code.length) :
    offset code i < offset code j := by
  have hget : code[i]? = some code[i] := List.getElem?_eq_getElem hi
  have hsucc := offset_succ hget
  have hpos := (code[i]).asm.size_pos
  have := offset_le_offset code (show i + 1 ≤ j from h)
  omega

theorem offset_append (a b : Assembly) :
    offset (a ++ b) a.length = offset a a.length := by
  simp [offset]

theorem starts_concat (code : Assembly) (l : Asm.Line) :
    starts (code ++ [l]) = (starts code).push ((starts code).back?.getD 0 + l.asm.size) := by
  simp [starts, List.foldl_append]

theorem starts_eq (code : Assembly) :
    (starts code).toList = (List.range (code.length + 1)).map (offset code) := by
  induction code using List.reverseRecOn with
  | nil => rfl
  | append_singleton code l ih =>
    have hback : (starts code).back? = some (offset code code.length) := by
      rw [← Array.getLast?_toList, ih]
      simp [List.range_succ]
    have hsame : ∀ i ∈ List.range (code.length + 1), offset (code ++ [l]) i = offset code i := by
      intro i hi
      have : i ≤ code.length := Nat.lt_succ_iff.mp (List.mem_range.mp hi)
      rw [offset, offset, List.take_append_of_le_length this]
    have hend : offset (code ++ [l]) (code.length + 1) = offset code code.length + l.asm.size := by
      rw [offset_succ (l := l) (by simp), offset_append]
    rw [starts_concat, Array.toList_push, ih, hback, List.length_append, List.length_singleton,
      List.range_succ (n := code.length + 1), List.map_append, List.map_congr_left hsame]
    simp [hend]

theorem starts_getD {code : Assembly} {i : Nat} (h : i ≤ code.length) :
    (starts code).getD i 0 = offset code i := by
  have hget : (starts code).toList[i]? = some (offset code i) := by
    rw [starts_eq]
    simp [List.getElem?_range (show i < code.length + 1 by omega)]
  have hget' : (starts code)[i]? = some (offset code i) := by simpa using hget
  rw [Array.getD_eq_getD_getElem?, hget']
  rfl

def bytesFrom (start : Nat → Nat) : Nat → Assembly → List UInt8
  | _, [] => []
  | i, l :: ls => l.asm.bytes start i ++ bytesFrom start (i + 1) ls

theorem write_code (start : Nat → Nat) (i : Nat) (c : Chunk) (code : Assembly) :
    (write start i c code).code.toList = c.code.toList ++ bytesFrom start i code := by
  induction code generalizing i c with
  | nil => simp [write, bytesFrom]
  | cons l ls ih => simp [write, bytesFrom, ih]

@[simp] theorem write_constants (start : Nat → Nat) (i : Nat) (c : Chunk) (code : Assembly) :
    (write start i c code).constants = c.constants := by
  induction code generalizing i c with
  | nil => rfl
  | cons l ls ih => simp [write, ih]

@[simp] theorem write_file (start : Nat → Nat) (i : Nat) (c : Chunk) (code : Assembly) :
    (write start i c code).file = c.file := by
  induction code generalizing i c with
  | nil => rfl
  | cons l ls ih => simp [write, ih]

@[simp] theorem chunk_file (code : Assembly) (constants : Array Value) (file : String) :
    (code.chunk constants file).file = file := by simp [chunk]

@[simp] theorem chunk_constants (code : Assembly) (constants : Array Value) (file : String) :
    (code.chunk constants file).constants = constants := by simp [chunk]

theorem bytesFrom_drop {code : Assembly} (h : code.Fits) (start : Nat → Nat) (k i : Nat) :
    (bytesFrom start k code).drop (offset code i) = bytesFrom start (k + i) (code.drop i) := by
  induction code generalizing k i with
  | nil => simp [bytesFrom]
  | cons l ls ih =>
    cases i with
    | zero => simp
    | succ i =>
      have hl : l.asm.Fits := h l (by simp)
      have hls : Fits ls := fun x hx => h x (by simp [hx])
      rw [bytesFrom, offset_cons_succ, ← Asm.length_bytes hl start k, ← List.drop_drop,
        List.drop_left, ih hls, List.drop_succ_cons, show k + 1 + i = k + (i + 1) by omega]

theorem bytesFrom_length {code : Assembly} (h : code.Fits) (start : Nat → Nat) (k : Nat) :
    (bytesFrom start k code).length = offset code code.length := by
  induction code generalizing k with
  | nil => simp [bytesFrom]
  | cons l ls ih =>
    have hls : Fits ls := fun x hx => h x (by simp [hx])
    rw [bytesFrom, List.length_append, Asm.length_bytes (h l (by simp)), ih hls, List.length_cons,
      offset_cons_succ]

def start (code : Assembly) (i : Nat) : Nat := (starts code).getD i 0

theorem chunk_code (code : Assembly) (constants : Array Value) (file : String) :
    (code.chunk constants file).code.toList = bytesFrom (start code) 0 code := by
  rw [chunk, write_code]
  rfl

theorem chunk_size {code : Assembly} (h : code.Fits) (constants : Array Value) (file : String) :
    (code.chunk constants file).code.size = offset code code.length := by
  rw [← Array.length_toList, chunk_code, bytesFrom_length h]

theorem code_drop {code : Assembly} (h : code.Fits) {i : Nat} {l : Asm.Line}
    (hi : code[i]? = some l) (constants : Array Value) (file : String) :
    ∃ rest, (code.chunk constants file).code.toList.drop (offset code i)
      = l.asm.bytes (start code) i ++ rest := by
  obtain ⟨hlt, rfl⟩ := List.getElem?_eq_some_iff.mp hi
  refine ⟨bytesFrom (start code) (i + 1) (code.drop (i + 1)), ?_⟩
  rw [chunk_code, bytesFrom_drop h, Nat.zero_add, List.drop_eq_getElem_cons hlt, bytesFrom]

theorem start_eq {code : Assembly} {i : Nat} (h : i ≤ code.length) : start code i = offset code i :=
  starts_getD h

end Assembly

namespace Opcode

def pops (c : Opcode) (ns : List Nat) : Nat :=
  match c with
  | const | unit | getLocal | getGlobal | getCell | getUpvalue | closure | jump | loop => 0
  | pop | dup | neg | not | setLocal | setGlobal | makeCell | setCell | setUpvalue | jumpIfFalse
  | ret | getField | len | checkType | toText | unwrapOrReturn => 1
  | popBelow | add | sub | mul | div | mod | eq | ne | lt | le | gt | ge | bitOr | setField
  | getIndex | getElem => 2
  | call => ns.headD 0 + 1
  | makeArray => ns.headD 0
  | new => ns.getD 1 0

def pushes : Opcode → Nat
  | pop | setLocal | setGlobal | makeCell | setCell | setUpvalue | jump | jumpIfFalse | loop | ret => 0
  | dup => 2
  | _ => 1

end Opcode

/-- What is known of a frame at an instruction: how many values it has on the stack at least, and
which slots hold a cell, or a value of another kind. -/
structure Shape where
  height : Nat
  slots : Nat → Option Bool

namespace Shape

def push (s : Shape) : Shape := { s with height := s.height + 1 }

def drop (s : Shape) : Shape := { s with height := s.height - 1 }

@[simp] theorem drop_push (s : Shape) : s.push.drop = s := rfl

def store (s : Shape) (i : Nat) (isCell : Bool) : Nat → Option Bool :=
  fun j => if j = i then some isCell else s.slots j

def stored (s : Shape) : Opcode → List Nat → Nat → Option Bool
  | .setLocal, ns => s.store (ns.headD 0) false
  | .makeCell, ns => s.store (ns.headD 0) true
  | _, _ => s.slots

/-- The shape behind an instruction. -/
def after (s : Shape) (c : Opcode) (ns : List Nat) : Shape :=
  ⟨s.height - c.pops ns + c.pushes, s.stored c ns⟩

/-- Whether what is known in one shape is known in another. Heights may be larger there, unless they
have to be the same. -/
structure Within (exact : Bool) (a b : Shape) : Prop where
  height : b.height ≤ a.height
  same : exact = true → a.height = b.height
  slots : ∀ i x, b.slots i = some x → a.slots i = some x

theorem Within.refl (exact : Bool) (a : Shape) : Within exact a a :=
  ⟨Nat.le_refl _, fun _ => rfl, fun _ _ h => h⟩

theorem Within.trans {exact : Bool} {a b c : Shape} (h : Within exact a b) (k : Within exact b c) :
    Within exact a c :=
  ⟨Nat.le_trans k.height h.height, fun he => (h.same he).trans (k.same he),
    fun i x hx => h.slots i x (k.slots i x hx)⟩

end Shape

/-- What code is checked against: whether heights have to be the same on all ways to an instruction,
the slots and captured variables of a frame, and the constants. -/
structure Limits where
  exact : Bool
  locals : Nat
  free : Nat
  pool : Array Value

namespace Limits

variable (C : Limits)

def Asks (s : Shape) : Opcode → List Nat → Prop
  | .const, ns => ns.headD 0 < C.pool.size
  | .getLocal, ns => ns.headD 0 < C.locals ∧ s.slots (ns.headD 0) = some false
  | .setLocal, ns | .makeCell, ns => ns.headD 0 < C.locals
  | .getCell, ns | .setCell, ns => ns.headD 0 < C.locals ∧ s.slots (ns.headD 0) = some true
  | .getUpvalue, ns | .setUpvalue, ns => ns.headD 0 < C.free
  | .getField, ns | .setField, ns | .checkType, ns => ∃ t, C.pool[ns.headD 0]? = some (.str t)
  | .new, ns => ∃ i c, C.pool[ns.headD 0]? = some (.ctor i c)
  | _, _ => True

/-- What a closure asks of a variable it captures. -/
def Finds (s : Shape) (c : Capture) : Prop :=
  if c.isLocal then c.index < C.locals ∧ s.slots c.index = some true else c.index < C.free

/-- Whether an instruction at place `i` of `size` ones can be executed, and what it leaves is known
where it goes. `exits` tells what has to be known where exits go. -/
def Good (exits : Exit → Option Shape) (size : Nat) (shape : Nat → Shape) (i : Nat) : Asm → Prop
  | .op c ns => (Asm.op c ns).Fits ∧ c.pops ns ≤ (shape i).height ∧ C.Asks (shape i) c ns ∧
      (c ≠ .ret → i + 1 < size ∧ ((shape i).after c ns).Within C.exact (shape (i + 1)))
  | .closure k cs => (Asm.closure k cs).Fits ∧ (∃ r, C.pool[k]? = some (.func r)) ∧
      (∀ c ∈ cs, C.Finds (shape i) c) ∧ i + 1 < size ∧
        (shape i).push.Within C.exact (shape (i + 1))
  | .skip n => i + 1 + n < size ∧ (shape i).Within C.exact (shape (i + 1 + n))
  | .skipIfFalse n => 0 < (shape i).height ∧ i + 1 + n < size ∧
      (shape i).drop.Within C.exact (shape (i + 1)) ∧
        (shape i).drop.Within C.exact (shape (i + 1 + n))
  | .back n => n ≤ i ∧ (shape i).Within C.exact (shape (i - n))
  | .exit .miss => 0 < (shape i).height ∧ i + 1 < size ∧
      (shape i).drop.Within C.exact (shape (i + 1)) ∧
        ∃ s, exits .miss = some s ∧ (shape i).drop.Within C.exact s
  | .exit k => ∃ s, exits k = some s ∧ (shape i).Within C.exact s

end Limits

end Scripting
