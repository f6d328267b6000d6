import Scripting.Proofs.Code.Layout

/-!
# Reading code back

The chunk of an assembly decodes to the instructions of the assembly, each with the offset it was
placed at. Jumps hold offsets of four bytes, so this asks for code that they can reach.
-/

namespace Scripting

namespace Chunk

variable {c : Chunk} {o : Nat} {rest : List UInt8}

theorem operands?_of_drop {ws ns : List Nat} (h : List.Forall₂ (fun w n => n < 256 ^ w) ws ns)
    (hc : c.code.toList.drop o = ((ws.zip ns).flatMap fun x => littleEndian x.1 x.2) ++ rest) :
    c.operands? ws o = some ns := by
  induction h generalizing o with
  | nil => rfl
  | @cons w n ws ns hn _ ih =>
    rw [List.zip_cons_cons, List.flatMap_cons, List.append_assoc] at hc
    have hrest := drop_add hc
    rw [littleEndian_length] at hrest
    rw [operands?, ih hrest]
    by_cases hw : w = 1
    · subst hw
      have hbyte : c.code[o]? = some (UInt8.ofNat n) := get?_of_drop hc
      rw [if_pos (by rfl), hbyte]
      exact congrArg (fun k => some (k :: ns)) (littleEndian_one (by simpa using hn))
    · rw [if_neg (by simpa using hw), peekWord?_of_drop hn hc]
      rfl

theorem captures?_of_drop {cs : List Capture} (h : ∀ x ∈ cs, x.index < 256 ^ 2)
    (hc : c.code.toList.drop o = cs.flatMap Asm.captureBytes ++ rest) :
    c.captures? cs.length o = some cs := by
  induction cs generalizing o with
  | nil => rfl
  | cons x cs ih =>
    rw [List.flatMap_cons, List.append_assoc] at hc
    have hflag : c.code[o]? = some (if x.isLocal then 1 else 0) := get?_of_drop hc
    have hindex : c.peekWord? 2 (o + 1) = some x.index :=
      peekWord?_of_drop (h x (by simp)) (drop_succ hc)
    have hrest := drop_add hc
    rw [Asm.length_captureBytes] at hrest
    have hlocal : ((if x.isLocal then 1 else 0 : UInt8) == 1) = x.isLocal := by
      cases x.isLocal <;> rfl
    rw [List.length_cons, captures?, hflag]
    dsimp only [Option.bind_eq_bind, Option.bind_some]
    rw [hindex]
    dsimp only [Option.bind_some]
    rw [ih (fun y hy => h y (by simp [hy])) hrest, hlocal]
    rfl

end Chunk

namespace Asm

def decoded (start : Nat → Nat) (i : Nat) (a : Asm) : Decoded :=
  match a with
  | op c ns => ⟨start i, c.byte, ns, [], a.size⟩
  | closure k cs => ⟨start i, Opcode.closure.byte, [k, cs.length], cs, a.size⟩
  | skip n => ⟨start i, Opcode.jump.byte, [start (i + 1 + n)], [], a.size⟩
  | skipIfFalse n => ⟨start i, Opcode.jumpIfFalse.byte, [start (i + 1 + n)], [], a.size⟩
  | back n => ⟨start i, Opcode.loop.byte, [start (i - n)], [], a.size⟩
  | exit _ => ⟨start i, Opcode.jump.byte, [start (i + 1)], [], a.size⟩

/-- Whether the offset that a jump goes to can be written. -/
def Reaches (start : Nat → Nat) (i : Nat) : Asm → Prop
  | skip n | skipIfFalse n => start (i + 1 + n) < 256 ^ 4
  | back n => start (i - n) < 256 ^ 4
  | exit _ => start (i + 1) < 256 ^ 4
  | _ => True

theorem decoded_offset (start : Nat → Nat) (i : Nat) (a : Asm) : (a.decoded start i).offset = start i := by
  cases a <;> rfl

theorem decoded_at (start : Nat → Nat) (i : Nat) (a : Asm) :
    { a.decoded start i with offset := start i } = a.decoded start i := by
  cases a <;> rfl

theorem decoded_size (start : Nat → Nat) (i : Nat) (a : Asm) : (a.decoded start i).size = a.size := by
  cases a <;> rfl

theorem decodeAt?_plain {c : Chunk} {o : Nat} {k : Opcode} {ns : List Nat} {rest : List UInt8}
    (hk : k ≠ .closure) (h : List.Forall₂ (fun w n => n < 256 ^ w) k.widths ns)
    (hc : c.code.toList.drop o
      = k.byte :: (((k.widths.zip ns).flatMap fun x => littleEndian x.1 x.2) ++ rest)) :
    c.decodeAt? o = some ⟨o, k.byte, ns, [], 1 + totalWidth k.widths⟩ := by
  have hbyte := Chunk.get?_of_drop hc
  have hwidths : Chunk.widthsOf k.byte = k.widths := by
    rw [Chunk.widthsOf, Opcode.ofByte?_byte]
  have hclosure : (Opcode.ofByte? k.byte == some .closure) = false := by
    rw [Opcode.ofByte?_byte]
    simpa using hk
  have hoperands := Chunk.operands?_of_drop h (Chunk.drop_succ hc)
  simp only [Chunk.decodeAt?, Chunk.instructionLength?, hbyte, hwidths, hclosure, hoperands,
    Option.bind_eq_bind, Option.bind_some, Option.pure_def, Bool.false_eq_true, if_false]

theorem decodeAt?_of_drop {a : Asm} (ha : a.Fits) {start : Nat → Nat} {i o : Nat}
    (hr : a.Reaches start i) {c : Chunk} {rest : List UInt8}
    (hc : c.code.toList.drop o = a.bytes start i ++ rest) :
    c.decodeAt? o = some { a.decoded start i with offset := o } := by
  have hjump : ∀ {k : Opcode} {n : Nat}, k.widths = [4] → n < 256 ^ 4 →
      c.code.toList.drop o = k.byte :: littleEndian 4 n ++ rest →
        c.decodeAt? o = some ⟨o, k.byte, [n], [], 5⟩ := by
    intro k n hk hn hc
    have hne : k ≠ .closure := by
      rintro rfl
      cases hk
    have hbytes : c.code.toList.drop o
        = k.byte :: (((k.widths.zip [n]).flatMap fun x => littleEndian x.1 x.2) ++ rest) := by
      rw [hc, hk]
      simp
    have hplain := decodeAt?_plain hne (by rw [hk]; exact .cons hn .nil) hbytes
    rw [hk] at hplain
    exact hplain
  cases a with
  | op k ns =>
    obtain ⟨hspecial, hwords⟩ := ha
    refine decodeAt?_plain ?_ hwords hc
    rintro rfl
    cases hspecial
  | closure k cs =>
    obtain ⟨hk, hcount, hindex⟩ := ha
    have hbytes : c.code.toList.drop o = Opcode.closure.byte ::
        (((Opcode.closure.widths.zip [k, cs.length]).flatMap fun x => littleEndian x.1 x.2)
          ++ (cs.flatMap captureBytes ++ rest)) := by
      rw [hc]
      simp [bytes, Opcode.widths]
    have hbyte := Chunk.get?_of_drop hbytes
    have hoperands : c.operands? Opcode.closure.widths (o + 1) = some [k, cs.length] :=
      Chunk.operands?_of_drop (.cons hk (.cons (by simpa using hcount) .nil)) (Chunk.drop_succ hbytes)
    have hconst : c.code.toList.drop (o + 1) = littleEndian 2 k
        ++ (UInt8.ofNat cs.length :: (cs.flatMap captureBytes ++ rest)) := by
      rw [Chunk.drop_succ hbytes]
      simp [Opcode.widths, littleEndian]
    have hbehind := Chunk.drop_add hconst
    rw [littleEndian_length] at hbehind
    have hcount' : c.code[o + 3]? = some (UInt8.ofNat cs.length) := Chunk.get?_of_drop hbehind
    have hcaptures : c.captures? cs.length (o + 4) = some cs :=
      Chunk.captures?_of_drop hindex (Chunk.drop_succ hbehind)
    have hwidths : Chunk.widthsOf Opcode.closure.byte = Opcode.closure.widths := rfl
    have hclosure : (Opcode.ofByte? Opcode.closure.byte == some .closure) = true := rfl
    simp only [Chunk.decodeAt?, Chunk.instructionLength?, hbyte, hwidths, hclosure, hoperands, hcount',
      Option.bind_eq_bind, Option.bind_some, Option.pure_def, if_true, List.getD_cons_succ,
      List.getD_cons_zero, hcaptures, littleEndian_one hcount]
    rfl
  | skip n => exact hjump rfl hr hc
  | skipIfFalse n => exact hjump rfl hr hc
  | back n => exact hjump rfl hr hc
  | exit k => exact hjump rfl hr hc

def wrapped (start : Nat → Nat) (i : Nat) : Nat := start i % 256 ^ 4

theorem reaches_wrapped (start : Nat → Nat) (i : Nat) (a : Asm) : a.Reaches (wrapped start) i := by
  cases a <;> first | trivial | exact Nat.mod_lt _ (by decide)

theorem bytes_wrapped (start : Nat → Nat) (i : Nat) (a : Asm) :
    a.bytes (wrapped start) i = a.bytes start i := by
  cases a <;> first | rfl | exact congrArg _ (littleEndian_mod 4 _)

end Asm

namespace Assembly

def decodedFrom (start : Nat → Nat) : Nat → Assembly → List Decoded
  | _, [] => []
  | i, l :: ls => l.asm.decoded start i :: decodedFrom start (i + 1) ls

theorem mem_decodedFrom {start : Nat → Nat} {d : Decoded} (code : Assembly) (k : Nat) :
    d ∈ decodedFrom start k code ↔
      ∃ (i : Nat) (l : Asm.Line), code[i]? = some l ∧ d = l.asm.decoded start (k + i) := by
  induction code generalizing k with
  | nil => simp [decodedFrom]
  | cons l ls ih =>
    rw [decodedFrom, List.mem_cons, ih]
    constructor
    · rintro (rfl | ⟨i, m, hm, rfl⟩)
      · exact ⟨0, l, rfl, rfl⟩
      · exact ⟨i + 1, m, hm, by rw [Nat.add_assoc, Nat.add_comm 1]⟩
    · rintro ⟨i, m, hm, rfl⟩
      cases i with
      | zero =>
        obtain rfl := Option.some.inj hm
        exact .inl rfl
      | succ i => exact .inr ⟨i, m, hm, by rw [Nat.add_assoc, Nat.add_comm 1]⟩

/-- Whether the jumps of some code can be written. -/
def Reaches (code : Assembly) : Prop :=
  ∀ (i : Nat) (l : Asm.Line), code[i]? = some l → l.asm.Reaches (start code) i

theorem decodeFrom?_chunk {code : Assembly} (hfits : code.Fits) (hreaches : code.Reaches)
    {constants : Array Value} {file : String} {c : Chunk} (hc : c.code = (code.chunk constants file).code)
    (n i : Nat) (hi : i ≤ code.length) (hn : code.length ≤ i + n) :
    c.decodeFrom? n (start code i) = some (decodedFrom (start code) i (code.drop i)) := by
  induction n generalizing i with
  | zero =>
    rw [List.drop_of_length_le (by omega)]
    rfl
  | succ n ih =>
    rcases Nat.lt_or_ge i code.length with hlt | hge
    · have hget : code[i]? = some code[i] := List.getElem?_eq_getElem hlt
      obtain ⟨rest, hdrop⟩ := code_drop hfits hget constants file
      rw [← start_eq hi, ← hc] at hdrop
      have hroom : start code i < c.code.size := by
        rw [hc, chunk_size hfits, start_eq hi]
        exact offset_lt_offset hlt hlt
      have hnext : start code i + (code[i].asm.decoded (start code) i).size = start code (i + 1) := by
        rw [Asm.decoded_size, start_eq hi, start_eq hlt, offset_succ hget]
      rw [Chunk.decodeFrom?, if_pos hroom,
        Asm.decodeAt?_of_drop (hfits _ (List.getElem_mem hlt)) (hreaches i _ hget) hdrop,
        Asm.decoded_at]
      dsimp only [Option.bind_eq_bind, Option.bind_some]
      rw [hnext, ih (i + 1) hlt (by omega), List.drop_eq_getElem_cons hlt, decodedFrom]
      rfl
    · have hend : ¬ start code i < c.code.size := by
        rw [hc, chunk_size hfits, start_eq hi]
        exact Nat.not_lt.mpr (offset_le_offset code hge)
      rw [Chunk.decodeFrom?, if_neg hend, List.drop_of_length_le hge]
      rfl

theorem length_le_offset (code : Assembly) : code.length ≤ offset code code.length := by
  have hsize : ∀ i ≤ code.length, i ≤ offset code i := by
    intro i hi
    induction i with
    | zero => exact Nat.zero_le _
    | succ i ih =>
      have hlt : offset code i < offset code (i + 1) := offset_lt_offset (Nat.lt_succ_self i) hi
      have := ih (by omega)
      omega
  exact hsize _ (Nat.le_refl _)

theorem decode?_of_code {code : Assembly} (hfits : code.Fits) (hreaches : code.Reaches)
    {constants : Array Value} {file : String} {c : Chunk} (hc : c.code = (code.chunk constants file).code) :
    c.decode? = some (decodedFrom (start code) 0 code) := by
  have hstart : start code 0 = 0 := by rw [start_eq (Nat.zero_le _), offset_zero]
  have hrounds : code.length ≤ 0 + c.code.size := by
    rw [hc, chunk_size hfits, Nat.zero_add]
    exact length_le_offset code
  have hall := decodeFrom?_chunk hfits hreaches hc _ 0 (Nat.zero_le _) hrounds
  rw [hstart] at hall
  exact hall

theorem decode?_chunk {code : Assembly} (hfits : code.Fits) (hreaches : code.Reaches)
    (constants : Array Value) (file : String) :
    (code.chunk constants file).decode? = some (decodedFrom (start code) 0 code) :=
  decode?_of_code hfits hreaches rfl

/-- Whether a decoded instruction is one of some code, up to where it stands and where it jumps to. -/
def Shows (code : Assembly) (d : Decoded) : Prop :=
  ∃ l ∈ code, ∃ start i o, d = { l.asm.decoded start i with offset := o }

theorem decodeFrom?_shows {code : Assembly} (hfits : code.Fits) {constants : Array Value} {file : String}
    {c : Chunk} (hc : c.code = (code.chunk constants file).code) (n i : Nat) (hi : i ≤ code.length) :
    ∃ ds, c.decodeFrom? n (start code i) = some ds ∧ ∀ d ∈ ds, code.Shows d := by
  induction n generalizing i with
  | zero => exact ⟨[], rfl, by simp⟩
  | succ n ih =>
    rcases Nat.lt_or_ge i code.length with hlt | hge
    · have hget : code[i]? = some code[i] := List.getElem?_eq_getElem hlt
      obtain ⟨rest, hdrop⟩ := code_drop hfits hget constants file
      rw [← start_eq hi, ← hc] at hdrop
      have hroom : start code i < c.code.size := by
        rw [hc, chunk_size hfits, start_eq hi]
        exact offset_lt_offset hlt hlt
      -- The bytes are also those of a jump to the target that they can hold.
      have hreaches := code[i].asm.reaches_wrapped (start code) i
      rw [← Asm.bytes_wrapped] at hdrop
      have hdecode := Asm.decodeAt?_of_drop (hfits _ (List.getElem_mem hlt)) hreaches hdrop
      have hnext : start code i + (code[i].asm.decoded (Asm.wrapped (start code)) i).size
          = start code (i + 1) := by
        rw [Asm.decoded_size, start_eq hi, start_eq hlt, offset_succ hget]
      obtain ⟨ds, hds, hshows⟩ := ih (i + 1) hlt
      refine ⟨{ code[i].asm.decoded (Asm.wrapped (start code)) i with offset := start code i } :: ds, ?_,
        List.forall_mem_cons.mpr ⟨⟨_, List.getElem_mem hlt, _, i, _, rfl⟩, hshows⟩⟩
      rw [Chunk.decodeFrom?, if_pos hroom, hdecode]
      dsimp only [Option.bind_eq_bind, Option.bind_some]
      rw [hnext, hds]
      rfl
    · have hend : ¬ start code i < c.code.size := by
        rw [hc, chunk_size hfits, start_eq hi]
        exact Nat.not_lt.mpr (offset_le_offset code hge)
      refine ⟨[], ?_, by simp⟩
      rw [Chunk.decodeFrom?, if_neg hend]

theorem decode?_shows {code : Assembly} (hfits : code.Fits) {constants : Array Value} {file : String}
    {c : Chunk} (hc : c.code = (code.chunk constants file).code) :
    ∃ ds, c.decode? = some ds ∧ ∀ d ∈ ds, code.Shows d := by
  have hstart : start code 0 = 0 := by rw [start_eq (Nat.zero_le _), offset_zero]
  have hall := decodeFrom?_shows hfits hc c.code.size 0 (Nat.zero_le _)
  rwa [hstart] at hall

end Assembly

end Scripting
