import Scripting.Proofs.Engine.Sessions
import Scripting.Proofs.Machine.Acting

/-!
# Writers and readers of code agree

Code is read in three ways: it is decoded, its instructions are measured, and the machine executes it.
`Chunk.Coded c ds` says that all three find the instructions `ds` in a chunk, and `instructions_coded` that
they do so in what the writers of a chunk make of any instructions, and in all code that an engine compiles.
-/

namespace Scripting

theorem Opcode.widths_cases (op : Opcode) :
    op.widths = [] ∨ op.widths = [2] ∨ op.widths = [4] ∨ op = .call ∨ op = .new ∨ op = .closure := by
  cases op <;> decide

/-- An instruction to be written. Only a closure has captures. -/
structure Instruction where
  op : Opcode
  operands : List Nat
  captures : List Capture := []
  line : Int
deriving DecidableEq, Repr

namespace Instruction

/-- Whether there are as many operands as an instruction takes, each within its width. The second operand
of a closure counts its captures. -/
def Fits (x : Instruction) : Prop :=
  List.Forall₂ (fun w n => n < 256 ^ w) x.op.widths x.operands ∧
    if x.op = .closure then
      x.operands.getD 1 0 = x.captures.length ∧ ∀ c ∈ x.captures, c.index < 256 ^ 2
    else x.captures = []

instance : DecidablePred Fits := fun _ => inferInstanceAs (Decidable (_ ∧ _))

def numbers (x : Instruction) : List Nat :=
  x.operands ++ x.captures.flatMap fun c => [if c.isLocal then 1 else 0, c.index]

def bytes (x : Instruction) : List UInt8 :=
  x.op.byte :: (Exec.operandBytes x.op x.operands ++ x.captures.flatMap Asm.captureBytes)

def size (x : Instruction) : Nat := 1 + totalWidth x.op.widths + 3 * x.captures.length

def decoded (x : Instruction) (o : Nat) : Decoded := ⟨o, x.op.byte, x.operands, x.captures, x.size⟩

/-- Instructions as they are read back, the first of them from an offset. -/
def placed : Nat → List Instruction → List Decoded
  | _, [] => []
  | o, x :: xs => x.decoded o :: placed (o + x.size) xs

theorem length_bytes {x : Instruction} (h : x.Fits) : x.bytes.length = x.size := by
  simp only [bytes, size, List.length_cons, List.length_append, Asm.length_words h.1, Asm.length_captures]
  omega

theorem length_le_bytes (xs : List Instruction) : xs.length ≤ (xs.flatMap bytes).length := by
  induction xs with
  | nil => exact Nat.le_refl _
  | cons x xs ih =>
    simp only [List.flatMap_cons, List.length_append, List.length_cons, bytes]
    omega

theorem Fits.closure {x : Instruction} (h : x.Fits) (hop : x.op = .closure) :
    ∃ k, x.operands = [k, x.captures.length] ∧ k < 256 ^ 2 ∧ x.captures.length < 256 ∧
      ∀ c ∈ x.captures, c.index < 256 ^ 2 := by
  obtain ⟨hwidths, hcaptures⟩ := h
  rw [if_pos hop] at hcaptures
  rw [hop] at hwidths
  obtain ⟨k, ns, hk, hns, hoperands⟩ := List.forall₂_cons_left_iff.mp hwidths
  obtain ⟨n, ms, hn, hms, rfl⟩ := List.forall₂_cons_left_iff.mp hns
  obtain rfl := List.forall₂_nil_left_iff.mp hms
  rw [hoperands] at hcaptures
  obtain rfl : n = x.captures.length := hcaptures.1
  exact ⟨k, hoperands, hk, hn, hcaptures.2⟩

theorem Fits.captures {x : Instruction} (h : x.Fits) (hop : x.op ≠ .closure) : x.captures = [] := by
  obtain ⟨-, hcaptures⟩ := h
  rwa [if_neg hop] at hcaptures

theorem Fits.plain {x : Instruction} (h : x.Fits) (hw : x.op.widths = []) :
    x.operands = [] ∧ x.captures = [] := by
  have hwidths := h.1
  rw [hw] at hwidths
  exact ⟨List.forall₂_nil_left_iff.mp hwidths, h.captures fun hop => by rw [hop] at hw; cases hw⟩

theorem Fits.single {x : Instruction} (h : x.Fits) {w : Nat} (hw : x.op.widths = [w]) :
    ∃ n, n < 256 ^ w ∧ x.operands = [n] ∧ x.captures = [] ∧ x.bytes = x.op.byte :: littleEndian w n := by
  have hwidths := h.1
  rw [hw] at hwidths
  obtain ⟨n, ns, hn, hns, hoperands⟩ := List.forall₂_cons_left_iff.mp hwidths
  obtain rfl := List.forall₂_nil_left_iff.mp hns
  have hcaptures := h.captures fun hop => by rw [hop] at hw; cases hw
  refine ⟨n, hn, hoperands, hcaptures, ?_⟩
  rw [bytes, Exec.operandBytes, hw, hoperands, hcaptures]
  simp

theorem Fits.new {x : Instruction} (h : x.Fits) (hop : x.op = .new) : ∃ k n, k < 256 ^ 2 ∧ n < 256 ∧
    x.operands = [k, n] ∧ x.captures = [] ∧
      x.bytes = Opcode.new.byte :: (littleEndian 2 k ++ [UInt8.ofNat n]) := by
  have hwidths := h.1
  rw [hop] at hwidths
  obtain ⟨k, ns, hk, hns, hoperands⟩ := List.forall₂_cons_left_iff.mp hwidths
  obtain ⟨n, ms, hn, hms, rfl⟩ := List.forall₂_cons_left_iff.mp hns
  obtain rfl := List.forall₂_nil_left_iff.mp hms
  have hcaptures := h.captures fun hclosure => by rw [hclosure] at hop; cases hop
  refine ⟨k, n, hk, hn, hoperands, hcaptures, ?_⟩
  rw [bytes, hop, hoperands, hcaptures]
  rfl

end Instruction

theorem wordBytes_natCast (w n : Nat) : wordBytes w n = littleEndian w n := by
  have hpow : 2 ^ (8 * w) = 256 ^ w := by rw [Nat.pow_mul]
  have hmod : ((n : Int).emod (Nat.pow 2 (8 * w) : Nat)).toNat = n % 256 ^ w := by
    show ((n : Int) % ((2 ^ (8 * w) : Nat) : Int)).toNat = n % 256 ^ w
    rw [hpow, ← Int.natCast_emod, Int.toNat_natCast]
  rw [wordBytes, hmod, littleEndian_mod]

namespace Chunk

/-- Writes instructions one behind the other. -/
def writeAll (c : Chunk) (xs : List Instruction) : Chunk :=
  xs.foldl (fun c x => c.writeInstruction x.op (x.numbers.map Int.ofNat) x.line) c

theorem writeBytes_append (c : Chunk) (as bs : List UInt8) (line : Int) :
    c.writeBytes (as ++ bs) line = (c.writeBytes as line).writeBytes bs line := by
  rw [writeBytes, List.foldl_append]
  rfl

theorem foldl_writeWord (c : Chunk) (xs : List (Nat × Nat)) (line : Int) :
    (xs.map fun x => (x.1, Int.ofNat x.2)).foldl (fun c (w, n) => c.writeWord w n line) c
      = c.writeBytes (xs.flatMap fun x => littleEndian x.1 x.2) line := by
  induction xs generalizing c with
  | nil => rfl
  | cons x xs ih =>
    rw [List.map_cons, List.foldl_cons, ih, List.flatMap_cons, writeBytes_append]
    exact congrArg (fun bs => (c.writeBytes bs line).writeBytes _ line) (wordBytes_natCast x.1 x.2)

end Chunk

namespace Instruction

def words (x : Instruction) : List (Nat × Nat) :=
  x.op.widths.zip x.operands ++ x.captures.flatMap fun c => [(1, if c.isLocal then 1 else 0), (2, c.index)]

theorem flatMap_words (x : Instruction) :
    x.op.byte :: (x.words.flatMap fun w => littleEndian w.1 w.2) = x.bytes := by
  have hcapture (c : Capture) : ([(1, if c.isLocal then 1 else 0), (2, c.index)].flatMap fun w : Nat × Nat =>
      littleEndian w.1 w.2) = Asm.captureBytes c := by
    cases c with
    | mk isLocal index => cases isLocal <;> rfl
  rw [words, List.flatMap_append, List.flatMap_assoc, bytes]
  simp only [hcapture]

theorem zip_captures (cs : List Capture) :
    (((List.range (2 * cs.length)).map fun i => if i % 2 == 0 then 1 else 2).zip
        (cs.flatMap fun c => [if c.isLocal then 1 else 0, c.index]))
      = cs.flatMap fun c => [((1 : Nat), if c.isLocal then 1 else 0), (2, c.index)] := by
  induction cs with
  | nil => rfl
  | cons c cs ih =>
    have hrange : ((List.range (2 * (cs.length + 1))).map fun i => if i % 2 == 0 then 1 else 2)
        = 1 :: 2 :: (List.range (2 * cs.length)).map fun i => if i % 2 == 0 then 1 else 2 := by
      rw [Nat.mul_add, List.range_succ_eq_map, List.range_succ_eq_map]
      simp [Function.comp_def, Nat.add_assoc]
    rw [List.length_cons, hrange, List.flatMap_cons, List.flatMap_cons]
    exact congrArg (fun ws => (1, _) :: (2, _) :: ws) ih

theorem zip_numbers {x : Instruction} (h : x.Fits) :
    (Chunk.operandWidths x.op x.numbers.length).zip x.numbers = x.words := by
  have hlength := h.1.length_eq
  rw [Chunk.operandWidths, numbers, List.zip_append hlength, words]
  by_cases hop : x.op = .closure
  · have hcount : (x.operands ++ x.captures.flatMap fun c => [if c.isLocal then 1 else 0, c.index]).length
        - x.op.widths.length = 2 * x.captures.length := by
      rw [List.length_append, hlength, Nat.add_sub_cancel_left]
      simp [List.length_flatMap, Nat.mul_comm]
    rw [hcount, hop, if_pos (by rfl), zip_captures]
  · rw [h.captures hop, List.flatMap_nil, List.flatMap_nil, List.zip_nil_right]

end Instruction

namespace Chunk

theorem writeInstruction_eq {x : Instruction} (h : x.Fits) (c : Chunk) :
    c.writeInstruction x.op (x.numbers.map Int.ofNat) x.line = c.writeBytes x.bytes x.line := by
  have hzip : (operandWidths x.op (x.numbers.map Int.ofNat).length).zip (x.numbers.map Int.ofNat)
      = x.words.map fun w => (w.1, Int.ofNat w.2) := by
    rw [List.length_map, List.zip_map_right, Instruction.zip_numbers h]
    rfl
  rw [writeInstruction, hzip, foldl_writeWord, ← x.flatMap_words]
  rfl

theorem writeAll_cons (c : Chunk) {x : Instruction} (h : x.Fits) (xs : List Instruction) :
    c.writeAll (x :: xs) = (c.writeBytes x.bytes x.line).writeAll xs := by
  rw [← writeInstruction_eq h]
  rfl

theorem writeAll_code (c : Chunk) {xs : List Instruction} (h : ∀ x ∈ xs, x.Fits) :
    (c.writeAll xs).code.toList = c.code.toList ++ xs.flatMap Instruction.bytes := by
  induction xs generalizing c with
  | nil => simp [writeAll]
  | cons x xs ih =>
    rw [writeAll_cons c (h x (by simp)), ih _ fun y hy => h y (by simp [hy]), writeBytes_code,
      List.flatMap_cons, List.append_assoc]

variable {c : Chunk} {o : Nat} {rest : List UInt8}

theorem decodeAt?_bytes {x : Instruction} (h : x.Fits) (hc : c.code.toList.drop o = x.bytes ++ rest) :
    c.decodeAt? o = some (x.decoded o) := by
  by_cases hop : x.op = .closure
  · obtain ⟨k, hoperands, hk, hcount, hindex⟩ := h.closure hop
    have hasm : x.bytes = (Asm.closure k x.captures).bytes id 0 := by
      simp [Instruction.bytes, Asm.bytes, hop, hoperands, Opcode.widths, Exec.operandBytes]
    rw [hasm] at hc
    rw [Asm.decodeAt?_of_drop (a := .closure k x.captures) ⟨hk, hcount, hindex⟩ trivial hc,
      Instruction.decoded, Instruction.size, hop, hoperands]
    rfl
  · have hcaptures := h.captures hop
    have hbytes : c.code.toList.drop o = x.op.byte :: (Exec.operandBytes x.op x.operands ++ rest) := by
      rw [hc, Instruction.bytes, hcaptures, List.flatMap_nil, List.append_nil, List.cons_append]
    rw [Asm.decodeAt?_plain hop h.1 hbytes, Instruction.decoded, Instruction.size, hcaptures]
    rfl

theorem instructionLength?_of_decodeAt? {d : Decoded} (h : c.decodeAt? o = some d) :
    c.instructionLength? o = some d.size := by
  simp only [decodeAt?, Option.bind_eq_bind, Option.bind_eq_some_iff] at h
  obtain ⟨b, -, size, hsize, ns, -, h⟩ := h
  have hd : ∃ cs, (⟨o, b, ns, cs, size⟩ : Decoded) = d := by
    split at h <;> obtain ⟨cs, -, hd⟩ := Option.bind_eq_some_iff.mp h <;> exact ⟨cs, Option.some.inj hd⟩
  obtain ⟨cs, rfl⟩ := hd
  exact hsize

theorem decodeFrom?_placed {xs : List Instruction} (h : ∀ x ∈ xs, x.Fits)
    (hc : c.code.toList.drop o = xs.flatMap Instruction.bytes) (n : Nat) (hn : xs.length ≤ n) :
    c.decodeFrom? n o = some (Instruction.placed o xs) := by
  induction xs generalizing o n with
  | nil =>
    have hend : ¬ o < c.code.size := by simpa using List.drop_eq_nil_iff.mp hc
    cases n with
    | zero => rfl
    | succ n => rw [decodeFrom?, if_neg hend]; rfl
  | cons x xs ih =>
    obtain ⟨m, rfl⟩ : ∃ m, n = m + 1 :=
      Nat.exists_eq_succ_of_ne_zero (Nat.ne_of_gt (Nat.lt_of_lt_of_le (by simp) hn))
    rw [List.flatMap_cons] at hc
    have hx := h x (by simp)
    have hne : x.bytes ≠ [] := List.cons_ne_nil _ _
    have hroom := room_of_drop hne hc
    have hrest := drop_add hc
    rw [Instruction.length_bytes hx] at hroom hrest
    have hsize : 0 < x.size := by rw [Instruction.size]; omega
    rw [decodeFrom?, if_pos (by omega), decodeAt?_bytes hx hc]
    dsimp only [Option.bind_eq_bind, Option.bind_some]
    rw [show (x.decoded o).size = x.size from rfl,
      ih (fun y hy => h y (by simp [hy])) hrest m (Nat.le_of_succ_le_succ hn)]
    rfl

theorem exists_of_mem_placed {xs : List Instruction} (h : ∀ x ∈ xs, x.Fits)
    (hc : c.code.toList.drop o = xs.flatMap Instruction.bytes) {d : Decoded}
    (hd : d ∈ Instruction.placed o xs) :
    ∃ (x : Instruction) (rest : List UInt8), x.Fits ∧ d = x.decoded d.offset ∧
      c.code.toList.drop d.offset = x.bytes ++ rest := by
  induction xs generalizing o with
  | nil => cases hd
  | cons x xs ih =>
    rw [List.flatMap_cons] at hc
    rcases List.mem_cons.mp hd with rfl | hd
    · exact ⟨x, _, h x (by simp), rfl, hc⟩
    · have hrest := drop_add hc
      rw [Instruction.length_bytes (h x (by simp))] at hrest
      exact ih (fun y hy => h y (by simp [hy])) hrest hd

end Chunk

namespace Exec

variable {m m' : Machine} {f : Frame} {fs : List Frame} {r : Option Value}

/-- What an instruction does with its operands, and what the outermost call returns. -/
def perform (op : Opcode) (operands : List Nat) (captures : List Capture) : Exec (Option Value) :=
  match op with
  | .ret | .unwrapOrReturn => execute op
  | op => do
    act op operands captures
    return none

theorem execute_eq {op : Opcode} (hret : op ≠ .ret) (hunwrap : op ≠ .unwrapOrReturn) :
    execute op = operate op >>= fun _ => pure none := by
  cases op <;> first | rfl | exact absurd rfl hret | exact absurd rfl hunwrap

theorem perform_eq {op : Opcode} (hret : op ≠ .ret) (hunwrap : op ≠ .unwrapOrReturn) (ns : List Nat)
    (cs : List Capture) : perform op ns cs = act op ns cs >>= fun _ => pure none := by
  cases op <;> first | rfl | exact absurd rfl hret | exact absurd rfl hunwrap

theorem bind_run_ok {α β : Type} {x : Exec α} {g : α → Exec β} {b : β} (h : (x >>= g).run m = (.ok b, m')) :
    ∃ a m₁, x.run m = (.ok a, m₁) ∧ (g a).run m₁ = (.ok b, m') := by
  rw [bind_run] at h
  generalize x.run m = y at h
  obtain ⟨_ | a, m₁⟩ := y
  · cases h
  · exact ⟨a, m₁, rfl, h⟩

theorem bind_run_of_ok {α β : Type} {x : Exec α} {g : α → Exec β} {a : α} {m₁ : Machine}
    (h : x.run m = (.ok a, m₁)) : (x >>= g).run m = (g a).run m₁ := by
  rw [bind_run, h]

theorem operandAt_run {α : Type} {items : Array α} {i : Nat} {a : α} :
    (operandAt items i).run m = (.ok a, m') ↔ items[i]? = some a ∧ m' = m := by
  rw [operandAt]
  cases items[i]? with
  | none =>
    constructor
    · intro h
      cases h
    · intro h
      cases h.1
  | some b =>
    constructor
    · intro h
      obtain ⟨hb, rfl⟩ := Prod.mk.inj h
      exact ⟨congrArg some (Except.ok.inj hb), rfl⟩
    · intro h
      rw [Option.some.inj h.1, h.2]
      rfl

theorem constantAt_run (hm : m.frames = f :: fs) {i : Nat} {v : Value} :
    (constantAt i).run m = (.ok v, m') ↔ f.chunk.constants[i]? = some v ∧ m' = m := by
  rw [constantAt, bind_run_of_ok (frame_run hm), operandAt_run]

theorem localCell_run (hm : m.frames = f :: fs) {i : Nat} {a : Ref} :
    (localCell i).run m = (.ok a, m') ↔ f.locals[i]? = some (.cell a) ∧ m' = m := by
  refine ⟨fun h => ?_, fun ⟨ha, hm'⟩ => ?_⟩
  · obtain ⟨v, m₁, hv, hcell⟩ := bind_run_ok h
    rw [getLocal, bind_run_of_ok (frame_run hm), operandAt_run] at hv
    obtain ⟨hv, rfl⟩ := hv
    split at hcell
    · obtain ⟨ha, rfl⟩ := Prod.mk.inj hcell
      exact ⟨by rw [hv, Except.ok.inj ha], rfl⟩
    · cases hcell
  · have hv : (getLocal i).run m = (.ok (.cell a), m) := by
      rw [getLocal, bind_run_of_ok (frame_run hm), operandAt_run]
      exact ⟨ha, rfl⟩
    rw [localCell, bind_run_of_ok hv, hm']
    rfl

theorem freeCell_run (hm : m.frames = f :: fs) {i : Nat} {a : Ref} :
    (freeCell i).run m = (.ok a, m') ↔ f.free[i]? = some a ∧ m' = m := by
  rw [freeCell, bind_run_of_ok (frame_run hm), operandAt_run, List.getElem?_toArray]

theorem cellOf_run (hm : m.frames = f :: fs) {c : Capture} {a : Ref} :
    (cellOf c).run m = (.ok a, m') ↔ f.Captures c a ∧ m' = m := by
  rw [cellOf, Frame.Captures]
  split
  · exact localCell_run hm
  · exact freeCell_run hm

theorem mapM_cellOf_run (hm : m.frames = f :: fs) {cs : List Capture} {cells : List Ref}
    (h : List.Forall₂ f.Captures cs cells) : (cs.mapM cellOf).run m = (.ok cells, m) := by
  induction h with
  | nil => rfl
  | cons hc _ ih =>
    rw [List.mapM_cons, bind_run_of_ok ((cellOf_run hm).mpr ⟨hc, rfl⟩), bind_run_of_ok ih]
    rfl

theorem captureCells_succ (n : Nat) : captureCells (n + 1) = readByte >>= fun b => readWord 2 >>= fun i =>
    cellOf ⟨b == 1, i⟩ >>= fun a => captureCells n >>= fun cells => pure (a :: cells) := by
  rw [captureCells]
  refine bind_congr fun b => bind_congr fun i => ?_
  rw [cellOf]
  dsimp only
  split <;> rfl

theorem captureCells_run : (cs : List Capture) → {m m' : Machine} → {f : Frame} → {cells : List Ref} →
    m.frames = f :: fs → (∀ c ∈ cs, c.index < 256 ^ 2) → f.Ahead (cs.flatMap Asm.captureBytes) →
      (captureCells cs.length).run m = (.ok cells, m') →
        List.Forall₂ f.Captures cs cells ∧ m' = m.withFrames (f.skip (3 * cs.length) :: fs)
  | [], m, _, f, cells, hm, _, _, h => by
    obtain ⟨hcells, rfl⟩ := Prod.mk.inj h
    obtain rfl := Except.ok.inj hcells
    exact ⟨.nil, (Machine.withFrames_self hm).symm⟩
  | c :: cs, m, _, f, cells, hm, hindex, hahead, h => by
    rw [List.flatMap_cons, Asm.captureBytes, List.cons_append] at hahead
    have hflag : ((if c.isLocal then 1 else 0 : UInt8) == 1) = c.isLocal := by cases c.isLocal <;> rfl
    rw [List.length_cons, captureCells_succ, bind_run_of_ok (readByte_run hm hahead),
      bind_run_of_ok (readWord_run (f := f.skip 1) rfl (by decide) (hindex c (by simp)) hahead.tail),
      hflag] at h
    obtain ⟨a, m₁, hcell, h⟩ := bind_run_ok h
    obtain ⟨ha, rfl⟩ := (cellOf_run (f := (f.skip 1).skip 2) rfl).mp hcell
    obtain ⟨rest, m₂, hrest, h⟩ := bind_run_ok h
    obtain ⟨hcells, rfl⟩ := captureCells_run cs (f := (f.skip 1).skip 2) rfl
      (fun x hx => hindex x (by simp [hx])) hahead.tail.word hrest
    obtain ⟨hcons, rfl⟩ := Prod.mk.inj h
    obtain rfl := Except.ok.inj hcons
    refine ⟨.cons ha hcells, ?_⟩
    rw [Machine.withFrames_withFrames, Machine.withFrames_withFrames, Frame.skip_skip, Frame.skip_skip,
      List.length_cons]
    exact congrArg (fun n => m.withFrames (f.skip n :: fs)) (by omega)

theorem step_run (hm : m.frames = f :: fs) {op : Opcode} {bs : List UInt8} (h : f.Ahead (op.byte :: bs)) :
    step.run m = (execute op).run (m.withFrames (f.skip 1 :: fs)) := by
  rw [step, bind_run_of_ok (readByte_run hm h), Opcode.ofByte?_byte]

theorem closure_acts {k : Nat} {cs : List Capture} (hm : m.frames = f :: fs) (hk : k < 256 ^ 2)
    (hcount : cs.length < 256) (hindex : ∀ c ∈ cs, c.index < 256 ^ 2)
    (hahead : f.Ahead (littleEndian 2 k ++ (UInt8.ofNat cs.length :: cs.flatMap Asm.captureBytes)))
    (hrun : makeClosure.run m = (.ok (), m')) :
    (act .closure [k, cs.length] cs).run (m.withFrames (f.skip (3 + 3 * cs.length) :: fs)) = (.ok (), m') := by
  rw [makeClosure, readConstant_eq, bind_assoc, bind_run_of_ok (readWord_run hm (by decide) hk hahead)] at hrun
  obtain ⟨v, m₁, hconstant, hrun⟩ := bind_run_ok hrun
  obtain ⟨hv, rfl⟩ := (constantAt_run (f := f.skip 2) rfl).mp hconstant
  rw [bind_run_of_ok (readByte_run (f := f.skip 2) rfl hahead.word), littleEndian_one hcount] at hrun
  cases v with
  | func r =>
    obtain ⟨cells, m₂, hcells, hrun⟩ := bind_run_ok hrun
    obtain ⟨hcaptures, rfl⟩ := captureCells_run cs (f := (f.skip 2).skip 1) rfl hindex hahead.word.tail hcells
    have hskip : ((f.skip 2).skip 1).skip (3 * cs.length) = f.skip (3 + 3 * cs.length) := by
      rw [Frame.skip_skip, Frame.skip_skip]
      exact congrArg f.skip (by omega)
    rw [Machine.withFrames_withFrames, Machine.withFrames_withFrames, hskip] at hrun
    have hfunc : (constantAt k).run (m.withFrames (f.skip (3 + 3 * cs.length) :: fs))
        = (.ok (.func r), m.withFrames (f.skip (3 + 3 * cs.length) :: fs)) :=
      (constantAt_run (f := f.skip (3 + 3 * cs.length)) rfl).mpr ⟨hv, rfl⟩
    have hcellsOf := mapM_cellOf_run (m := m.withFrames (f.skip (3 + 3 * cs.length) :: fs)) rfl hcaptures
    exact (bind_run_of_ok hfunc).trans ((bind_run_of_ok hcellsOf).trans hrun)
  | _ => cases hrun

theorem new_acts {k n : Nat} (hm : m.frames = f :: fs) (hk : k < 256 ^ 2) (hn : n < 256)
    (hahead : f.Ahead (littleEndian 2 k ++ [UInt8.ofNat n])) (hrun : (operate .new).run m = (.ok (), m')) :
    (act .new [k, n] []).run (m.withFrames (f.skip 3 :: fs)) = (.ok (), m') := by
  rw [operate, readConstant_eq, bind_assoc,
    bind_run_of_ok (readWord_run hm (by decide) hk hahead)] at hrun
  obtain ⟨v, m₁, hconstant, hrun⟩ := bind_run_ok hrun
  obtain ⟨hv, rfl⟩ := (constantAt_run (f := f.skip 2) rfl).mp hconstant
  rw [bind_run_of_ok (readByte_run (f := f.skip 2) rfl hahead.word), littleEndian_one hn] at hrun
  have hctor : (constantAt k).run (m.withFrames (f.skip 3 :: fs)) = (.ok v, m.withFrames (f.skip 3 :: fs)) :=
    (constantAt_run (f := f.skip 3) rfl).mpr ⟨hv, rfl⟩
  exact (bind_run_of_ok hctor).trans hrun

theorem operate_acts {x : Instruction} (hx : x.Fits) (hahead : f.Ahead x.bytes)
    (hrun : (operate x.op).run (m.withFrames (f.skip 1 :: fs)) = (.ok (), m')) :
    (act x.op x.operands x.captures).run (m.withFrames (f.skip x.size :: fs)) = (.ok (), m') := by
  have hread {w n : Nat} (hn : n < 256 ^ w) (hpos : 0 < w) (hbytes : x.bytes = x.op.byte :: littleEndian w n) :
      (readWord w).run (m.withFrames (f.skip 1 :: fs)) = (.ok n, m.withFrames (f.skip (1 + w) :: fs)) := by
    rw [hbytes] at hahead
    have hword : (f.skip 1).Ahead (littleEndian w n ++ []) := by
      rw [List.append_nil]
      exact hahead.tail
    rw [readWord_run (f := f.skip 1) rfl hpos hn hword, Frame.skip_skip]
    rfl
  rcases x.op.widths_cases with hw | hw | hw | hw | hw | hw
  · obtain ⟨hoperands, hcaptures⟩ := hx.plain hw
    rw [operate_plain hw] at hrun
    rw [Instruction.size, hw, hoperands, hcaptures]
    exact hrun
  · obtain ⟨n, hn, hoperands, hcaptures, hbytes⟩ := hx.single hw
    rw [operate_word hw, bind_run_of_ok (hread hn (by decide) hbytes)] at hrun
    rw [Instruction.size, hw, hoperands, hcaptures]
    exact hrun
  · obtain ⟨n, hn, hoperands, hcaptures, hbytes⟩ := hx.single hw
    rw [operate_jump hw, bind_run_of_ok (hread hn (by decide) hbytes)] at hrun
    rw [Instruction.size, hw, hoperands, hcaptures]
    exact hrun
  · obtain ⟨n, hn, hoperands, hcaptures, hbytes⟩ := hx.single (w := 1) (by rw [hw]; rfl)
    rw [hbytes] at hahead
    rw [hw, operate_call, bind_run_of_ok (readByte_run (f := f.skip 1) rfl hahead.tail),
      littleEndian_one hn] at hrun
    rw [Instruction.size, hw, hoperands, hcaptures]
    exact hrun
  · obtain ⟨k, n, hk, hn, hoperands, hcaptures, hbytes⟩ := hx.new hw
    rw [hbytes] at hahead
    rw [hw] at hrun
    rw [Instruction.size, hw, hoperands, hcaptures]
    have hacts := new_acts (m := m.withFrames (f.skip 1 :: fs)) rfl hk hn hahead.tail hrun
    rwa [Machine.withFrames_withFrames, Frame.skip_skip] at hacts
  · obtain ⟨k, hoperands, hk, hcount, hindex⟩ := hx.closure hw
    have hbytes : x.bytes = Opcode.closure.byte ::
        (littleEndian 2 k ++ (UInt8.ofNat x.captures.length :: x.captures.flatMap Asm.captureBytes)) := by
      rw [Instruction.bytes, hw, hoperands]
      rfl
    rw [hbytes] at hahead
    rw [hw] at hrun
    rw [Instruction.size, hw, hoperands]
    have hacts := closure_acts (m := m.withFrames (f.skip 1 :: fs)) rfl hk hcount hindex hahead.tail hrun
    rw [Machine.withFrames_withFrames, Frame.skip_skip, ← Nat.add_assoc] at hacts
    exact hacts

theorem step_performs {x : Instruction} (hx : x.Fits) (hm : m.frames = f :: fs) (hahead : f.Ahead x.bytes)
    (hrun : step.run m = (.ok r, m')) :
    (perform x.op x.operands x.captures).run (m.withFrames (f.skip x.size :: fs)) = (.ok r, m') := by
  rw [step_run hm hahead] at hrun
  by_cases hleaves : x.op = .ret ∨ x.op = .unwrapOrReturn
  · have hw : x.op.widths = [] := by rcases hleaves with hop | hop <;> rw [hop] <;> rfl
    have hsize : x.size = 1 := by rw [Instruction.size, hw, (hx.plain hw).2]; rfl
    have hperform : perform x.op x.operands x.captures = execute x.op := by
      rcases hleaves with hop | hop <;> rw [hop] <;> rfl
    rw [hperform, hsize]
    exact hrun
  · have hret : x.op ≠ .ret := fun hop => hleaves (.inl hop)
    have hunwrap : x.op ≠ .unwrapOrReturn := fun hop => hleaves (.inr hop)
    rw [execute_eq hret hunwrap] at hrun
    obtain ⟨_, m₁, hoperate, hrun⟩ := bind_run_ok hrun
    rw [perform_eq hret hunwrap, bind_run_of_ok (operate_acts hx hahead hoperate)]
    exact hrun

end Exec

/-- Whether an instruction hands control over to another place: it jumps, enters code, or leaves its
call. -/
def Opcode.Transfers (m : Machine) : Opcode → Prop
  | jump | loop | ret => True
  | jumpIfFalse => ∃ v, m.stack.head? = some v ∧ v.truthy = false
  | call => ∃ v, m.stack.head? = some v ∧ v.entered = true
  | unwrapOrReturn => ∃ v w, m.stack.head? = some v ∧ m.world.heap.unwrap v = .failure w
  | _ => False

namespace Exec

variable {m m' : Machine} {f : Frame} {fs : List Frame} {r : Option Value}

theorem pop_bind_run_ok {α : Type} {g : Value → Exec α} {a : α} (h : (pop >>= g).run m = (.ok a, m')) :
    ∃ v vs, m.stack = v :: vs ∧ (g v).run { m with stack := vs } = (.ok a, m') := by
  obtain ⟨w, gs, _ | ⟨v, vs⟩, fs, b⟩ := m
  · cases h
  · exact ⟨v, vs, rfl, h⟩

theorem Steady.stays {α : Type} {x : Exec α} (hx : Steady x) {a : α} (hm : m.frames = f :: fs)
    (h : x.run m = (.ok a, m')) : ∃ ls, m'.frames = { f with locals := ls } :: fs := by
  have hframes := (hx m).frames f fs hm
  rwa [h] at hframes

theorem perform_stays {op : Opcode} (hop : ¬ op.Transfers m) (hm : m.frames = f :: fs) {ns : List Nat}
    {cs : List Capture} (hrun : (perform op ns cs).run m = (.ok r, m')) :
    r = none ∧ ∃ ls, m'.frames = { f with locals := ls } :: fs := by
  by_cases hleave : op.mayLeave = false
  · have hne : op ≠ .ret ∧ op ≠ .unwrapOrReturn := by
      constructor <;> rintro rfl <;> cases hleave
    rw [perform_eq hne.1 hne.2] at hrun
    obtain ⟨_, m₁, hact, hrun⟩ := bind_run_ok hrun
    obtain ⟨hr, rfl⟩ := Prod.mk.inj hrun
    exact ⟨(Except.ok.inj hr).symm, (act_steady hleave ns cs).stays hm hact⟩
  · cases op with
    | jump | loop | ret => exact absurd trivial hop
    | jumpIfFalse =>
      obtain ⟨_, m₁, hact, hrun⟩ := bind_run_ok hrun
      obtain ⟨v, vs, hstack, hact⟩ := pop_bind_run_ok hact
      have htruthy : v.truthy = true := by
        by_contra hfalse
        exact hop ⟨v, by rw [hstack]; rfl, by simpa using hfalse⟩
      rw [htruthy] at hact
      obtain ⟨-, rfl⟩ := Prod.mk.inj hact
      obtain ⟨hr, rfl⟩ := Prod.mk.inj hrun
      exact ⟨(Except.ok.inj hr).symm, f.locals, hm⟩
    | call =>
      obtain ⟨_, m₁, hact, hrun⟩ := bind_run_ok hrun
      obtain ⟨v, vs, hstack, hact⟩ := pop_bind_run_ok hact
      have hentered : v.entered = false := by
        by_contra htrue
        exact hop ⟨v, by rw [hstack]; rfl, by simpa using htrue⟩
      obtain ⟨hr, rfl⟩ := Prod.mk.inj hrun
      have hstays := (callValue_steady hentered _).stays (m := { m with stack := vs }) hm hact
      exact ⟨(Except.ok.inj hr).symm, hstays⟩
    | unwrapOrReturn =>
      obtain ⟨v, vs, hstack, hrun⟩ := pop_bind_run_ok hrun
      have hlook : (look fun h => h.unwrap v).run { m with stack := vs }
          = (.ok (m.world.heap.unwrap v), { m with stack := vs }) := rfl
      rw [bind_run_of_ok hlook] at hrun
      cases hunwrap : m.world.heap.unwrap v with
      | payload p =>
        rw [hunwrap] at hrun
        obtain ⟨hr, rfl⟩ := Prod.mk.inj hrun
        exact ⟨(Except.ok.inj hr).symm, f.locals, hm⟩
      | failure w => exact absurd ⟨v, w, by rw [hstack]; rfl, hunwrap⟩ hop
      | broken =>
        rw [hunwrap] at hrun
        cases hrun
    | _ => exact absurd rfl hleave

end Exec

/-- Whether the readers of code find the same instructions in a chunk. When the machine stands at one of
them, and its step succeeds, it performs the instruction on the operands that are decoded, and it has read
as many bytes as the instruction is measured to have. There it goes on, unless it hands control over. -/
structure Chunk.Coded (c : Chunk) (ds : List Decoded) : Prop where
  decodes : c.decode? = some ds
  lengths : ∀ d ∈ ds, c.instructionLength? d.offset = some d.size
  reads : ∀ d ∈ ds, ∀ (m m' : Machine) (f : Frame) (fs : List Frame) (r : Option Value), m.frames = f :: fs →
    f.chunk.code = c.code → f.ip = d.offset → Exec.step.run m = (.ok r, m') →
      ∃ op, Opcode.ofByte? d.byte = some op ∧
        (Exec.perform op d.operands d.captures).run (m.withFrames (f.skip d.size :: fs)) = (.ok r, m') ∧
          (¬ op.Transfers m → r = none ∧ ∃ ls, m'.frames = { f.skip d.size with locals := ls } :: fs)

theorem Chunk.coded_of_bytes {c : Chunk} {xs : List Instruction} (h : ∀ x ∈ xs, x.Fits)
    (hc : c.code.toList = xs.flatMap Instruction.bytes) : c.Coded (Instruction.placed 0 xs) := by
  have hdrop : c.code.toList.drop 0 = xs.flatMap Instruction.bytes := hc
  refine ⟨decodeFrom?_placed h hdrop _ ?_, fun d hd => ?_, fun d hd m m' f fs r hm hcode hip hrun => ?_⟩
  · rw [← Array.length_toList, hc]
    exact Instruction.length_le_bytes xs
  · obtain ⟨x, rest, hx, hdx, hat⟩ := exists_of_mem_placed h hdrop hd
    rw [instructionLength?_of_decodeAt? (decodeAt?_bytes hx hat), ← hdx]
  · obtain ⟨x, rest, hx, hdx, hat⟩ := exists_of_mem_placed h hdrop hd
    have hahead : f.Ahead x.bytes := ⟨rest, by rw [hcode, hip, hat]⟩
    have hperform := Exec.step_performs hx hm hahead hrun
    rw [hdx]
    refine ⟨x.op, Opcode.ofByte?_byte x.op, hperform, fun hop => ?_⟩
    exact Exec.perform_stays (m := m.withFrames (f.skip x.size :: fs)) hop rfl hperform

namespace Asm

def instruction (start : Nat → Nat) (i : Nat) (line : Int) : Asm → Instruction
  | op c ns => ⟨c, ns, [], line⟩
  | closure k cs => ⟨.closure, [k, cs.length], cs, line⟩
  | skip n => ⟨.jump, [start (i + 1 + n)], [], line⟩
  | skipIfFalse n => ⟨.jumpIfFalse, [start (i + 1 + n)], [], line⟩
  | back n => ⟨.loop, [start (i - n)], [], line⟩
  | exit _ => ⟨.jump, [start (i + 1)], [], line⟩

theorem instruction_fits {a : Asm} (ha : a.Fits) {start : Nat → Nat} {i : Nat} (hr : a.Reaches start i)
    (line : Int) : (a.instruction start i line).Fits := by
  have hjump {k : Opcode} {n : Nat} (hk : k.widths = [4]) (hn : n < 256 ^ 4) :
      (⟨k, [n], [], line⟩ : Instruction).Fits := by
    refine ⟨hk ▸ .cons hn .nil, ?_⟩
    rw [if_neg (by rintro rfl; cases hk)]
  cases a with
  | op c ns =>
    have hc : c ≠ .closure := by
      rintro rfl
      cases ha.1
    exact ⟨ha.2, (if_neg hc).mpr rfl⟩
  | closure k cs => exact ⟨.cons ha.1 (.cons (by simpa using ha.2.1) .nil), rfl, ha.2.2⟩
  | skip n | skipIfFalse n | back n | exit k => exact hjump rfl hr

theorem instruction_bytes (start : Nat → Nat) (i : Nat) (line : Int) (a : Asm) :
    (a.instruction start i line).bytes = a.bytes start i := by
  cases a <;> simp [instruction, Instruction.bytes, Exec.operandBytes, bytes, Opcode.widths]

end Asm

namespace Assembly

/-- The instructions of some code with their jumps settled, the first of which has place `i`. -/
def instructions (start : Nat → Nat) : Nat → Assembly → List Instruction
  | _, [] => []
  | i, l :: ls => l.asm.instruction start i l.line :: instructions start (i + 1) ls

theorem instructions_fit {start : Nat → Nat} : (code : Assembly) → (k : Nat) → code.Fits →
    (∀ (i : Nat) (l : Asm.Line), code[i]? = some l → l.asm.Reaches start (k + i)) →
      ∀ x ∈ instructions start k code, x.Fits
  | [], _, _, _ => by simp [instructions]
  | l :: ls, k, hfits, hreaches => by
    refine List.forall_mem_cons.mpr ⟨Asm.instruction_fits (hfits l (by simp)) (hreaches 0 l rfl) _, ?_⟩
    refine instructions_fit ls (k + 1) (fun x hx => hfits x (by simp [hx])) fun i x hx => ?_
    rw [Nat.add_assoc, Nat.add_comm 1]
    exact hreaches (i + 1) x hx

theorem write_eq {start : Nat → Nat} (code : Assembly) (k : Nat) (c : Chunk)
    (h : ∀ x ∈ instructions start k code, x.Fits) :
    write start k c code = c.writeAll (instructions start k code) := by
  induction code generalizing k c with
  | nil => rfl
  | cons l ls ih =>
    rw [instructions] at h ⊢
    rw [Chunk.writeAll_cons _ (h _ (by simp)), write, ih _ _ fun x hx => h x (by simp [hx]),
      Asm.instruction_bytes]
    cases l.asm <;> rfl

end Assembly

/-- Writers and readers of code agree: on all instructions that fit their widths, and on all code that an
engine compiles, which is made of such instructions. -/
theorem instructions_coded :
    (∀ xs : List Instruction, (∀ x ∈ xs, x.Fits) → ∀ c : Chunk, c.code = #[] →
      (c.writeAll xs).Coded (Instruction.placed 0 xs)) ∧
    ∀ (e : Engine) (bs : List Engine.Compiled), e.Session bs →
      ∀ x ∈ e.heap.funcs, ∀ chunk, x.chunk = some chunk →
      ∃ xs : List Instruction, (∀ y ∈ xs, y.Fits) ∧
        chunk = Chunk.writeAll { constants := chunk.constants, file := chunk.file } xs ∧
          chunk.Coded (Instruction.placed 0 xs) := by
  have hwritten (xs : List Instruction) (h : ∀ x ∈ xs, x.Fits) (c : Chunk) (hc : c.code = #[]) :
      (c.writeAll xs).Coded (Instruction.placed 0 xs) :=
    Chunk.coded_of_bytes h (by rw [Chunk.writeAll_code c h, hc]; rfl)
  refine ⟨hwritten, fun e bs he x hx chunk hchunk => ?_⟩
  obtain ⟨L, hL, -, -, hcode, -⟩ := (he.ready.verified x hx).listing (he.ready.short x hx) hchunk
  have hfit : ∀ y ∈ Assembly.instructions L.code.start 0 L.code, y.Fits :=
    Assembly.instructions_fit L.code 0 hL.fits fun i l hl => by
      rw [Nat.zero_add]
      exact hL.reaches i l hl
  have hwrite : chunk = Chunk.writeAll { constants := chunk.constants, file := chunk.file }
      (Assembly.instructions L.code.start 0 L.code) := by
    have hconstants : chunk.constants = L.limits.pool := by rw [hcode, Assembly.chunk_constants]
    rw [hconstants]
    refine hcode.trans ?_
    exact Assembly.write_eq L.code 0 _ hfit
  refine ⟨_, hfit, hwrite, ?_⟩
  rw [hwrite]
  exact hwritten _ hfit _ rfl

/-- Code with a jump, and with a closure that captures a local cell and a captured one. -/
def captured : List Instruction :=
  [⟨.unit, [], [], 1⟩, ⟨.jumpIfFalse, [16], [], 1⟩, ⟨.closure, [0, 2], [⟨true, 1⟩, ⟨false, 0⟩], 2⟩,
    ⟨.unit, [], [], 3⟩, ⟨.ret, [], [], 3⟩]

/-- A call of such code that stands at the closure. -/
def capturing : Frame :=
  ⟨"f", Chunk.writeAll { constants := #[.func 0] } captured, [5], #[.unit, .cell 4], 6, 0⟩

theorem captured_coded :
    ((∀ x ∈ captured, x.Fits) ∧ capturing.chunk.Coded (Instruction.placed 0 captured)) ∧
      (∃ m' : Machine, Exec.step.run
        { world := { heap := {} }, frames := [capturing], budget := 0 } = (.ok none, m') ∧
        (Exec.perform .closure [0, 2] [⟨true, 1⟩, ⟨false, 0⟩]).run
          { world := { heap := {} }, frames := [capturing.skip 10], budget := 0 } = (.ok none, m')) ∧
      ∃ (b : Engine.Compiled) (script : Function) (chunk : Chunk) (xs : List Instruction),
        (Engine.plain.compile Engine.endless "a.jz").2.Session [b] ∧
          (Engine.plain.compile Engine.endless "a.jz").2.heap.func? b.script = some script ∧
            script.chunk = some chunk ∧ chunk.Coded (Instruction.placed 0 xs) := by
  have hfits : ∀ x ∈ captured, x.Fits := by decide
  have hcoded := instructions_coded.1 captured hfits { constants := #[.func 0] } rfl
  refine ⟨⟨hfits, hcoded⟩, ⟨_, rfl, ?_⟩, ?_⟩
  · obtain ⟨op, hop, hperform, -⟩ := hcoded.reads ⟨6, 28, [0, 2], [⟨true, 1⟩, ⟨false, 0⟩], 10⟩
      (.tail _ (.tail _ (.head _))) { world := { heap := {} }, frames := [capturing], budget := 0 } _
      capturing [] none rfl rfl rfl rfl
    obtain rfl := Option.some.inj hop
    exact hperform
  · obtain ⟨b, hsession⟩ := Engine.endless_session
    obtain ⟨script, chunk, hscript, hchunk, -⟩ := hsession.ready.scripts b List.mem_cons_self
    obtain ⟨xs, -, -, hxs⟩ := instructions_coded.2 _ _ hsession script
      (Array.mem_of_getElem? hscript) chunk hchunk
    exact ⟨b, script, chunk, xs, hsession, hscript, hchunk, hxs⟩

end Scripting
