import Scripting.Machine.Run
import Scripting.Proofs.Code.Decoding
import Scripting.Proofs.Machine.Moves
import Scripting.Proofs.Script.Verified

/-!
# Runs of checked code

All open calls of a machine stand in checked code and have what their code asks for; `Nested` is what a
step preserves. It follows that no state of a run is at an instruction that finds the stack, the slots
or the code in disorder: `Machine.Safe`.
-/

namespace Scripting

namespace Function

/-- Whether the code of a function can be run in the frames that calls make for it. -/
def Verified (x : Function) : Prop :=
  ∀ chunk, x.chunk = some chunk → ∃ C : Limits, C.locals ≤ x.localCount.toNat ∧
    (C.free : Int) ≤ x.freeCount ∧
      chunk.Verified C ⟨0, fun j => if (j : Int) < x.arity then some false else none⟩

/-- Whether the code of a function has fewer than 2^32 bytes, so that the four bytes of a jump can name every
offset of it. -/
def Short (x : Function) : Prop := ∀ chunk, x.chunk = some chunk → chunk.code.size < 256 ^ 4

end Function

/-- Whether a frame starts a call: `arity` slots are written. -/
structure Listing.Entry (L : Listing) (arity : Int) : Prop where
  height : (L.shape 0).height = 0
  slots : ∀ j x, (L.shape 0).slots j = some x → x = false ∧ (j : Int) < arity

theorem Function.Verified.listing {x : Function} (hx : x.Verified) (hs : x.Short) {chunk : Chunk}
    (hchunk : x.chunk = some chunk) : ∃ L : Listing, L.Sound ∧ L.Entry x.arity ∧ 0 < L.code.length ∧
      chunk = L.code.chunk L.limits.pool chunk.file ∧ L.limits.locals ≤ x.localCount.toNat ∧
        (L.limits.free : Int) ≤ x.freeCount := by
  obtain ⟨C, hlocals, hfree, code, shape, hcode, hpos, hentry, hsits⟩ := hx chunk hchunk
  have hshort := hs chunk hchunk
  refine ⟨⟨C, code, shape⟩, ⟨hsits, ?_⟩, ⟨?_, fun j y hj => ?_⟩, hpos, hcode, hlocals, hfree⟩
  · rw [hcode, Assembly.chunk_size hsits.fits] at hshort
    exact hshort
  · exact Nat.le_zero.mp hentry.height
  · have h := hentry.slots j y hj
    dsimp only at h
    split at h
    · rename_i hlt
      exact ⟨(Option.some.inj h).symm, hlt⟩
    · cases h

/-- Whether open calls stand in checked code. `ws` lists the slots that each of them has written, and
the stack has `n` values. A call that waits for another one will have one value more than that one
found. -/
def Nested : List Frame → List (List Nat) → Nat → Prop
  | [], [], _ => True
  | f :: fs, w :: ws, n => (∃ L i, L.Sound ∧ f.At L i ∧ f.base + (L.shape i).height ≤ n ∧
      ∀ k, ((L.shape i).slots k).isSome → k ∈ w) ∧ Nested fs ws (f.base + 1)
  | _, _, _ => False

namespace Machine

/-- The instruction that comes next. -/
def instruction? (m : Machine) : Option (Opcode × Decoded) := do
  let f ← m.frames.head?
  let d ← f.chunk.decodeAt? f.ip
  let c ← Opcode.ofByte? d.byte
  return (c, d)

/-- The slots that open calls have written, once a machine has made a step to `m'`. A call has written
its arguments when it is entered. -/
def written (m m' : Machine) (ws : List (List Nat)) : List (List Nat) :=
  if m'.frames.length < m.frames.length then ws.tail
  else match m.instruction? with
    | some (.call, d) =>
      if m.frames.length < m'.frames.length then List.range (d.operands.headD 0) :: ws else ws
    | some (.setLocal, d) | some (.makeCell, d) => ws.modifyHead (d.operands.headD 0 :: ·)
    | _ => ws

/-- The states of a run that starts with `m₀`, with the slots that open calls have written. -/
inductive Passes (m₀ : Machine) : Machine → List (List Nat) → Prop
  | start : Passes m₀ m₀ [[]]
  | next {m m' : Machine} {ws : List (List Nat)} (before : Passes m₀ m ws) (step : m.next = .inl m') :
      Passes m₀ m' (m.written m' ws)

end Machine

def Asm.opcode : Asm → Opcode
  | op c _ => c
  | closure .. => .closure
  | skip _ | exit _ => .jump
  | skipIfFalse _ => .jumpIfFalse
  | back _ => .loop

theorem Asm.decoded_byte (start : Nat → Nat) (i : Nat) (a : Asm) :
    (a.decoded start i).byte = a.opcode.byte := by
  cases a <;> rfl

namespace Listing.Sound

variable {L : Listing} {i : Nat} {l : Asm.Line}

theorem reaches (hL : L.Sound) : L.code.Reaches := by
  intro i l hi
  have hstart : ∀ j, j ≤ L.code.length → L.code.start j < 256 ^ 4 := fun j hj => by
    obtain ⟨heq, hlt⟩ := Exec.start_fits hL hj
    rwa [heq]
  have hgood := hL.good hi
  cases hasm : l.asm with
  | op c ns => trivial
  | closure k cs => trivial
  | skip n =>
    rw [hasm] at hgood
    exact hstart _ (Nat.le_of_lt hgood.1)
  | skipIfFalse n =>
    rw [hasm] at hgood
    exact hstart _ (Nat.le_of_lt hgood.2.1)
  | back n =>
    have hlt : i < L.code.length := (List.getElem?_eq_some_iff.mp hi).1
    exact hstart _ (Nat.le_trans (Nat.sub_le i n) (Nat.le_of_lt hlt))
  | exit k => exact hstart _ (List.getElem?_eq_some_iff.mp hi).1

end Listing.Sound

namespace Frame.At

variable {L : Listing} {i : Nat} {l : Asm.Line} {f : Frame}

theorem decodeAt? (h : f.At L i) (hL : L.Sound) (hi : L.code[i]? = some l) :
    f.chunk.decodeAt? f.ip = some (l.asm.decoded L.code.start i) := by
  have hstart : f.ip = L.code.start i := by
    rw [h.ip, Assembly.start_eq (Nat.le_of_lt h.inside)]
  obtain ⟨rest, hrest⟩ := h.ahead hL hi
  rw [hstart] at hrest ⊢
  rw [Asm.decodeAt?_of_drop (hL.fits l (List.mem_of_getElem? hi)) (hL.reaches i l hi) hrest,
    Asm.decoded_at]

theorem instruction? (h : f.At L i) (hL : L.Sound) (hi : L.code[i]? = some l) {m : Machine}
    {fs : List Frame} (hm : m.frames = f :: fs) :
    m.instruction? = some (l.asm.opcode, l.asm.decoded L.code.start i) := by
  rw [Machine.instruction?, hm, List.head?_cons, Option.bind_eq_bind, Option.bind_some,
    h.decodeAt? hL hi, Option.bind_eq_bind, Option.bind_some, Asm.decoded_byte, Opcode.ofByte?_byte]
  rfl

end Frame.At

namespace Machine

open Exec (Moves)

variable {m m' : Machine} {L : Listing} {i : Nat} {f : Frame} {fs : List Frame}

theorem view_eq (hm : m.frames = f :: fs) :
    m.view = ⟨f :: fs, m.stack, m.budget, m.memory⟩ := by
  rw [← hm]
  rfl

theorem next_moves (hm : m.frames = f :: fs) (hL : L.Sound) (h : f.At L i)
    (hheight : f.base + (L.shape i).height ≤ m.stack.length) (hnext : m.next = .inl m') :
    Moves L i f fs m.stack m.budget m.memory none m'.view := by
  have hmoves := Exec.step_moves hL h hheight m (view_eq hm)
  rw [next] at hnext
  generalize Exec.step.run m = x at hmoves hnext
  obtain ⟨r, m''⟩ := x
  cases r with
  | error e => cases hnext
  | ok a =>
    cases a with
    | some v => cases hnext
    | none =>
      obtain rfl := Sum.inl.inj hnext
      exact hmoves

theorem next_ends (hm : m.frames = f :: fs) (hL : L.Sound) (h : f.At L i)
    (hheight : f.base + (L.shape i).height ≤ m.stack.length) {o : Outcome}
    (hnext : m.next = .inr (o, m')) : m'.memory = m.memory := by
  have hmoves := Exec.step_moves hL h hheight m (view_eq hm)
  rw [next] at hnext
  generalize Exec.step.run m = x at hmoves hnext
  obtain ⟨r, m''⟩ := x
  cases r with
  | error e =>
    obtain ⟨-, rfl⟩ := Prod.mk.inj (Sum.inr.inj hnext)
    exact hmoves.2
  | ok a =>
    cases a with
    | none => cases hnext
    | some v =>
      obtain ⟨-, rfl⟩ := Prod.mk.inj (Sum.inr.inj hnext)
      exact Moves.memory hmoves

theorem step_notBroken (hm : m.frames = f :: fs) (hL : L.Sound) (h : f.At L i)
    (hheight : f.base + (L.shape i).height ≤ m.stack.length) (text : String) :
    (Exec.step.run m).1 ≠ .error (.broken text) := by
  intro hbroken
  have hmoves := Exec.step_moves hL h hheight m (view_eq hm)
  generalize Exec.step.run m = x at hmoves hbroken
  obtain ⟨r, m'⟩ := x
  subst hbroken
  exact hmoves.1 text rfl

end Machine

namespace Heap

def Verified (h : Heap) : Prop := ∀ x ∈ h.funcs, x.Verified

/-- Whether the code of each function has less than 2^32 bytes, as many as the operands of jumps can name. -/
def Short (h : Heap) : Prop := ∀ x ∈ h.funcs, x.Short

end Heap

namespace Machine

variable {m m' : Machine} {ws : List (List Nat)}

/-- What holds of a machine that runs checked code. -/
structure Stands (m : Machine) (ws : List (List Nat)) : Prop where
  verified : m.world.heap.Verified
  short : m.world.heap.Short
  running : m.frames ≠ []
  nested : Nested m.frames ws m.stack.length

/-- Where the running call stands. -/
structure Runs (m : Machine) (L : Listing) (i : Nat) (f : Frame) (fs : List Frame) (w : List Nat)
    (ws : List (List Nat)) : Prop where
  frames : m.frames = f :: fs
  sound : L.Sound
  here : f.At L i
  height : f.base + (L.shape i).height ≤ m.stack.length
  slots : ∀ k, ((L.shape i).slots k).isSome → k ∈ w
  outer : Nested fs ws (f.base + 1)

theorem Stands.runs (h : m.Stands ws) : ∃ L i f fs w ws', ws = w :: ws' ∧ m.Runs L i f fs w ws' := by
  have hnested := h.nested
  cases hframes : m.frames with
  | nil => exact absurd hframes h.running
  | cons f fs =>
    rw [hframes] at hnested
    cases ws with
    | nil => exact hnested.elim
    | cons w ws =>
      obtain ⟨⟨L, i, hL, hat, hheight, hslots⟩, houter⟩ := hnested
      exact ⟨L, i, f, fs, w, ws, rfl, hframes, hL, hat, hheight, hslots, houter⟩

variable {L : Listing} {i : Nat} {f : Frame} {fs : List Frame} {w : List Nat}

theorem Runs.written_same (h : m.Runs L i f fs w ws) (hlength : m'.frames.length = m.frames.length)
    {j : Nat} (hleads : L.Leads i j) : ∃ w', m.written m' (w :: ws) = w' :: ws ∧
      ∀ k, ((L.shape j).slots k).isSome → k ∈ w' := by
  obtain ⟨l, hi⟩ := h.here.instruction
  have hold : (¬ ∃ k, L.Writes i k) → ∀ k, ((L.shape j).slots k).isSome → k ∈ w := by
    intro hnone k hk
    rcases hleads k hk with hwrites | hslot
    · exact absurd ⟨k, hwrites⟩ hnone
    · exact h.slots k hslot
  have hnew : ∀ {c : Opcode} {ns : List Nat}, l.asm = .op c ns →
      ∀ k, ((L.shape j).slots k).isSome → k ∈ ns.headD 0 :: w := by
    intro c ns hasm k hk
    rcases hleads k hk with ⟨l', c', ns', hi', hasm', -, rfl⟩ | hslot
    · obtain rfl := Option.some.inj (hi.symm.trans hi')
      obtain ⟨rfl, rfl⟩ := Asm.op.inj (hasm.symm.trans hasm')
      exact List.mem_cons_self
    · exact List.mem_cons_of_mem _ (h.slots k hslot)
  rw [written, if_neg (by omega), h.here.instruction? h.sound hi h.frames]
  have hnone : (∀ c ns, l.asm = .op c ns → c ≠ .setLocal ∧ c ≠ .makeCell) → ¬ ∃ k, L.Writes i k := by
    rintro hne ⟨k, l', c, ns, hi', hasm, hc, -⟩
    obtain rfl := Option.some.inj (hi.symm.trans hi')
    exact hc.elim (hne c ns hasm).1 (hne c ns hasm).2
  cases hasm : l.asm with
  | op c ns =>
    have hdecoded : (Asm.decoded L.code.start i (.op c ns)).operands = ns := rfl
    cases c with
    | setLocal | makeCell => exact ⟨ns.headD 0 :: w, rfl, hnew hasm⟩
    | call =>
      refine ⟨w, if_neg (by omega), hold (hnone fun c ns' h' => ?_)⟩
      obtain ⟨rfl, -⟩ := Asm.op.inj (hasm.symm.trans h')
      exact ⟨by decide, by decide⟩
    | _ =>
      refine ⟨w, rfl, hold (hnone fun c ns' h' => ?_)⟩
      obtain ⟨rfl, -⟩ := Asm.op.inj (hasm.symm.trans h')
      exact ⟨by decide, by decide⟩
  | _ =>
    refine ⟨w, rfl, hold (hnone fun c ns' h' => ?_)⟩
    cases hasm.symm.trans h'

theorem entered {x : Function} {chunk : Chunk} (hx : x.Verified) (hs : x.Short)
    (hchunk : x.chunk = some chunk) {args : List Value} {free : List Ref} (harity : x.arity = args.length)
    (hfree : x.freeCount = free.length) (base : Nat) : ∃ L : Listing, L.Sound ∧
      (⟨x.name, chunk, free, args.toArray ++ Array.replicate (x.localCount.toNat - args.length)
        Value.absent, 0, base⟩ : Frame).At L 0 ∧ (L.shape 0).height = 0 ∧
          (∀ k, ((L.shape 0).slots k).isSome → k ∈ List.range args.length) ∧ L.Entry x.arity := by
  obtain ⟨L, hL, hentry, hpos, hcode, hlocals, hfree'⟩ := hx.listing hs hchunk
  refine ⟨L, hL, ⟨hcode, hpos, by simp, ?_, ?_, fun j hj => ?_⟩, hentry.height, fun k hk => ?_, hentry⟩
  · simp only [Array.size_append, List.size_toArray, Array.size_replicate]
    omega
  · dsimp only
    omega
  · exact absurd (hentry.slots j true hj).1 (by decide)
  · obtain ⟨y, hy⟩ := Option.isSome_iff_exists.mp hk
    have hlt := (hentry.slots k y hy).2
    rw [harity] at hlt
    exact List.mem_range.mpr (by omega)

theorem Stands.next (h : m.Stands ws) (hnext : m.next = .inl m') : m'.Stands (m.written m' ws) := by
  obtain ⟨L, i, f, fs, w, ws, rfl, hr⟩ := h.runs
  have hmoves := next_moves hr.frames hr.sound hr.here hr.height hnext
  have hfuncs : m'.world.heap.funcs = m.world.heap.funcs := hmoves.later.funcs
  generalize hv : m'.view = v at hmoves
  have hlength : m.frames.length = fs.length + 1 := by rw [hr.frames, List.length_cons]
  have hverified : m'.world.heap.Verified := fun x hx => h.verified x (hfuncs ▸ hx)
  have hshort : m'.world.heap.Short := fun x hx => h.short x (hfuncs ▸ hx)
  cases hmoves with
  | goes _ _ hstays | loops _ _ hstays =>
    obtain ⟨hframes, hstack, -, -⟩ := View.mk.inj hv
    obtain ⟨w', hw', hslots⟩ := hr.written_same (by rw [hframes, hlength, List.length_cons]) hstays.leads
    refine ⟨hverified, hshort, by simp [hframes], ?_⟩
    rw [hframes, hstack, hw']
    refine ⟨⟨L, _, hr.sound, hstays.there, ?_, hslots⟩, ?_⟩
    · rw [hstays.base]
      exact hstays.height
    · rw [hstays.base]
      exact hr.outer
  | @enters f' st' args a r x chunk free hcall hleads hthere hrest hheight _ _ _ hfound hcode harity
      hcaptured =>
    obtain ⟨hframes, hstack, -, -⟩ := View.mk.inj hv
    obtain ⟨l, hi, hasm⟩ := hcall
    have hknown : x ∈ m.world.heap.funcs := Array.mem_of_getElem? hfound
    have hbase : f'.base = f.base := by rw [hrest]
    obtain ⟨L', hL', hat, hzero, hrange, -⟩ := entered (h.verified _ hknown) (h.short _ hknown) hcode harity
      hcaptured m'.stack.length
    have hwritten : m.written m' (w :: ws) = List.range args.length :: w :: ws := by
      rw [written, if_neg (by rw [hframes]; simp [hlength]), hr.here.instruction? hr.sound hi hr.frames,
        hasm]
      exact if_pos (by rw [hframes]; simp [hlength])
    refine ⟨hverified, hshort, by simp [hframes], ?_⟩
    rw [hframes, hwritten]
    rw [hstack] at hat ⊢
    refine ⟨⟨L', 0, hL', hat, by simp [hzero], hrange⟩, ⟨L, i + 1, hr.sound, hthere, hbase ▸ hheight, ?_⟩,
      hbase ▸ hr.outer⟩
    -- A call writes no slot of its own frame.
    intro k hk
    rcases hleads k hk with ⟨l', c, ns, hi', hasm', hc, -⟩ | hslot
    · obtain rfl := Option.some.inj (hi.symm.trans hi')
      obtain ⟨rfl, -⟩ := Asm.op.inj (hasm.symm.trans hasm')
      simp at hc
    · exact hr.slots k hslot
  | leaves _ hheight hresult =>
    obtain ⟨hframes, hstack, -, -⟩ := View.mk.inj hv
    have hne : fs ≠ [] := by
      rintro rfl
      cases hresult
    refine ⟨hverified, hshort, by rwa [hframes], ?_⟩
    rw [written, if_pos (by rw [hframes, hlength]; omega), hframes, hstack, List.length_cons, hheight]
    exact hr.outer

theorem Passes.stands {m₀ : Machine} (h₀ : m₀.Stands [[]]) (h : m₀.Passes m ws) : m.Stands ws := by
  induction h with
  | start => exact h₀
  | next _ hnext ih => exact ih.next hnext

end Machine

/-- Whether a frame has what an instruction asks for. The stack has `n` values, and `w` lists the slots
that the call has written. -/
structure Frame.Finds (f : Frame) (n : Nat) (w : List Nat) (c : Opcode) (d : Decoded) : Prop where
  values : f.base + c.pops d.operands ≤ n
  operands : f.Permits c d.operands
  function : c = .closure → ∃ r, f.chunk.constants[d.operands.headD 0]? = some (.func r)
  captures : ∀ k ∈ d.captures, f.Offers k ∧ (k.isLocal → k.index ∈ w)
  written : c = .getLocal ∨ c = .getCell → d.operands.headD 0 ∈ w

/-- Whether an instruction comes next that the running call can execute. `w` lists the slots that the
call has written. -/
structure Machine.Safe (m : Machine) (w : List Nat) : Prop where
  fetches : ∃ f ds d c, m.frames.head? = some f ∧ f.chunk.decode? = some ds ∧ d ∈ ds ∧
    d.offset = f.ip ∧ Opcode.ofByte? d.byte = some c ∧ f.Finds m.stack.length w c d
  notBroken : ∀ text, (Exec.step.run m).1 ≠ .error (.broken text)

theorem Frame.At.finds {L : Listing} {i n : Nat} {l : Asm.Line} {f : Frame} {w : List Nat}
    (h : f.At L i) (hL : L.Sound) (hi : L.code[i]? = some l)
    (hheight : f.base + (L.shape i).height ≤ n) (hslots : ∀ k, ((L.shape i).slots k).isSome → k ∈ w) :
    f.Finds n w l.asm.opcode (l.asm.decoded L.code.start i) := by
  have hgood := hL.good hi
  have hsome : ∀ {k x}, (L.shape i).slots k = some x → k ∈ w := fun {k x} hk =>
    hslots k (by rw [hk]; rfl)
  cases hasm : l.asm with
  | op c ns =>
    rw [hasm] at hgood
    obtain ⟨⟨hspecial, -⟩, hpops, hasks, -⟩ := hgood
    refine ⟨?_, h.permits hasks, ?_, by simp [Asm.decoded], ?_⟩
    · exact Nat.le_trans (Nat.add_le_add_left hpops _) hheight
    · rintro rfl
      cases hspecial
    · rintro (rfl | rfl)
      · exact hsome hasks.2
      · exact hsome hasks.2
  | closure k cs =>
    rw [hasm] at hgood
    obtain ⟨-, hfunc, hfinds, -⟩ := hgood
    refine ⟨?_, trivial, fun _ => ?_, fun c hc => ⟨h.offers (hfinds c hc), fun hlocal => ?_⟩,
      by simp [Asm.opcode]⟩
    · exact Nat.le_trans (Nat.le_add_right _ _) hheight
    · rw [h.constants]
      exact hfunc
    · have hcapture := hfinds c hc
      rw [Limits.Finds, if_pos hlocal] at hcapture
      exact hsome hcapture.2
  | skip | back | exit =>
    exact ⟨Nat.le_trans (Nat.le_add_right _ _) hheight, trivial, by simp [Asm.opcode],
      by simp [Asm.decoded], by simp [Asm.opcode]⟩
  | skipIfFalse =>
    rw [hasm] at hgood
    exact ⟨Nat.le_trans (Nat.add_le_add_left hgood.1 _) hheight, trivial, by simp [Asm.opcode],
      by simp [Asm.decoded], by simp [Asm.opcode]⟩

namespace Machine

theorem Stands.safe {m : Machine} {ws : List (List Nat)} (h : m.Stands ws) :
    m.Safe (ws.headD []) := by
  obtain ⟨L, i, f, fs, w, ws, rfl, hr⟩ := h.runs
  obtain ⟨l, hi⟩ := hr.here.instruction
  refine ⟨⟨f, Assembly.decodedFrom L.code.start 0 L.code, l.asm.decoded L.code.start i, l.asm.opcode,
    by rw [hr.frames]; rfl, ?_, ?_, ?_, ?_, ?_⟩, step_notBroken hr.frames hr.sound hr.here hr.height⟩
  · rw [hr.here.chunk]
    exact Assembly.decode?_chunk hr.sound.fits hr.sound.reaches _ _
  · refine (Assembly.mem_decodedFrom L.code 0).mpr ⟨i, l, hi, ?_⟩
    rw [Nat.zero_add]
  · rw [Asm.decoded_offset, hr.here.ip, Assembly.start_eq (Nat.le_of_lt hr.here.inside)]
  · rw [Asm.decoded_byte, Opcode.ofByte?_byte]
  · exact hr.here.finds hr.sound hi hr.height hr.slots

end Machine

end Scripting
