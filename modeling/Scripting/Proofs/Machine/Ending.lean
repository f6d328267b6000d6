import Scripting.Proofs.Machine.Sound

/-!
# Every run ends

Inside a call control goes forward, except for backward jumps, and these use up a budget. The number of
open calls is bounded. `weight` puts the three together: a step that takes no backward jump makes it
smaller.
-/

namespace Scripting

open Exec (maxFrames)

def Decoded.target? (d : Decoded) : Option Nat :=
  match Opcode.ofByte? d.byte with
  | some .jump | some .jumpIfFalse | some .loop => d.operands.head?
  | _ => none

/-- Whether jumps go forward, except for `loop`. -/
def Chunk.Forward (c : Chunk) : Prop :=
  ∃ ds, c.decode? = some ds ∧ ∀ d ∈ ds, ∀ t, d.target? = some t →
    if Opcode.ofByte? d.byte = some .loop then t ≤ d.offset else d.offset < t

theorem Listing.Sound.forward {L : Listing} (h : L.Sound) (file : String) :
    (L.code.chunk L.limits.pool file).Forward := by
  refine ⟨_, Assembly.decode?_chunk h.fits h.reaches _ _, fun d hd t ht => ?_⟩
  obtain ⟨i, l, hi, rfl⟩ := (Assembly.mem_decodedFrom L.code 0).mp hd
  have hin : i < L.code.length := (List.getElem?_eq_some_iff.mp hi).1
  have hgood := h.good hi
  have hstart : ∀ {j}, j ≤ L.code.length → L.code.start j = L.code.offset j := Assembly.start_eq
  have hlater : ∀ n, i + 1 + n < L.code.length → L.code.start i < L.code.start (i + 1 + n) := by
    intro n hn
    rw [hstart (Nat.le_of_lt hin), hstart (Nat.le_of_lt hn)]
    exact Assembly.offset_lt_offset (by omega) hin
  rw [Nat.zero_add] at ht ⊢
  rw [Decoded.target?, Asm.decoded_byte, Opcode.ofByte?_byte] at ht
  rw [Asm.decoded_byte, Opcode.ofByte?_byte, Asm.decoded_offset]
  cases hasm : l.asm with
  | op c ns =>
    rw [hasm] at hgood ht
    obtain ⟨⟨hspecial, -⟩, -⟩ := hgood
    cases c <;> first | exact absurd hspecial (by decide) | exact nomatch ht
  | closure => rw [hasm] at ht; cases ht
  | skip n =>
    rw [hasm] at hgood ht
    obtain rfl := Option.some.inj ht
    exact hlater n hgood.1
  | skipIfFalse n =>
    rw [hasm] at hgood ht
    obtain rfl := Option.some.inj ht
    exact hlater n hgood.2.1
  | back n =>
    rw [hasm] at ht
    obtain rfl := Option.some.inj ht
    show L.code.start (i - n) ≤ L.code.start i
    rw [hstart (by omega), hstart (by omega)]
    exact Assembly.offset_le_offset _ (Nat.sub_le i n)
  | exit k =>
    rw [hasm] at ht
    obtain rfl := Option.some.inj ht
    show L.code.start i < L.code.start (i + 1)
    rw [hstart (by omega), hstart (by omega)]
    exact Assembly.offset_lt_offset (Nat.lt_add_one i) hin

theorem Function.Verified.forward {x : Function} (hx : x.Verified) (hs : x.Short) {chunk : Chunk}
    (hchunk : x.chunk = some chunk) : chunk.Forward := by
  obtain ⟨L, hL, -, -, hcode, -⟩ := hx.listing hs hchunk
  rw [hcode]
  exact hL.forward _

namespace Machine

def loops (m : Machine) : Nat := if m.instruction?.map (·.1) = some .loop then 1 else 0

/-- Runs from a state to their last instruction: the outermost call returns, an instruction fails, or it
never comes to an end, which is `Outcome.unfinished`. `n` counts the backward jumps that were executed, also
one that is refused. -/
inductive Ends : Machine → Nat → Outcome → Machine → Prop
  | last {m m' : Machine} {o : Outcome} (stop : m.next = .inr (o, m')) : Ends m m.loops o m'
  | next {m m' m'' : Machine} {n : Nat} {o : Outcome} (step : m.next = .inl m') (rest : Ends m' n o m'') :
      Ends m (m.loops + n) o m''

theorem finish_eq (m : Machine) : m.finish = match m.next with
    | .inl m' => m'.finish
    | .inr x => x := by
  have : Nonempty (Outcome × Machine) := ⟨(.unfinished, m)⟩
  rw [finish, repeatM_eq_of_monadTail, repeatM.body]
  cases h : m.next <;> rfl

theorem Ends.finish {m m' : Machine} {n : Nat} {o : Outcome} (h : m.Ends n o m') :
    m.finish = (o, m') := by
  induction h with
  | last hstop => rw [finish_eq, hstop]
  | next hstep _ ih =>
    rw [finish_eq, hstep]
    exact ih

theorem Ends.exists_last {m₀ m m' : Machine} {n : Nat} {o : Outcome} {ws : List (List Nat)} (h : m.Ends n o m')
    (hm : m₀.Passes m ws) : ∃ m₁ ws₁, m₀.Passes m₁ ws₁ ∧ m₁.next = .inr (o, m') := by
  induction h generalizing ws with
  | last hstop => exact ⟨_, ws, hm, hstop⟩
  | next hstep _ ih => exact ih (hm.next hstep)

/-- What some instructions lead to. -/
def after (m : Machine) : Nat → Machine ⊕ Outcome × Machine
  | 0 => .inl m
  | n + 1 => match m.next with
    | .inl m => m.after n
    | .inr x => .inr x

theorem finish_of_after {n : Nat} {m : Machine} {x : Outcome × Machine} (h : m.after n = .inr x) :
    m.finish = x := by
  induction n generalizing m with
  | zero => cases h
  | succ n ih =>
    rw [after] at h
    rw [finish_eq]
    generalize m.next = y at h ⊢
    cases y with
    | inl m' => exact ih h
    | inr x' => exact Sum.inr.inj h

theorem after_last {n : Nat} {m m' : Machine} {x : Outcome × Machine} (h : m.after n = .inl m')
    (hlast : m'.next = .inr x) : m.after (n + 1) = .inr x := by
  induction n generalizing m with
  | zero =>
    obtain rfl := Sum.inl.inj h
    rw [after, hlast]
  | succ n ih =>
    rw [after] at h ⊢
    generalize m.next = y at h ⊢
    cases y with
    | inl m₁ => exact ih h
    | inr x' => cases h

theorem after_keeps {P : Machine → Prop} (hstep : ∀ m m', P m → m.next = .inl m' → P m') {n : Nat}
    {m m' : Machine} (hm : P m) (hn : m.after n = .inl m') : P m' := by
  induction n generalizing m with
  | zero =>
    obtain rfl := Sum.inl.inj hn
    exact hm
  | succ n ih =>
    rw [after] at hn
    generalize hnext : m.next = y at hn
    cases y with
    | inl m₁ => exact ih (hstep m m₁ hm hnext) hn
    | inr x => cases hn

theorem Passes.after {n : Nat} {m₀ m m' : Machine} {ws : List (List Nat)} (h : m₀.Passes m ws)
    (hn : m.after n = .inl m') : ∃ ws', m₀.Passes m' ws' :=
  after_keeps (P := fun m => ∃ ws, m₀.Passes m ws) (fun _ _ ⟨_, h⟩ hnext => ⟨_, h.next hnext⟩) ⟨ws, h⟩ hn

end Machine

/-- How many bytes of its code a call has before it. -/
def Frame.ahead (f : Frame) : Nat := f.chunk.code.size - f.ip

/-- How much there is to do for open calls, if no jump goes backward. A byte of a call counts for more
than all the code of the calls that it can make. -/
def weight : List Frame → Nat
  | [] => 0
  | f :: fs => f.ahead * (256 ^ 4) ^ (maxFrames - (fs.length + 1)) + weight fs

theorem weight_goes {f f' : Frame} {fs : List Frame} (h : f'.ahead < f.ahead) :
    weight (f' :: fs) < weight (f :: fs) :=
  Nat.add_lt_add_right (Nat.mul_lt_mul_of_pos_right h (Nat.pow_pos (Nat.pow_pos (by decide)))) _

theorem weight_leaves {f : Frame} {fs : List Frame} (h : 0 < f.ahead) :
    weight fs < weight (f :: fs) :=
  Nat.lt_add_of_pos_left (Nat.mul_pos h (Nat.pow_pos (Nat.pow_pos (by decide))))

theorem weight_enters {f f' g : Frame} {fs : List Frame} (hg : g.ahead < 256 ^ 4)
    (h : f'.ahead < f.ahead) (hroom : fs.length + 1 < maxFrames) :
    weight (g :: f' :: fs) < weight (f :: fs) := by
  obtain ⟨k, hk⟩ : ∃ k, maxFrames - (fs.length + 1) = k + 1 := ⟨maxFrames - (fs.length + 2), by omega⟩
  have hinner : maxFrames - ((f' :: fs).length + 1) = k := by
    rw [List.length_cons]
    omega
  rw [weight, weight, weight, hk, hinner, ← Nat.add_assoc]
  refine Nat.add_lt_add_right ?_ _
  calc g.ahead * (256 ^ 4) ^ k + f'.ahead * (256 ^ 4) ^ (k + 1)
      < 256 ^ 4 * (256 ^ 4) ^ k + f'.ahead * (256 ^ 4) ^ (k + 1) :=
        Nat.add_lt_add_right (Nat.mul_lt_mul_of_pos_right hg (Nat.pow_pos (Nat.pow_pos (by decide)))) _
    _ = (f'.ahead + 1) * (256 ^ 4) ^ (k + 1) := by
        rw [← Nat.pow_succ', Nat.add_mul, Nat.one_mul, Nat.add_comm]
    _ ≤ f.ahead * (256 ^ 4) ^ (k + 1) := Nat.mul_le_mul_right _ h

namespace Frame.At

variable {L : Listing} {i j : Nat} {f f' : Frame}

theorem ahead_eq (h : f.At L i) (hL : L.Sound) :
    f.ahead = L.code.offset L.code.length - L.code.offset i := by
  rw [Frame.ahead, h.ip, h.chunk, Assembly.chunk_size hL.fits]

theorem ahead_lt (h : f.At L i) (h' : f'.At L j) (hL : L.Sound) (hlater : i < j) :
    f'.ahead < f.ahead := by
  have hstep := Assembly.offset_lt_offset hlater h.inside
  have hend := Assembly.offset_lt_offset h'.inside h'.inside
  rw [h.ahead_eq hL, h'.ahead_eq hL]
  omega

theorem ahead_pos (h : f.At L i) (hL : L.Sound) : 0 < f.ahead := by
  rw [h.ahead_eq hL]
  exact Nat.sub_pos_of_lt (Assembly.offset_lt_offset h.inside h.inside)

end Frame.At

namespace Machine

variable {m m' : Machine} {ws : List (List Nat)}

theorem Runs.loops_eq {L : Listing} {i : Nat} {f : Frame} {fs : List Frame} {w : List Nat}
    (h : m.Runs L i f fs w ws) : (L.Backs i → m.loops = 1) ∧ (¬ L.Backs i → m.loops = 0) := by
  obtain ⟨l, hi⟩ := h.here.instruction
  rw [loops, h.here.instruction? h.sound hi h.frames]
  refine ⟨?_, fun hnot => if_neg fun hloop => hnot ⟨l, ?_⟩⟩
  · rintro ⟨l', n, hi', hasm⟩
    obtain rfl := Option.some.inj (hi.symm.trans hi')
    rw [hasm]
    rfl
  · have hopcode : l.asm.opcode = .loop := Option.some.inj hloop
    cases hasm : l.asm with
    | back n => exact ⟨n, hi, rfl⟩
    | op c ns =>
      have hgood := h.sound.good hi
      rw [hasm] at hgood hopcode
      obtain ⟨⟨hspecial, -⟩, -⟩ := hgood
      obtain rfl : c = .loop := hopcode
      cases hspecial
    | _ =>
      rw [hasm] at hopcode
      cases hopcode

theorem Stands.next_smaller (h : m.Stands ws) (hroom : m.frames.length ≤ maxFrames)
    (hnext : m.next = .inl m') : m'.frames.length ≤ maxFrames ∧
      (m.budget = m'.budget + 1 ∧ m.loops = 1 ∨
        m'.budget = m.budget ∧ m.loops = 0 ∧ weight m'.frames < weight m.frames) := by
  obtain ⟨L, i, f, fs, w, ws, rfl, hr⟩ := h.runs
  obtain ⟨hbacks, hstraight⟩ := hr.loops_eq
  have hmoves := next_moves hr.frames hr.sound hr.here hr.height hnext
  generalize hv : m'.view = v at hmoves
  rw [hr.frames] at hroom ⊢
  cases hmoves with
  | goes hnot hlater hstays =>
    obtain ⟨hframes, -, hbudget, -⟩ := View.mk.inj hv
    rw [hframes]
    refine ⟨hroom, .inr ⟨hbudget, hstraight hnot, ?_⟩⟩
    exact weight_goes (hr.here.ahead_lt hstays.there hr.sound hlater)
  | loops hback hbudget' =>
    obtain ⟨hframes, -, hbudget, -⟩ := View.mk.inj hv
    rw [hframes]
    exact ⟨hroom, .inl ⟨by rw [hbudget', hbudget], hbacks hback⟩⟩
  | enters hcall _ hthere _ _ hfits _ _ hknown hcode =>
    obtain ⟨hframes, -, hbudget, -⟩ := View.mk.inj hv
    obtain ⟨l, hi, hasm⟩ := hcall
    rw [hframes]
    refine ⟨hfits, .inr ⟨hbudget, hstraight (Listing.not_backs hi hasm nofun), ?_⟩⟩
    refine weight_enters ?_ (hr.here.ahead_lt hthere hr.sound (Nat.lt_add_one i)) hfits
    exact Nat.lt_of_le_of_lt (Nat.sub_le _ _) (h.short _ (Array.mem_of_getElem? hknown) _ hcode)
  | leaves hreturns =>
    obtain ⟨hframes, -, hbudget, -⟩ := View.mk.inj hv
    rw [hframes]
    refine ⟨Nat.le_trans (Nat.le_succ _) hroom, .inr ⟨hbudget, hstraight hreturns.not_backs, ?_⟩⟩
    exact weight_leaves (hr.here.ahead_pos hr.sound)

theorem loops_le (m : Machine) : m.loops ≤ 1 := by
  rw [loops]
  split <;> decide

theorem Stands.ends (m : Machine) (ws : List (List Nat)) (h : m.Stands ws)
    (hroom : m.frames.length ≤ maxFrames) : ∃ n o m', m.Ends n o m' ∧ n ≤ m.budget + 1 := by
  cases hnext : m.next with
  | inr x => exact ⟨_, _, _, .last hnext, Nat.le_trans m.loops_le (Nat.le_add_left 1 _)⟩
  | inl m' =>
    obtain ⟨hroom', hsmaller⟩ := h.next_smaller hroom hnext
    obtain ⟨n, o, m'', hends, hn⟩ := Stands.ends m' _ (h.next hnext) hroom'
    refine ⟨_, o, m'', .next hnext hends, ?_⟩
    omega
termination_by (m.budget, weight m.frames)
decreasing_by
  rcases hsmaller with ⟨hbudget, -⟩ | ⟨hbudget, -, hweight⟩
  · exact Prod.Lex.left _ _ (by omega)
  · rw [hbudget]
    exact Prod.Lex.right _ hweight

theorem Ends.later {n : Nat} {o : Outcome} (h : m.Ends n o m') (hs : m.Stands ws) :
    m.memory.Later m'.memory := by
  induction h generalizing ws with
  | last hstop =>
    obtain ⟨L, i, f, fs, w, ws, rfl, hr⟩ := hs.runs
    rw [next_ends hr.frames hr.sound hr.here hr.height hstop]
    exact .refl _
  | next hstep _ ih =>
    obtain ⟨L, i, f, fs, w, ws, rfl, hr⟩ := hs.runs
    exact (next_moves hr.frames hr.sound hr.here hr.height hstep).later.trans (ih (hs.next hstep))

end Machine

end Scripting
