import Scripting.Proofs.Loops.Walk
import Scripting.Proofs.Values.Comparing

/-!
# Ways through a loop

`Walk.Stands` says that the code of a loop stands at its places, that its parts are entered and left as they
should be, and that nothing in it but its own instructions stores into the hidden variables. What control can
do in such a loop follows, whatever the values are.
-/

namespace Scripting

def Asm.Calm : Asm → Prop
  | .op c _ => c ≠ .call ∧ c ≠ .ret ∧ c ≠ .unwrapOrReturn
  | .exit _ => False
  | _ => True

theorem Asm.Calm.settled {a : Asm} (h : a.Calm) : ¬ a.IsExit := by
  cases a with
  | exit => exact h.elim
  | _ => exact id

@[simp] theorem Asm.calm_op {c : Opcode} {ns : List Nat} :
    (Asm.op c ns).Calm ↔ c ≠ .call ∧ c ≠ .ret ∧ c ≠ .unwrapOrReturn := Iff.rfl

@[simp] theorem Asm.calm_back {n : Nat} : (Asm.back n).Calm := trivial

def Placed (as : List Asm) (o : Nat) (bs : List Asm) : Prop := ∀ k a, bs[k]? = some a → as[o + k]? = some a

namespace Walk

open Lowering (loadOp declareOp)

def load (x : Binding) : Asm := .op (loadOp x) [x.index]

def declare (x : Binding) : Asm := .op (declareOp x) [x.index]

variable (w : Walk)

def first : Binding := if w.isRange then w.index else w.limit

def second : Binding := if w.isRange then w.limit else w.index

def test : List Asm :=
  [load w.index, load w.limit] ++ (if w.isRange then [] else [.op .len []]) ++ [.op .lt []]

def head : List Asm :=
  (if w.isRange then [load w.index] else [load w.limit, load w.index, .op .getElem []]) ++ [declare w.item]

def round : List Asm := w.test ++ .skipIfFalse (w.exitAt - w.checkAt - 1) :: w.head

def count : List Asm :=
  [load w.index, .op .const [w.one], .op .add [], declare w.index, .back (w.exitAt - 1 - w.testAt)]

/-- Whether a loop stands at its places in some code. -/
structure Stands (pool : Array Value) (as : List Asm) : Prop where
  first : as[w.firstAt]? = some (declare w.first)
  second : as[w.secondAt]? = some (declare w.second)
  round : Placed as w.testAt w.round
  count : Placed as w.stepAt w.count
  one : pool[w.one]? = some (.int 1)
  /-- The first index of an array is 0. -/
  zero : w.isRange = false → w.between = 1 ∧
    ∃ k, as[w.firstAt + 1]? = some (.op .const [k]) ∧ pool[k]? = some (.int 0)
  /-- The second bound leads to the store behind it, or out of the loop. -/
  bound : ∀ i j a, as[i]? = some a → w.firstAt < i → i < w.secondAt → a.GoesTo i j →
    j ≤ w.secondAt ∨ w.exitAt ≤ j
  inner : ∀ i j a, as[i]? = some a → w.bodyAt ≤ i → i < w.stepAt → a.GoesTo i j →
    (w.bodyAt ≤ j ∧ j ≤ w.stepAt) ∨ j = w.exitAt
  /-- Code around the loop leads to its start or not into it. -/
  outer : ∀ i j a, as[i]? = some a → i < w.firstAt ∨ w.exitAt ≤ i → a.GoesTo i j →
    j ≤ w.firstAt ∨ w.exitAt ≤ j
  spares : ∀ i a, as[i]? = some a → (w.firstAt < i ∧ i < w.secondAt) ∨ (w.bodyAt ≤ i ∧ i < w.stepAt) →
    a.Spares w.index ∧ a.Spares w.limit
  /-- The variables of the loop have places of their own. -/
  apart : [w.index, w.limit, w.item].Pairwise fun x y => (x.storage, x.index) ≠ (y.storage, y.index)
  plain : w.index.captured = false ∧ w.limit.captured = false

theorem secondAt_lt : w.secondAt < w.testAt := Nat.lt_succ_self _

theorem firstAt_lt : w.firstAt < w.secondAt := by
  unfold secondAt
  omega

theorem checkAt_eq : w.checkAt = w.testAt + w.test.length := by
  unfold checkAt test
  cases w.isRange <;> rfl

theorem itemAt_eq : w.itemAt = w.checkAt + w.head.length := by
  unfold itemAt head
  cases w.isRange <;> rfl

theorem bodyAt_eq : w.bodyAt = w.testAt + w.round.length := by
  rw [bodyAt, itemAt_eq, checkAt_eq, round, List.length_append, List.length_cons]
  omega

theorem testAt_lt : w.testAt < w.checkAt := by
  unfold checkAt
  split <;> omega

theorem checkAt_lt : w.checkAt < w.itemAt := by
  unfold itemAt
  split <;> omega

theorem itemAt_lt : w.itemAt < w.bodyAt := Nat.lt_succ_self _

theorem bodyAt_le : w.bodyAt ≤ w.stepAt := Nat.le_add_right _ _

theorem exitAt_eq : w.exitAt = w.stepAt + 5 := rfl

theorem places : w.firstAt < w.secondAt ∧ w.testAt = w.secondAt + 1 ∧ w.testAt < w.checkAt ∧
    w.checkAt < w.itemAt ∧ w.bodyAt = w.itemAt + 1 ∧ w.bodyAt ≤ w.stepAt ∧ w.exitAt = w.stepAt + 5 ∧
      w.checkAt = w.testAt + w.test.length ∧ w.itemAt = w.checkAt + w.head.length ∧
        w.bodyAt = w.testAt + w.round.length :=
  ⟨w.firstAt_lt, rfl, w.testAt_lt, w.checkAt_lt, rfl, w.bodyAt_le, rfl, w.checkAt_eq, w.itemAt_eq, w.bodyAt_eq⟩

variable {w} {pool : Array Value} {as : List Asm} {i j : Nat} {a : Asm}

theorem calm_declare (x : Binding) : (declare x).Calm := by
  cases hs : x.storage <;> cases hc : x.captured <;> simp [declare, declareOp, hs, hc]

theorem declare_spares {x y : Binding} (h : (y.storage, y.index) ≠ (x.storage, x.index)) :
    (declare x).Spares y := by
  have hne : y.storage = x.storage → x.index ≠ y.index := fun hs hi => h (by rw [hs, hi])
  unfold declare declareOp Asm.Spares
  cases hx : x.storage <;> cases hy : y.storage <;> cases x.captured <;> simp [hx, hy] at hne ⊢ <;> exact hne

theorem calm_load (x : Binding) : (load x).Calm := by
  cases hs : x.storage <;> cases hc : x.captured <;> simp [load, loadOp, hs, hc]

theorem calm_test : ∀ a ∈ w.test, a.Calm := by
  unfold test
  cases w.isRange <;> simp [calm_load]

theorem calm_head : ∀ a ∈ w.head, a.Calm := by
  unfold head
  cases w.isRange <;> simp [calm_load, calm_declare]

theorem calm_round : ∀ a ∈ w.round, a.Calm :=
  List.forall_mem_append.mpr ⟨calm_test, List.forall_mem_cons.mpr ⟨trivial, calm_head⟩⟩

theorem calm_count : ∀ a ∈ w.count, a.Calm := by
  simp [count, calm_load, calm_declare]

/-- Instructions of the loop's own lead to the next one. -/
def Onward (a : Asm) : Prop := ∀ i j, a.GoesTo i j → j = i + 1

theorem onward_op (c : Opcode) (ns : List Nat) : Onward (.op c ns) := fun _ _ h => h

theorem onward_test : ∀ a ∈ w.test, Onward a := by
  unfold test
  cases w.isRange <;> simp [load, onward_op]

theorem onward_head : ∀ a ∈ w.head, Onward a := by
  unfold head
  cases w.isRange <;> simp [load, declare, onward_op]

theorem test_getElem? {k : Nat} (hk : k < w.test.length) (h : w.round[k]? = some a) : a ∈ w.test := by
  rw [round, List.getElem?_append_left hk] at h
  exact List.mem_of_getElem? h

theorem round_check : w.round[w.test.length]? = some (.skipIfFalse (w.exitAt - w.checkAt - 1)) := by
  rw [round, List.getElem?_append_right (Nat.le_refl _), Nat.sub_self, List.getElem?_cons_zero]

theorem head_getElem? {k : Nat} (hk : w.test.length < k) (h : w.round[k]? = some a) : a ∈ w.head := by
  rw [round, List.getElem?_append_right (Nat.le_of_lt hk)] at h
  obtain ⟨d, hd⟩ := Nat.exists_eq_add_of_lt hk
  rw [show k - w.test.length = d + 1 by omega, List.getElem?_cons_succ] at h
  exact List.mem_of_getElem? h

namespace Stands

variable (hw : w.Stands pool as)
include hw

theorem round_at (ha : as[i]? = some a) (hlow : w.testAt ≤ i) (hhigh : i < w.bodyAt) :
    w.round[i - w.testAt]? = some a := by
  rw [bodyAt_eq] at hhigh
  have hlt : i - w.testAt < w.round.length := by omega
  have hplaced := hw.round _ _ (List.getElem?_eq_getElem hlt)
  rw [Nat.add_sub_cancel' hlow, ha] at hplaced
  rw [List.getElem?_eq_getElem hlt, Option.some.inj hplaced]

theorem count_at (ha : as[i]? = some a) (hlow : w.stepAt ≤ i) (hhigh : i < w.exitAt) :
    w.count[i - w.stepAt]? = some a := by
  have hlt : i - w.stepAt < w.count.length := by
    rw [exitAt_eq] at hhigh
    exact Nat.sub_lt_left_of_lt_add hlow hhigh
  have hplaced := hw.count _ _ (List.getElem?_eq_getElem hlt)
  rw [Nat.add_sub_cancel' hlow, ha] at hplaced
  rw [List.getElem?_eq_getElem hlt, Option.some.inj hplaced]

theorem calm (ha : as[i]? = some a) (hlow : w.firstAt ≤ i) (hhigh : i < w.exitAt)
    (hbound : ¬ (w.firstAt < i ∧ i < w.secondAt)) (hinner : ¬ (w.bodyAt ≤ i ∧ i < w.stepAt)) : a.Calm := by
  rcases Nat.lt_or_ge i w.testAt with htest | htest
  · have hat : i = w.firstAt ∨ i = w.secondAt := by
      have := w.firstAt_lt
      unfold testAt at htest
      omega
    rcases hat with rfl | rfl
    · exact Option.some.inj (hw.first.symm.trans ha) ▸ calm_declare _
    · exact Option.some.inj (hw.second.symm.trans ha) ▸ calm_declare _
  · rcases Nat.lt_or_ge i w.bodyAt with hbody | hbody
    · exact calm_round a (List.mem_of_getElem? (hw.round_at ha htest hbody))
    · exact calm_count a (List.mem_of_getElem? (hw.count_at ha (by omega) hhigh))

theorem item : as[w.itemAt]? = some (declare w.item) := by
  have hlength : w.round.length = w.test.length + 1 + w.head.length := by
    rw [Walk.round, List.length_append, List.length_cons]
    omega
  have hlast : w.round[w.test.length + w.head.length]? = some (declare w.item) := by
    unfold Walk.round test head
    cases w.isRange <;> rfl
  have hplaced := hw.round _ _ hlast
  have hat : w.testAt + (w.test.length + w.head.length) = w.itemAt := by
    rw [itemAt_eq, checkAt_eq]
    omega
  rwa [hat] at hplaced

theorem round_goes (ha : as[i]? = some a) (hlow : w.testAt ≤ i) (hhigh : i < w.bodyAt) (hgo : a.GoesTo i j) :
    j = i + 1 ∨ i = w.checkAt ∧ j = w.exitAt := by
  have hat := hw.round_at ha hlow hhigh
  have hcheck := w.checkAt_eq
  rcases Nat.lt_trichotomy (i - w.testAt) w.test.length with hlt | heq | hgt
  · exact .inl (onward_test a (test_getElem? hlt hat) i j hgo)
  · rw [heq, round_check] at hat
    obtain rfl := Option.some.inj hat
    obtain rfl : i = w.checkAt := by omega
    refine hgo.imp id fun hj => ⟨rfl, ?_⟩
    have hplaces := w.places
    omega
  · exact .inl (onward_head a (head_getElem? hgt hat) i j hgo)

theorem count_goes (ha : as[i]? = some a) (hlow : w.stepAt ≤ i) (hhigh : i < w.exitAt) (hgo : a.GoesTo i j) :
    if i + 1 < w.exitAt then j = i + 1 else j = w.testAt := by
  have hat := hw.count_at ha hlow hhigh
  have hexit := w.exitAt_eq
  obtain ⟨k, rfl⟩ := Nat.exists_eq_add_of_le hlow
  rw [Nat.add_sub_cancel_left] at hat
  have hk : k < 5 := by omega
  have hplaces : w.testAt ≤ w.stepAt := by
    have hplaces := w.places
    omega
  match k, hk with
  | 0, _ | 1, _ | 2, _ | 3, _ =>
    obtain rfl := Option.some.inj hat
    rw [if_pos (by omega)]
    exact hgo
  | 4, _ =>
    obtain rfl := Option.some.inj hat
    rw [if_neg (by omega)]
    have hj : j = w.stepAt + 4 - (w.exitAt - 1 - w.testAt) := hgo
    omega

end Stands

/-- Where the call can be in a loop. The calls above it were made from the second bound or from the body. -/
structure Within (w : Walk) (p : Post) (m : Machine) (above : List Frame) (f : Frame) (i : Nat) : Prop where
  holds : p.Holds m above f i
  low : w.firstAt < i
  high : i < w.exitAt
  called : above ≠ [] → (w.firstAt + 1 < i ∧ i ≤ w.secondAt) ∨ (w.bodyAt < i ∧ i ≤ w.stepAt)

def Leads (w : Walk) (i j : Nat) : Prop :=
  if i < w.secondAt then j ≤ w.secondAt
  else if i = w.secondAt then j = w.testAt
  else if i < w.bodyAt then j = i + 1
  else if i < w.stepAt then w.bodyAt ≤ j ∧ j ≤ w.stepAt
  else if i + 1 < w.exitAt then j = i + 1
  else j = w.testAt

section

variable {p : Post} {m m' : Machine} {above : List Frame} {f : Frame} {ws : List (List Nat)}

theorem inside_of_holds (h : p.Holds m above f i) (hlow : w.firstAt < i) (hhigh : i < w.exitAt) :
    w.Inside p m := ⟨above, f, i, h, hlow, hhigh⟩

theorem Inside.depth_lt (h : w.Inside p m) : p.depth < m.frames.length := by
  obtain ⟨above, f, i, ⟨⟨fs, hframes, hdepth⟩, -⟩, -⟩ := h
  rw [hframes, List.length_append, List.length_cons]
  omega

theorem stored_value (hp : p.Sound) (hs : m.Stands ws) (h : p.Holds m [] f i) {x : Binding}
    (hx : p.asms[i]? = some (declare x)) : ∃ v st, m.stack = v :: st := by
  obtain ⟨L, fs, hr⟩ := h.runs hp hs
  obtain ⟨l, hl, hasm⟩ := Listing.exists_of_asms (hr.asms ▸ hx)
  have hgood := hr.sound.good hl
  have hpops : ∀ ns, (declareOp x).pops ns = 1 := fun ns => by
    unfold declareOp
    split <;> rfl
  rw [hasm] at hgood
  obtain ⟨-, hheight, -⟩ := hgood
  rw [hpops] at hheight
  exact List.exists_cons_of_length_pos (Nat.lt_of_lt_of_le (Nat.lt_add_left _ hheight) hr.height)

variable (hw : w.Stands p.pool p.asms) (hp : p.Sound) (hs : m.Stands ws) (hnext : m.next = .inl m')
include hw hp hs hnext

theorem Within.steps (h : w.Within p m [] f i) :
    (∃ above' f' j, w.Leads i j ∧ p.Holds m' above' f' j ∧
      (above' ≠ [] → (w.firstAt + 1 < j ∧ j ≤ w.secondAt) ∨ (w.bodyAt < j ∧ j ≤ w.stepAt))) ∨
      (¬ w.Inside p m' ∧ ((i = w.checkAt ∧ p.Stops m' w.exitAt) ∨ (w.firstAt < i ∧ i < w.secondAt) ∨
        (w.bodyAt ≤ i ∧ i < w.stepAt ∧ (p.Stops m' w.exitAt ∨ m'.frames.length = p.depth)))) := by
  have hlow := h.low
  have hhigh := h.high
  have hplaces := w.places
  rcases h.holds.next hp hs hnext with @⟨f', j, a, ha, hgo, hholds, -⟩ | @⟨g, ns, -, -, -, -, ha, hholds, -⟩ |
    ⟨ha, hc, hclosed⟩
  · -- The call goes on with another instruction.
    have hout : w.exitAt ≤ j → ¬ w.Inside p m' := by
      rintro hj ⟨above', f'', j', hholds', -, hhigh'⟩
      obtain ⟨-, -, rfl⟩ := hholds.unique hp hholds'
      omega
    have hleads : w.Leads i j → ∃ above' f' j, w.Leads i j ∧ p.Holds m' above' f' j ∧
        (above' ≠ [] → (w.firstAt + 1 < j ∧ j ≤ w.secondAt) ∨ (w.bodyAt < j ∧ j ≤ w.stepAt)) := fun hleads =>
      ⟨[], f', j, hleads, hholds, fun hne => absurd rfl hne⟩
    unfold Leads at hleads
    rcases Nat.lt_trichotomy i w.secondAt with hi | hi | hi
    · rcases hw.bound i j a ha hlow hi hgo with hj | hj
      · exact .inl (hleads (by rw [if_pos hi]; exact hj))
      · exact .inr ⟨hout hj, .inr (.inl ⟨hlow, hi⟩)⟩
    · subst hi
      obtain rfl := Option.some.inj (hw.second.symm.trans ha)
      exact .inl (hleads (by rw [if_neg (Nat.lt_irrefl _), if_pos rfl]; exact hgo))
    · rw [if_neg (by omega), if_neg (by omega)] at hleads
      rcases Nat.lt_or_ge i w.bodyAt with hround | hround
      · rw [if_pos hround] at hleads
        rcases hw.round_goes ha (by omega) hround hgo with hj | ⟨hi, hj⟩
        · exact .inl (hleads hj)
        · exact .inr ⟨hout (Nat.le_of_eq hj.symm), .inl ⟨hi, f', hj ▸ hholds⟩⟩
      · rw [if_neg (by omega)] at hleads
        rcases Nat.lt_or_ge i w.stepAt with hinner | hinner
        · rw [if_pos hinner] at hleads
          rcases hw.inner i j a ha hround hinner hgo with hj | hj
          · exact .inl (hleads hj)
          · exact .inr ⟨hout (Nat.le_of_eq hj.symm), .inr (.inr ⟨hround, hinner, .inl ⟨f', hj ▸ hholds⟩⟩)⟩
        · rw [if_neg (by omega)] at hleads
          exact .inl (hleads (hw.count_goes ha hinner hhigh hgo))
  · -- It calls a function.
    by_cases hbound : i < w.secondAt
    · refine .inl ⟨_, _, _, ?_, hholds, fun _ => .inl ⟨by omega, by omega⟩⟩
      rw [Leads, if_pos hbound]
      exact hbound
    · by_cases hinner : w.bodyAt ≤ i ∧ i < w.stepAt
      · refine .inl ⟨_, _, _, ?_, hholds, fun _ => .inr ⟨by omega, by omega⟩⟩
        rw [Leads, if_neg hbound, if_neg (by omega), if_neg (by omega), if_pos hinner.2]
        omega
      · exact absurd rfl (hw.calm ha (by omega) hhigh (by omega) hinner).1
  · -- It returns.
    have hout : ¬ w.Inside p m' := fun hin => absurd hin.depth_lt (by omega)
    by_cases hbound : i < w.secondAt
    · exact .inr ⟨hout, .inr (.inl ⟨hlow, hbound⟩)⟩
    · by_cases hinner : w.bodyAt ≤ i ∧ i < w.stepAt
      · exact .inr ⟨hout, .inr (.inr ⟨hinner.1, hinner.2, .inr hclosed⟩)⟩
      · obtain ⟨-, hret, hunwrap⟩ := hw.calm ha (by omega) hhigh (by omega) hinner
        exact (hc.elim hret hunwrap).elim

theorem Within.next (h : w.Within p m above f i) (hin : w.Inside p m') : ∃ above' f' j,
    w.Within p m' above' f' j ∧ (above ≠ [] ∧ f' = f ∧ j = i ∨ above = [] ∧ w.Leads i j) := by
  cases above with
  | nil =>
    rcases h.steps hw hp hs hnext with ⟨above', f', j, hleads, hholds, hcalled⟩ | ⟨hout, -⟩
    · obtain ⟨above₂, f₂, j₂, hholds₂, hlow, hhigh⟩ := hin
      obtain ⟨-, -, rfl⟩ := hholds.unique hp hholds₂
      exact ⟨above', f', j₂, ⟨hholds, hlow, hhigh, hcalled⟩, .inr ⟨rfl, hleads⟩⟩
    · exact absurd hin hout
  | cons g above =>
    obtain ⟨above', hholds, -, -⟩ := h.holds.next_above (P := fun _ => True) hs hnext (fun _ _ => trivial)
      fun _ _ _ _ _ _ _ _ _ => trivial
    exact ⟨above', f, i, ⟨hholds, h.low, h.high, fun _ => h.called nofun⟩, .inl ⟨nofun, rfl, rfl⟩⟩

theorem Within.stored (h : w.Within p m [] f i) (hi : i = w.secondAt ∨ i = w.itemAt) :
    ∃ above' f', w.Within p m' above' f' (i + 1) := by
  have hplaces := w.places
  rcases h.steps hw hp hs hnext with ⟨above', f', j, hleads, hholds, hcalled⟩ | ⟨-, hout⟩
  · obtain rfl : j = i + 1 := by
      rcases hi with rfl | rfl
      · rwa [Leads, if_neg (Nat.lt_irrefl _), if_pos rfl] at hleads
      · rwa [Leads, if_neg (by omega), if_neg (by omega), if_pos (by omega)] at hleads
    exact ⟨above', f', hholds, by omega, by omega, hcalled⟩
  · omega

theorem within_first (hstops : p.Stops m w.firstAt) : ∃ f', w.Within p m' [] f' (w.firstAt + 1) := by
  have hexit : w.firstAt + 1 < w.exitAt := by
    have hplaces := w.places
    omega
  obtain ⟨f, hholds⟩ := hstops
  have hcalm := calm_declare w.first
  rcases hholds.next hp hs hnext with ⟨ha, hgo, hholds', -⟩ | ⟨ha, -⟩ | ⟨ha, hc, -⟩
  · obtain rfl := Option.some.inj (hw.first.symm.trans ha)
    obtain rfl : _ = w.firstAt + 1 := hgo
    exact ⟨_, hholds', Nat.lt_succ_self _, hexit, fun hne => absurd rfl hne⟩
  · rw [Option.some.inj (hw.first.symm.trans ha)] at hcalm
    exact absurd rfl hcalm.1
  · rw [Option.some.inj (hw.first.symm.trans ha)] at hcalm
    exact (hc.elim hcalm.2.1 hcalm.2.2).elim

end

def Timely (w : Walk) (lap : Lap) (i : Nat) : Prop :=
  if i ≤ w.secondAt then lap.second = none ∧ lap.items = [] else lap.second.isSome

def Checked (m₀ : Machine) : Prop := ∀ n m, m₀.after n = .inl m → ∃ ws, m.Stands ws

section

variable {p : Post} {m₀ m m' : Machine} {above : List Frame} {f : Frame} {lap : Lap} {n : Nat}

theorem exists_of_after_succ : {n : Nat} → {m m' : Machine} → m.after (n + 1) = .inl m' →
    ∃ k, m.after n = .inl k ∧ k.next = .inl m'
  | 0, m, m', h => by
    rw [Machine.after] at h
    cases hnext : m.next with
    | inl k =>
      rw [hnext] at h
      exact ⟨m, rfl, hnext.trans h⟩
    | inr x =>
      rw [hnext] at h
      cases h
  | n + 1, m, m', h => by
    rw [Machine.after] at h
    cases hnext : m.next with
    | inl k =>
      rw [hnext] at h
      obtain ⟨k', hk', hlast⟩ := exists_of_after_succ h
      exact ⟨k', by rw [Machine.after, hnext]; exact hk', hlast⟩
    | inr x =>
      rw [hnext] at h
      cases h

theorem after_next (h : m₀.after n = .inl m) (hnext : m.next = .inl m') : m₀.after (n + 1) = .inl m' := by
  rw [Machine.after_add h, Machine.after, hnext]
  rfl

variable (hw : w.Stands p.pool p.asms) (hp : p.Sound) (hchecked : Checked m₀)
include hw hp hchecked

theorem Runs.under (h : w.Runs p m₀ m lap) : (∃ n, m₀.after n = .inl m) ∧
    ∃ above f i, w.Within p m above f i ∧ w.Timely lap i := by
  have hfirst := w.firstAt_lt
  have htest := w.secondAt_lt
  have hitem : w.secondAt < w.itemAt := Nat.lt_trans htest (Nat.lt_trans w.testAt_lt w.checkAt_lt)
  have hlate : ∀ {lap : Lap} {i}, w.secondAt < i → lap.second.isSome → w.Timely lap i := fun hi hsome => by
    rw [Timely, if_neg (Nat.not_le.mpr hi)]
    exact hsome
  induction h with
  | start hreached hstops _ hnext =>
    obtain ⟨ws, hs⟩ := hchecked _ _ hreached
    obtain ⟨f', hwithin⟩ := within_first hw hp hs hnext hstops
    refine ⟨⟨_, after_next hreached hnext⟩, [], f', _, hwithin, ?_⟩
    rw [Timely, if_pos (Nat.succ_le_of_lt hfirst)]
    exact ⟨rfl, rfl⟩
  | second _ hstops _ hnext ih =>
    obtain ⟨⟨n, hreached⟩, above, f, i, hwithin, -⟩ := ih
    obtain ⟨f₀, hholds⟩ := hstops
    obtain ⟨rfl, rfl, rfl⟩ := hholds.unique hp hwithin.holds
    obtain ⟨ws, hs⟩ := hchecked _ _ hreached
    obtain ⟨above', f', hwithin'⟩ := hwithin.stored hw hp hs hnext (.inl rfl)
    exact ⟨⟨_, after_next hreached hnext⟩, above', f', _, hwithin', hlate (Nat.lt_succ_self _) rfl⟩
  | item _ hstops _ hnext ih =>
    obtain ⟨⟨n, hreached⟩, above, f, i, hwithin, htimely⟩ := ih
    obtain ⟨f₀, hholds⟩ := hstops
    obtain ⟨rfl, rfl, rfl⟩ := hholds.unique hp hwithin.holds
    obtain ⟨ws, hs⟩ := hchecked _ _ hreached
    obtain ⟨above', f', hwithin'⟩ := hwithin.stored hw hp hs hnext (.inr rfl)
    rw [Timely, if_neg (Nat.not_le.mpr hitem)] at htimely
    exact ⟨⟨_, after_next hreached hnext⟩, above', f', _, hwithin', hlate (Nat.lt_succ_of_lt hitem) htimely⟩
  | @other m m' lap _ hnotSecond hnotItem hnext hin ih =>
    obtain ⟨⟨n, hreached⟩, above, f, i, hwithin, htimely⟩ := ih
    obtain ⟨ws, hs⟩ := hchecked _ _ hreached
    obtain ⟨above', f', j, hwithin', hplace⟩ := hwithin.next hw hp hs hnext hin
    refine ⟨⟨_, after_next hreached hnext⟩, above', f', j, hwithin', ?_⟩
    rcases hplace with ⟨-, -, rfl⟩ | ⟨rfl, hleads⟩
    · exact htimely
    · have hne : i ≠ w.secondAt := by
        rintro rfl
        exact hnotSecond ⟨f, hwithin.holds⟩
      rcases Nat.lt_or_gt_of_ne hne with hlt | hgt
      · rw [Timely, if_pos (Nat.le_of_lt hlt)] at htimely
        rw [Leads, if_pos hlt] at hleads
        rw [Timely, if_pos hleads]
        exact htimely
      · rw [Timely, if_neg (Nat.not_le.mpr hgt)] at htimely
        refine hlate ?_ htimely
        have := w.testAt_lt
        have := w.checkAt_lt
        have := w.itemAt_lt
        rw [Leads, if_neg (by omega), if_neg hne] at hleads
        split at hleads
        · omega
        · split at hleads
          · omega
          · split at hleads <;> omega

theorem Runs.of_inside (hstart : ∀ f ∈ m₀.frames, f.ip = 0) :
    {n : Nat} → {m : Machine} → m₀.after n = .inl m → w.Inside p m → ∃ lap, w.Runs p m₀ m lap
  | 0, m, h, ⟨above, f, i, hholds, hlow, _⟩ => by
    obtain rfl := Sum.inl.inj h
    obtain ⟨fs, hframes, -⟩ := hholds.frames
    have hip := hstart f (by rw [hframes]; exact List.mem_append_right _ List.mem_cons_self)
    have hzero : i = 0 := hp.start_inj hholds.inside (Nat.zero_lt_of_lt hholds.inside) (by
      rw [← hholds.ip, hip, Assembly.start_eq (Nat.zero_le _), Assembly.offset_zero])
    omega
  | n + 1, m', h, hin => by
    obtain ⟨m, hreached, hnext⟩ := exists_of_after_succ h
    obtain ⟨ws, hs⟩ := hchecked _ _ hreached
    obtain ⟨above, f, i, hholds, hlow, hhigh⟩ := hin
    have hother : w.Inside p m → ¬ p.Stops m w.secondAt → ¬ p.Stops m w.itemAt → ∃ lap, w.Runs p m₀ m' lap :=
      fun hinside hsecond hitem =>
        let ⟨lap, hlap⟩ := Runs.of_inside hstart hreached hinside
        ⟨lap, .other hlap hsecond hitem hnext (inside_of_holds hholds hlow hhigh)⟩
    rcases hholds.back hp hs hnext with rfl | ⟨f₀, i₀, hholds₀⟩ | ⟨g, above₀, hholds₀⟩
    · omega
    · have hin₀ : w.Inside p m' := inside_of_holds hholds hlow hhigh
      have hstops : ∀ {j}, p.Stops m j → j = i₀ := fun ⟨_, h⟩ => (hholds₀.unique hp h).2.2
      by_cases hinside : w.firstAt < i₀ ∧ i₀ < w.exitAt
      · obtain ⟨lap, hlap⟩ := Runs.of_inside hstart hreached (inside_of_holds hholds₀ hinside.1 hinside.2)
        by_cases hsecond : i₀ = w.secondAt
        · subst hsecond
          obtain ⟨v, st, hst⟩ := stored_value hp hs hholds₀ hw.second
          exact ⟨_, .second hlap ⟨f₀, hholds₀⟩ hst hnext⟩
        · by_cases hitem : i₀ = w.itemAt
          · subst hitem
            obtain ⟨v, st, hst⟩ := stored_value hp hs hholds₀ hw.item
            exact ⟨_, .item hlap ⟨f₀, hholds₀⟩ hst hnext⟩
          · exact ⟨lap, .other hlap (fun h => hsecond (hstops h).symm) (fun h => hitem
              (hstops h).symm) hnext hin₀⟩
      · by_cases hfirst : i₀ = w.firstAt
        · subst hfirst
          obtain ⟨v, st, hst⟩ := stored_value hp hs hholds₀ hw.first
          exact ⟨_, .start hreached ⟨f₀, hholds₀⟩ hst hnext⟩
        · -- Control does not come into the loop from elsewhere.
          have houter : ∀ {a j}, p.asms[i₀]? = some a → a.GoesTo i₀ j → ∀ {above' f'}, p.Holds m' above' f' j →
              False := by
            intro a j ha hgo above' f' hholds'
            obtain ⟨-, -, rfl⟩ := hholds'.unique hp hholds
            have := hw.outer i₀ i a ha (by omega) hgo
            omega
          rcases hholds₀.next hp hs hnext with ⟨ha, hgo, hholds', -⟩ | ⟨ha, hholds', -⟩ | ⟨-, -, hclosed⟩
          · exact (houter ha hgo hholds').elim
          · exact (houter ha rfl hholds').elim
          · exact absurd hin₀.depth_lt (by omega)
    · have hne : ∀ j, ¬ p.Stops m j := fun j ⟨f', hstops⟩ => nomatch (hstops.unique hp hholds₀).1
      exact hother (inside_of_holds hholds₀ hlow hhigh) (hne _) (hne _)

theorem Runs.begins (h : w.Runs p m₀ m lap) (hnext : m.next = .inl m') (hstops : p.Stops m' w.bodyAt) :
    ∃ i, p.Stops m i ∧ (i = w.itemAt ∨ w.bodyAt ≤ i ∧ i < w.stepAt) := by
  obtain ⟨⟨n, hreached⟩, above, f, i, hwithin, -⟩ := h.under hw hp hchecked
  obtain ⟨ws, hs⟩ := hchecked n m hreached
  obtain ⟨f₀, hholds⟩ := hstops
  have hplaces := w.places
  obtain ⟨above', f', j, hwithin', hplace⟩ :=
    hwithin.next hw hp hs hnext (inside_of_holds hholds (by omega) (by omega))
  obtain ⟨-, -, rfl⟩ := hholds.unique hp hwithin'.holds
  rcases hplace with ⟨hne, rfl, rfl⟩ | ⟨rfl, hleads⟩
  · have := hwithin.called hne
    omega
  · refine ⟨i, ⟨f, hwithin.holds⟩, ?_⟩
    unfold Leads at hleads
    split at hleads
    · omega
    · split at hleads
      · omega
      · split at hleads
        · omega
        · split at hleads
          · omega
          · split at hleads <;> omega

theorem Runs.bodies (h : w.Runs p m₀ m lap) (hstops : p.Stops m i) (hlow : w.bodyAt ≤ i) (hhigh : i < w.stepAt)
    (hnext : m.next = .inl m') : (∃ above f j, p.Holds m' above f j ∧ w.bodyAt ≤ j ∧ j ≤ w.stepAt) ∨
      p.Stops m' w.exitAt ∨ m'.frames.length = p.depth := by
  obtain ⟨⟨n, hreached⟩, above, f, i', hwithin, -⟩ := h.under hw hp hchecked
  obtain ⟨ws, hs⟩ := hchecked n m hreached
  obtain ⟨f₀, hholds⟩ := hstops
  obtain ⟨rfl, rfl, rfl⟩ := hholds.unique hp hwithin.holds
  have hplaces := w.places
  rcases hwithin.steps hw hp hs hnext with ⟨above', f', j, hleads, hholds', -⟩ | ⟨-, hout⟩
  · rw [Leads, if_neg (by omega), if_neg (by omega), if_neg (by omega), if_pos hhigh] at hleads
    exact .inl ⟨above', f', j, hholds', hleads⟩
  · rcases hout with ⟨rfl, -⟩ | hout | ⟨-, -, hout⟩
    · omega
    · omega
    · exact .inr hout

end

end Walk

end Scripting
