import Mathlib.Data.Set.Finite.Lattice
import Mathlib.Logic.Relation
import Scripting.Ty.Relations

/-!
# The search for bases

A search for the bases of a type tells types by their texts. Where the texts tell all types apart that are
reached, it finds each of them once, and it ends just if they are finitely many (`mem_allBases`,
`ends_iff_finite`). Of two types with one text, a variable and a type that has its name, say, only the
first counts, and what the other one leads to can be missed.
-/

namespace Scripting.Ty

variable {bases : Ty → List Ty} {t : Ty}

/-- Whether one or more steps to declared bases lead from a type to another. -/
def Reaches (bases : Ty → List Ty) : Ty → Ty → Prop := Relation.TransGen fun a b => b ∈ bases a

def TellsApart (bases : Ty → List Ty) (t : Ty) : Prop :=
  Set.InjOn text {b | Reaches bases t b}

namespace BaseSearch

variable {s : BaseSearch}

theorem found_induct {motive : BaseSearch → List Ty → Prop} (done : ∀ seen, motive ⟨seen, []⟩ [])
    (met : ∀ seen b queue fs, b.text ∈ seen → motive ⟨seen, queue⟩ fs → motive ⟨seen, b :: queue⟩ fs)
    (new : ∀ seen b queue fs, b.text ∉ seen → motive ⟨b.text :: seen, queue ++ bases b⟩ fs →
      motive ⟨seen, b :: queue⟩ (b :: fs))
    (h : s.Ends bases) : motive s (found bases s) := by
  induction h with
  | intro s h ih =>
    have hrest {taken rest} (hstep : s.step bases = some (taken, rest)) :=
      found_of_step hstep (h rest ⟨taken, hstep⟩)
    rcases s with ⟨seen, _ | ⟨b, queue⟩⟩
    · rw [found_of_done rfl]
      exact done seen
    · by_cases hb : b.text ∈ seen
      · have hstep : step bases ⟨seen, b :: queue⟩ = some (none, ⟨seen, queue⟩) := by simp [step, hb]
        rw [hrest hstep]
        exact met seen b queue _ hb (ih _ ⟨_, hstep⟩)
      · have hstep : step bases ⟨seen, b :: queue⟩ =
            some (some b, ⟨b.text :: seen, queue ++ bases b⟩) := by simp [step, hb]
        rw [hrest hstep]
        exact new seen b queue _ hb (ih _ ⟨_, hstep⟩)

theorem reaches_of_mem_found (h : s.Ends bases) (hqueue : ∀ b ∈ s.queue, Reaches bases t b) :
    ∀ b ∈ found bases s, Reaches bases t b := by
  revert hqueue
  refine found_induct (motive := fun s fs => (∀ b ∈ s.queue, Reaches bases t b) →
    ∀ b ∈ fs, Reaches bases t b) ?_ ?_ ?_ h
  · simp
  · intro seen b queue fs _ ih hqueue
    exact ih fun c hc => hqueue c (.tail _ hc)
  · intro seen b queue fs _ ih hqueue c hc
    have hb := hqueue b (.head _)
    rcases List.mem_cons.mp hc with rfl | hc
    · exact hb
    · refine ih (fun d hd => ?_) c hc
      rcases List.mem_append.mp hd with hd | hd
      · exact hqueue d (.tail _ hd)
      · exact hb.tail hd

theorem nodup_found (h : s.Ends bases) :
    ((found bases s).map text).Nodup ∧ ∀ b ∈ found bases s, b.text ∉ s.seen := by
  refine found_induct (motive := fun s fs => (fs.map text).Nodup ∧ ∀ b ∈ fs, b.text ∉ s.seen)
    ?_ ?_ ?_ h
  · simp
  · exact fun _ _ _ _ _ ih => ih
  · rintro seen b queue fs hb ⟨hnodup, hseen⟩
    refine ⟨List.nodup_cons.mpr ⟨fun hmem => ?_, hnodup⟩, fun c hc => ?_⟩
    · obtain ⟨c, hc, heq⟩ := List.mem_map.mp hmem
      exact hseen c hc (heq ▸ .head _)
    · rcases List.mem_cons.mp hc with rfl | hc
      · exact hb
      · exact fun hmem => hseen c hc (.tail _ hmem)

theorem covered_found (h : s.Ends bases) :
    (∀ b ∈ s.queue, b.text ∈ s.seen ∨ b.text ∈ (found bases s).map text) ∧
      ∀ a ∈ found bases s, ∀ b ∈ bases a, b.text ∈ s.seen ∨ b.text ∈ (found bases s).map text := by
  refine found_induct (motive := fun s fs => (∀ b ∈ s.queue, b.text ∈ s.seen ∨ b.text ∈ fs.map text) ∧
    ∀ a ∈ fs, ∀ b ∈ bases a, b.text ∈ s.seen ∨ b.text ∈ fs.map text) ?_ ?_ ?_ h
  · simp
  · rintro seen b queue fs hb ⟨hqueue, hbases⟩
    exact ⟨List.forall_mem_cons.mpr ⟨.inl hb, hqueue⟩, hbases⟩
  · rintro seen b queue fs - ⟨hqueue, hbases⟩
    have hcover {c : Ty} (hc : c.text ∈ b.text :: seen ∨ c.text ∈ fs.map text) :
        c.text ∈ seen ∨ c.text ∈ (b :: fs).map text := by
      simp only [List.map_cons, List.mem_cons] at hc ⊢
      tauto
    refine ⟨List.forall_mem_cons.mpr ⟨.inr (.head _), fun c hc => ?_⟩, fun a ha c hc => ?_⟩
    · exact hcover (hqueue c (List.mem_append_left _ hc))
    · rcases List.mem_cons.mp ha with rfl | ha
      · exact hcover (hqueue c (List.mem_append_right _ hc))
      · exact hcover (hbases a ha c hc)

/-- A search ends if it can meet finitely many texts only: each round drops a type that waits or meets a
further text. -/
theorem ends_of_finite (texts : Finset String) (hqueue : ∀ b ∈ s.queue, Reaches bases t b)
    (htexts : ∀ b, Reaches bases t b → b.text ∈ texts) : s.Ends bases := by
  obtain ⟨seen, queue⟩ := s
  induction hk : (texts.filter (· ∉ seen)).card using Nat.strong_induction_on generalizing seen queue with
  | _ k ih =>
    induction queue with
    | nil => exact ends_of_done rfl
    | cons b queue ihqueue =>
      have hb := hqueue b (.head _)
      by_cases hmet : b.text ∈ seen
      · have hstep : step bases ⟨seen, b :: queue⟩ = some (none, ⟨seen, queue⟩) := by simp [step, hmet]
        refine ends_of_step hstep ?_
        exact ihqueue fun c hc => hqueue c (.tail _ hc)
      · have hstep : step bases ⟨seen, b :: queue⟩ =
            some (some b, ⟨b.text :: seen, queue ++ bases b⟩) := by simp [step, hmet]
        refine ends_of_step hstep (ih _ ?_ _ _ ?_ rfl)
        · rw [← hk]
          refine Finset.card_lt_card (Finset.ssubset_iff_of_subset ?_ |>.mpr ⟨b.text, ?_, ?_⟩)
          · intro x hx
            simp only [Finset.mem_filter, List.mem_cons, not_or] at hx ⊢
            exact ⟨hx.1, hx.2.2⟩
          · simp [htexts b hb, hmet]
          · simp
        · intro c hc
          rcases List.mem_append.mp hc with hc | hc
          · exact hqueue c (.tail _ hc)
          · exact hb.tail hc

end BaseSearch

open BaseSearch

theorem reaches_of_mem_bases : ∀ b ∈ bases t, Reaches bases t b := fun _ hb => .single hb

theorem mem_allBases_of_reaches (hends : Ends bases ⟨[], bases t⟩) (htells : TellsApart bases t) {b : Ty}
    (hb : Reaches bases t b) : b ∈ allBases bases t := by
  obtain ⟨hqueue, hbases⟩ := covered_found hends
  have hmem {c : Ty} (hc : Reaches bases t c) (htext : c.text ∈ (allBases bases t).map text) :
      c ∈ allBases bases t := by
    obtain ⟨d, hd, heq⟩ := List.mem_map.mp htext
    exact htells (reaches_of_mem_found hends reaches_of_mem_bases d hd) hc heq ▸ hd
  induction hb with
  | single h => exact hmem (.single h) ((hqueue _ h).resolve_left List.not_mem_nil)
  | tail hab h ih => exact hmem (hab.tail h) ((hbases _ ih _ h).resolve_left List.not_mem_nil)

theorem mem_allBases (hends : Ends bases ⟨[], bases t⟩) (htells : TellsApart bases t) :
    (allBases bases t).Nodup ∧ ∀ b, b ∈ allBases bases t ↔ Reaches bases t b :=
  ⟨List.Nodup.of_map _ (nodup_found hends).1, fun _ =>
    ⟨reaches_of_mem_found hends reaches_of_mem_bases _, mem_allBases_of_reaches hends htells⟩⟩

theorem ends_iff_finite (htells : TellsApart bases t) :
    Ends bases ⟨[], bases t⟩ ↔ {b | Reaches bases t b}.Finite := by
  constructor
  · intro hends
    exact (List.finite_toSet (allBases bases t)).subset fun b hb => mem_allBases_of_reaches hends htells hb
  · intro hfinite
    refine ends_of_finite (hfinite.image text).toFinset reaches_of_mem_bases fun b hb => ?_
    simpa using ⟨b, hb, rfl⟩

/-- The search never ends where every type that is reached has a base with a longer text, such as a box
of itself. -/
theorem not_ends_of_grows (hne : bases t ≠ [])
    (hgrows : ∀ b, Reaches bases t b → ∃ c ∈ bases b, b.text.length < c.text.length) :
    ¬ Ends bases ⟨[], bases t⟩ := by
  intro hends
  obtain ⟨hqueue, hbases⟩ := covered_found hends
  have hmet {b : Ty} (h : b.text ∈ [] ∨ b.text ∈ (allBases bases t).map text) :
      ∃ c ∈ allBases bases t, c.text = b.text := List.mem_map.mp (h.resolve_left List.not_mem_nil)
  have hlong (n : Nat) : ∃ b ∈ allBases bases t, n ≤ b.text.length := by
    induction n with
    | zero =>
      obtain ⟨b, hb⟩ := List.exists_mem_of_ne_nil _ hne
      obtain ⟨c, hc, -⟩ := hmet (hqueue b hb)
      exact ⟨c, hc, Nat.zero_le _⟩
    | succ n ih =>
      obtain ⟨b, hb, hn⟩ := ih
      obtain ⟨c, hc, hlt⟩ := hgrows b (reaches_of_mem_found hends reaches_of_mem_bases b hb)
      obtain ⟨d, hd, heq⟩ := hmet (hbases b hb c hc)
      exact ⟨d, hd, heq ▸ Nat.lt_of_le_of_lt hn hlt⟩
  obtain ⟨n, hn⟩ := ((List.finite_toSet (allBases bases t)).image fun b => b.text.length).bddAbove
  obtain ⟨b, hb, hlt⟩ := hlong (n + 1)
  exact absurd (hn ⟨b, hb, rfl⟩) (Nat.not_le.mpr hlt)

end Scripting.Ty
