import Mathlib.Data.Set.Card
import Mathlib.Logic.Relation
import Mathlib.Order.Interval.Finset.Nat
import Scripting.Proofs.Values.Agreement

/-!
# Values that hold themselves

Printing follows the items of arrays and lists, the fields of instances and the contents of cells, and
comparing follows items and fields. Nothing keeps a program from storing an object in itself, and then
neither comes to an end. `Knotted` says that such an object is met in a value; printing and comparing
end for all other values.
-/

namespace Scripting

open Relation (ReflTransGen TransGen)

section Tied

variable {α : Type} {R S : α → α → Prop} {v w : α}

def Tied (R : α → α → Prop) (v : α) : Prop := ∃ w, ReflTransGen R v w ∧ TransGen R w w

theorem Tied.mono (hRS : ∀ v w, R v w → S v w) : Tied R v → Tied S v := by
  rintro ⟨w, hmeets, hback⟩
  exact ⟨w, ReflTransGen.mono hRS _ _ hmeets, TransGen.mono hRS _ _ hback⟩

theorem Tied.of_step (hvw : R v w) : Tied R w → Tied R v := by
  rintro ⟨u, hmeets, hback⟩
  exact ⟨u, hmeets.head hvw, hback⟩

theorem Tied.next : Tied R v → ∃ w, R v w ∧ Tied R w := by
  rintro ⟨w, hmeets, hback⟩
  rcases ReflTransGen.cases_head hmeets with rfl | ⟨u, hvu, huw⟩
  · obtain ⟨u, hvu, huv⟩ := TransGen.head'_iff.mp hback
    exact ⟨u, hvu, v, huv, hback⟩
  · exact ⟨u, hvu, w, huw, hback⟩

def met (R : α → α → Prop) (v : α) : Set α := {w | ReflTransGen R v w ∧ ∃ u, R w u}

theorem met_mono (hRS : ∀ v w, R v w → S v w) (v : α) : met R v ⊆ met S v :=
  fun _ ⟨hmeets, hnext⟩ => ⟨ReflTransGen.mono hRS _ _ hmeets, hnext.imp fun _ => hRS _ _⟩

theorem met_ncard_lt (hfinite : {v | ∃ u, R v u}.Finite) (hv : ¬ Tied R v) (hvw : R v w) :
    (met R w).ncard < (met R v).ncard := by
  refine Set.ncard_lt_ncard ⟨fun u hu => ⟨hu.1.head hvw, hu.2⟩, fun hle => ?_⟩
    (hfinite.subset fun u hu => hu.2)
  exact hv ⟨v, .refl, .head' hvw (hle ⟨.refl, w, hvw⟩).1⟩

theorem not_tied_of_rank {rank : α → Nat} (hrank : ∀ v w, R v w → rank w < rank v) (v : α) :
    ¬ Tied R v := by
  rintro ⟨w, -, hw⟩
  have hless : ∀ a b, TransGen R a b → rank b < rank a := by
    intro a b hab
    induction hab with
    | single hab => exact hrank _ _ hab
    | tail _ hbc ih => exact (hrank _ _ hbc).trans ih
  exact Nat.lt_irrefl _ (hless w w hw)

end Tied

namespace Heap

/-- What is shown of a value besides itself. -/
def parts (h : Heap) : Value → List Value
  | .cell r => h.cells[r]?.toList
  | .array r => ((h.array? r).map fun a => a.items.toList).getD []
  | .inst r => ((h.inst? r).map fun i => i.fields.toList).getD []
  | .host r =>
    match h.host? r with
    | some (.list _ items) => items.toList
    | _ => []
  | _ => []

def Shows (h : Heap) (v w : Value) : Prop := w ∈ h.parts v

/-- Whether an object that holds itself is met in a value. -/
def Knotted (h : Heap) (v : Value) : Prop := Tied h.Shows v

variable {h : Heap} {v w : Value} {n : Nat}

theorem holders_bounded (h : Heap) :
    {v | ∃ w, h.Shows v w}.Finite ∧ {v | ∃ w, h.Shows v w}.ncard < h.levels := by
  let refs (make : Ref → Value) (size : Nat) : Set Value := make '' Set.Iio size
  have hrefs (make : Ref → Value) (size : Nat) :
      (refs make size).Finite ∧ (refs make size).ncard ≤ size := by
    refine ⟨(Set.finite_Iio size).image make, (Set.ncard_image_le (Set.finite_Iio size)).trans ?_⟩
    rw [Set.ncard_eq_toFinset_card', Set.toFinset_Iio, Nat.card_Iio]
  let all := refs .array h.arrays.size ∪ refs .inst h.insts.size ∪ refs .cell h.cells.size
    ∪ refs .host h.hosts.size
  have hall : all.Finite := (((hrefs _ _).1.union (hrefs _ _).1).union (hrefs _ _).1).union (hrefs _ _).1
  have hcount : all.ncard ≤ h.arrays.size + h.insts.size + h.cells.size + h.hosts.size :=
    (Set.ncard_union_le _ _).trans (Nat.add_le_add ((Set.ncard_union_le _ _).trans (Nat.add_le_add
      ((Set.ncard_union_le _ _).trans (Nat.add_le_add (hrefs _ _).2 (hrefs _ _).2)) (hrefs _ _).2))
      (hrefs _ _).2)
  have hsub : {v | ∃ w, h.Shows v w} ⊆ all := by
    rintro v ⟨w, hw⟩
    have hw : w ∈ h.parts v := hw
    cases v with
    | array r => exact .inl (.inl (.inl ⟨r, by_contra fun hr => by simp_all [parts, array?], rfl⟩))
    | inst r => exact .inl (.inl (.inr ⟨r, by_contra fun hr => by simp_all [parts, inst?], rfl⟩))
    | cell r => exact .inl (.inr ⟨r, by_contra fun hr => by simp_all [parts], rfl⟩)
    | host r => exact .inr ⟨r, by_contra fun hr => by simp_all [parts, host?], rfl⟩
    | _ => cases hw
  refine ⟨hall.subset hsub, ?_⟩
  have hle := (Set.ncard_le_ncard hsub hall).trans hcount
  have hpos : 0 < Nat.pow 2 62 := by decide
  rw [levels]
  omega

section Texts

variable {one other : Value → Option (Except HostFault String)} {vs : List Value}

theorem textsOf_mono (hone : ∀ v t, one v = some t → other v = some t)
    {ts : Except HostFault (List String)} (hts : textsOf one vs = some ts) : textsOf other vs = some ts := by
  induction vs generalizing ts with
  | nil => exact hts
  | cons v vs ih =>
    obtain ⟨t, ht, hts⟩ := Option.bind_eq_some_iff.mp hts
    rw [textsOf, hone v t ht]
    cases t with
    | error e => exact hts
    | ok s =>
      obtain ⟨rest, hrest, hts⟩ := Option.bind_eq_some_iff.mp hts
      simpa [ih hrest] using hts

theorem exists_of_textsOf_eq_none (hvs : textsOf one vs = none) :
    ∃ before w after, vs = before ++ w :: after ∧ (∀ u ∈ before, ∃ s, one u = some (.ok s)) ∧
      one w = none := by
  induction vs with
  | nil => cases hvs
  | cons v vs ih =>
    rw [textsOf] at hvs
    match hv : one v with
    | none => exact ⟨[], v, vs, rfl, by simp, hv⟩
    | some (.error e) => simp [hv] at hvs
    | some (.ok s) =>
      have hrest : textsOf one vs = none := by cases hrest : textsOf one vs <;> simp_all
      obtain ⟨before, w, after, rfl, hbefore, hw⟩ := ih hrest
      refine ⟨v :: before, w, after, rfl, fun u hu => ?_, hw⟩
      rcases List.mem_cons.mp hu with rfl | hu
      · exact ⟨s, hv⟩
      · exact hbefore u hu

theorem textsOf_eq_none {before after : List Value} {w : Value}
    (hbefore : ∀ u ∈ before, ∀ t, one u = some t → ∃ s, t = .ok s) (hw : one w = none) :
    textsOf one (before ++ w :: after) = none := by
  induction before with
  | nil => rw [List.nil_append, textsOf, hw]; rfl
  | cons u before ih =>
    rw [List.cons_append, textsOf]
    cases hu : one u with
    | none => rfl
    | some t =>
      obtain ⟨s, rfl⟩ := hbefore u List.mem_cons_self t hu
      simp [ih fun u hu => hbefore u (List.mem_cons_of_mem _ hu)]

theorem textsOf_ne_endless (hone : ∀ v, one v ≠ some (.error .endless)) :
    textsOf one vs ≠ some (.error .endless) := by
  induction vs with
  | nil => nofun
  | cons v vs ih =>
    intro hvs
    obtain ⟨t, ht, hvs⟩ := Option.bind_eq_some_iff.mp hvs
    cases t with
    | error e => exact hone v (Except.error.inj (Option.some.inj hvs) ▸ ht)
    | ok s =>
      obtain ⟨rest, hrest, hvs⟩ := Option.bind_eq_some_iff.mp hvs
      cases rest with
      | ok ts => cases hvs
      | error e => exact ih (Except.error.inj (Option.some.inj hvs) ▸ hrest)

end Texts

/-- The next part that printing comes to: the texts of those before it are done. -/
def Follows (h : Heap) (v w : Value) : Prop :=
  ∃ before after, h.parts v = before ++ w :: after ∧
    ∀ u ∈ before, ∃ n s, h.inspectFrom n true u = some (.ok s)

theorem Follows.shows (hw : h.Follows v w) : h.Shows v w := by
  obtain ⟨before, after, hparts, -⟩ := hw
  rw [Shows, hparts]
  exact List.mem_append_right _ List.mem_cons_self

/-- How the text of a value comes from those of its parts. -/
inductive Printed (h : Heap) (q : Bool) (v : Value) : Prop
  | leaf (t : Except HostFault String) (parts : h.parts v = [])
      (result : ∀ n, h.inspectFrom (n + 1) q v = some t) (met : t ≠ .error .endless)
  | content (w : Value) (f : String → String) (parts : h.parts v = [w])
      (result : ∀ n, h.inspectFrom (n + 1) q v = (h.inspectFrom n false w).map fun t => t.map f)
  | items (f : Except HostFault (List String) → Except HostFault String)
      (met : ∀ ts, f ts = .error .endless → ts = .error .endless)
      (result : ∀ n, h.inspectFrom (n + 1) q v = (textsOf (h.inspectFrom n true) (h.parts v)).map f)

theorem eq_endless_of_map {α β : Type} {f : α → β} (t : Except HostFault α)
    (ht : t.map f = .error .endless) : t = .error .endless := by
  cases t with
  | ok a => cases ht
  | error e => exact congrArg _ (Except.error.inj ht)

theorem printed (h : Heap) (q : Bool) (v : Value) : h.Printed q v := by
  have hmissing (hparts : h.parts v = [])
      (hresult : ∀ n, h.inspectFrom (n + 1) q v = some (.error .missing)) : h.Printed q v :=
    .leaf _ hparts hresult nofun
  cases v with
  | cell r =>
    cases hr : h.cells[r]? with
    | none => exact hmissing (by simp [parts, hr]) fun n => by rw [inspectFrom, hr]
    | some w => exact .content w _ (by simp [parts, hr]) fun n => by rw [inspectFrom, hr]
  | array r =>
    cases hr : h.array? r with
    | none => exact hmissing (by simp [parts, hr]) fun n => by rw [inspectFrom, hr]
    | some a =>
      exact .items (·.map listed) eq_endless_of_map fun n => by simp [inspectFrom, parts, hr]
  | inst r =>
    cases hr : h.inst? r with
    | none => exact hmissing (by simp [parts, hr]) fun n => by rw [inspectFrom, hr]
    | some i =>
      exact .items (·.map i.textWith) eq_endless_of_map fun n => by simp [inspectFrom, parts, hr]
  | host r =>
    match hr : h.host? r with
    | none => exact hmissing (by simp [parts, hr]) fun n => by rw [inspectFrom, hr]
    | some (.builder s) =>
      exact .leaf (.ok s) (by simp [parts, hr]) (fun n => by rw [inspectFrom, hr]) nofun
    | some (.list _ vs) =>
      refine .items _ (fun ts hts => ?_) fun n => by simp only [inspectFrom, parts, hr]; rfl
      cases ts <;> cases hts
  | func r =>
    cases hr : h.func? r with
    | none => exact hmissing rfl fun n => by rw [inspectFrom, hr]
    | some f =>
      exact .leaf (.ok ("<fn " ++ f.name ++ ">")) rfl (fun n => by rw [inspectFrom, hr]) nofun
  | closure _ r _ =>
    cases hr : h.func? r with
    | none => exact hmissing rfl fun n => by rw [inspectFrom, hr]
    | some f =>
      exact .leaf (.ok ("<closure " ++ f.name ++ ">")) rfl (fun n => by rw [inspectFrom, hr]) nofun
  | type _ t =>
    refine .leaf _ rfl (fun n => rfl) ?_
    split <;> nofun
  | _ => exact .leaf _ rfl (fun n => rfl) nofun

theorem inspectFrom_succ {q : Bool} {t : Except HostFault String} (ht : h.inspectFrom n q v = some t) :
    h.inspectFrom (n + 1) q v = some t := by
  induction n generalizing q v t with
  | zero => cases ht
  | succ n ih =>
    cases h.printed q v with
    | leaf t' _ hresult _ => rw [hresult] at ht ⊢; exact ht
    | content w f _ hresult =>
      rw [hresult] at ht ⊢
      obtain ⟨s, hs, rfl⟩ := Option.map_eq_some_iff.mp ht
      rw [ih hs, Option.map_some]
    | items f _ hresult =>
      rw [hresult] at ht ⊢
      obtain ⟨ts, hts, rfl⟩ := Option.map_eq_some_iff.mp ht
      rw [textsOf_mono (fun v t => ih) hts, Option.map_some]

theorem inspectFrom_le {q : Bool} {t : Except HostFault String} {m : Nat} (hnm : n ≤ m)
    (ht : h.inspectFrom n q v = some t) : h.inspectFrom m q v = some t := by
  induction hnm with
  | refl => exact ht
  | step _ ih => exact inspectFrom_succ ih

theorem inspectFrom_unique {q : Bool} {t t' : Except HostFault String} {m : Nat}
    (ht : h.inspectFrom n q v = some t) (ht' : h.inspectFrom m q v = some t') : t = t' :=
  Option.some.inj ((inspectFrom_le (Nat.le_max_left n m) ht).symm.trans
    (inspectFrom_le (Nat.le_max_right n m) ht'))

theorem inspectFrom_ne_endless {q : Bool} : h.inspectFrom n q v ≠ some (.error .endless) := by
  induction n generalizing q v with
  | zero => nofun
  | succ n ih =>
    cases h.printed q v with
    | leaf t _ hresult hmet => rw [hresult]; exact fun ht => hmet (Option.some.inj ht)
    | content w f _ hresult =>
      rw [hresult]
      intro ht
      obtain ⟨s, hs, ht⟩ := Option.map_eq_some_iff.mp ht
      exact ih (eq_endless_of_map s ht ▸ hs)
    | items f hmet hresult =>
      rw [hresult]
      intro ht
      obtain ⟨ts, hts, ht⟩ := Option.map_eq_some_iff.mp ht
      exact textsOf_ne_endless (fun v => ih) (hmet ts ht ▸ hts)

theorem inspectFrom_isSome {q : Bool} (hv : ¬ Tied h.Follows v) (hn : (met h.Follows v).ncard < n) :
    (h.inspectFrom n q v).isSome := by
  have hfinite : {v | ∃ w, h.Follows v w}.Finite :=
    h.holders_bounded.1.subset fun v ⟨w, hw⟩ => ⟨w, hw.shows⟩
  induction n generalizing q v with
  | zero => omega
  | succ n ih =>
    have hnext {w : Value} (hw : h.Follows v w) {q : Bool} : (h.inspectFrom n q w).isSome := by
      have hless := met_ncard_lt hfinite hv hw
      exact ih (fun htied => hv (htied.of_step hw)) (by omega)
    cases h.printed q v with
    | leaf t _ hresult _ => rw [hresult]; rfl
    | content w f hparts hresult =>
      rw [hresult, Option.isSome_map]
      exact hnext ⟨[], [], hparts, by simp⟩
    | items f _ hresult =>
      rw [hresult, Option.isSome_map]
      by_contra hnone
      obtain ⟨before, w, after, hparts, hbefore, hw⟩ :=
        exists_of_textsOf_eq_none (Option.not_isSome_iff_eq_none.mp hnone)
      have hsome := hnext (q := true) ⟨before, after, hparts, fun u hu => ⟨n, hbefore u hu⟩⟩
      rw [hw] at hsome
      cases hsome

theorem inspectFrom_eq_none {q : Bool} (hv : Tied h.Follows v) : h.inspectFrom n q v = none := by
  induction n generalizing q v with
  | zero => rfl
  | succ n ih =>
    obtain ⟨w, hfollows, hw⟩ := hv.next
    cases h.printed q v with
    | leaf t hparts _ _ =>
      have hshows : w ∈ h.parts v := hfollows.shows
      simp [hparts] at hshows
    | content u f hparts hresult =>
      have hshows : w ∈ h.parts v := hfollows.shows
      obtain rfl : w = u := by simpa [hparts] using hshows
      rw [hresult, ih hw, Option.map_none]
    | items f _ hresult =>
      obtain ⟨before, after, hparts, hbefore⟩ := hfollows
      rw [hresult, hparts, textsOf_eq_none ?_ (ih hw), Option.map_none]
      intro u hu t ht
      obtain ⟨m, s, hs⟩ := hbefore u hu
      exact ⟨s, inspectFrom_unique ht hs⟩

theorem inspect_eq_endless_iff : h.inspect v = .error .endless ↔ Tied h.Follows v := by
  rw [inspect]
  constructor
  · intro hend
    by_contra hv
    have hless : (met h.Follows v).ncard < h.levels := by
      obtain ⟨hfinite, hbound⟩ := h.holders_bounded
      exact (Set.ncard_le_ncard (fun w hw => hw.2.imp fun _ => Follows.shows) hfinite).trans_lt hbound
    obtain ⟨t, ht⟩ := Option.isSome_iff_exists.mp (inspectFrom_isSome (q := false) hv hless)
    rw [ht, Option.getD_some] at hend
    exact inspectFrom_ne_endless (hend ▸ ht)
  · intro hv
    rw [inspectFrom_eq_none hv]
    rfl

def Compares (h : Heap) (v w : Value) : Prop := w ∈ h.items v

theorem Compares.shows (hvw : h.Compares v w) : h.Shows v w := by
  have hw : w ∈ h.items v := hvw
  cases v with
  | array r => exact hw
  | inst r => exact hw
  | _ => cases hw

theorem equalFrom_isSome_of_not_tied (hv : ¬ Tied h.Compares v) (hn : (met h.Compares v).ncard < n)
    (w : Value) :
    (h.equalFrom n v w).isSome := by
  induction n generalizing v w with
  | zero => omega
  | succ n ih =>
    rw [equalFrom_succ]
    split
    · refine equalParts_isSome fun a ha b _ => ih (fun htied => hv (htied.of_step ha)) ?_ b
      have hless := met_ncard_lt (h.holders_bounded.1.subset fun v ⟨w, hw⟩ => ⟨w, hw.shows⟩) hv ha
      omega
    · rfl

theorem equalFrom_isSome (hv : ¬ h.Knotted v) (hn : (met h.Shows v).ncard < n) (w : Value) :
    (h.equalFrom n v w).isSome ∧ (h.equalFrom n w v).isSome := by
  have hshows : ∀ a b, h.Compares a b → h.Shows a b := fun _ _ => Compares.shows
  have hless : (met h.Compares v).ncard ≤ (met h.Shows v).ncard :=
    Set.ncard_le_ncard (met_mono hshows v) (h.holders_bounded.1.subset fun _ hw => hw.2)
  have hleft := equalFrom_isSome_of_not_tied (fun htied => hv (htied.mono hshows)) (hless.trans_lt hn) w
  exact ⟨hleft, equalFrom_comm h n v w ▸ hleft⟩

theorem equalFrom_self_eq_none {r : Ref} {i : Instance} (hi : h.inst? r = some i) {rest : List Value}
    (hfields : i.fields.toList = .inst r :: rest) : h.equalFrom n (.inst r) (.inst r) = none := by
  induction n with
  | zero => rfl
  | succ n ih =>
    rw [equalFrom, hi]
    simp only [beq_self_eq_true, Bool.and_self, if_true]
    rw [hfields, equalParts, ih]
    rfl

theorem met_ncard_lt_levels (h : Heap) (v : Value) : (met h.Shows v).ncard < h.levels := by
  obtain ⟨hfinite, hbound⟩ := h.holders_bounded
  exact (Set.ncard_le_ncard (fun w hw => hw.2) hfinite).trans_lt hbound

theorem knotted_of_inspect (hend : h.inspect v = .error .endless) : h.Knotted v :=
  (inspect_eq_endless_iff.mp hend).mono fun _ _ => Follows.shows

theorem knotted_of_equal (hend : h.equal v w = none) : h.Knotted v ∧ h.Knotted w := by
  have hnone {n : Nat} {a b : Value} (hab : h.equalFrom n a b = none) : ¬ (h.equalFrom n a b).isSome :=
    Option.not_isSome_iff_eq_none.mpr hab
  constructor
  · by_contra hv
    exact hnone hend (equalFrom_isSome hv (h.met_ncard_lt_levels v) w).1
  · by_contra hw
    exact hnone hend (equalFrom_isSome hw (h.met_ncard_lt_levels w) v).2

/-- Two records in a list, and the first one also in the second. -/
def nested : Heap where
  insts := #[⟨"N", "", ["next"], #[.int 1]⟩, ⟨"N", "", ["next"], #[.inst 0]⟩]
  arrays := #[⟨.unknown, #[.inst 1, .inst 0]⟩]

end Heap

end Scripting
