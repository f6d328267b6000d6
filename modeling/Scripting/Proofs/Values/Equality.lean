import Scripting.Proofs.Values.Knots

/-!
# Equality of values

Two values are equal exactly if they agree in what they are and their parts are equal in pairs
(`equal_iff`), and they stay equal when objects are added to the heap. A value that unfolds to a finite tree
without doubles equals itself, and two equal values of this kind cannot be told apart by comparing them with
anything: `equal_congr`.
-/

namespace Scripting
namespace Heap

variable {h : Heap} {u v w : Value} {n : Nat}

/-- Whether a value unfolds to a finite tree: its objects are in the heap, and its parts, of which all are as
`P` says, come to an end. -/
inductive Unfolds (h : Heap) (P : Value → Prop) : Value → Prop
  | intro {v : Value} (here : P v) (known : h.Known v) (parts : ∀ w ∈ h.items v, h.Unfolds P w) :
      Unfolds h P v

abbrev Finite (h : Heap) : Value → Prop := h.Unfolds fun _ => True

/-- Whether a value unfolds to a finite tree without doubles. -/
abbrev Exact (h : Heap) : Value → Prop := h.Unfolds fun v => ¬ v.isDouble

theorem Unfolds.here {P : Value → Prop} (hv : h.Unfolds P v) : P v := by
  obtain ⟨hhere, -, -⟩ := hv
  exact hhere

theorem Unfolds.parts {P : Value → Prop} (hv : h.Unfolds P v) (hw : w ∈ h.items v) : h.Unfolds P w := by
  obtain ⟨-, -, hparts⟩ := hv
  exact hparts w hw

theorem Unfolds.finite {P : Value → Prop} (hv : h.Unfolds P v) : h.Finite v := by
  induction hv with
  | intro _ hknown _ ih => exact .intro trivial hknown ih

theorem Finite.not_tied (hv : h.Finite v) : ¬ Tied h.Compares v := by
  induction hv with
  | intro _ _ _ ih =>
    intro htied
    obtain ⟨w, hw, hnext⟩ := htied.next
    exact ih w hw hnext

theorem finite_of_equalFrom (hvw : h.equalFrom n v w = some true) : h.Finite v := by
  induction n generalizing v w with
  | zero => cases hvw
  | succ n ih =>
    obtain ⟨hagree, hparts⟩ := equalFrom_eq_true_iff.mp hvw
    have hfinite := (List.forall₂_and_left _ _).mp (hparts.imp fun a b hab => ⟨ih hab, hab⟩)
    exact .intro trivial (known_of_agree hagree) hfinite.1

theorem equal_isSome (hv : h.Finite v) (w : Value) : (h.equal v w).isSome := by
  obtain ⟨hfinite, hbound⟩ := h.holders_bounded
  refine equalFrom_isSome_of_not_tied hv.not_tied ?_ w
  exact (Set.ncard_le_ncard (fun w hw => hw.2.imp fun _ => Compares.shows) hfinite).trans_lt hbound

theorem equal_eq_true_iff : h.equal v w = some true ↔ ∃ n, h.equalFrom n v w = some true := by
  refine ⟨fun hvw => ⟨_, hvw⟩, fun ⟨n, hvw⟩ => ?_⟩
  obtain ⟨b, hb⟩ := Option.isSome_iff_exists.mp (equal_isSome (finite_of_equalFrom hvw) w)
  have hmax := (equalFrom_le (Nat.le_max_left n h.levels) hvw).symm.trans
    (equalFrom_le (Nat.le_max_right n h.levels) hb)
  rw [hb, ← hmax]

/-- Whether comparing two values answers that they are equal. -/
def Equal (h : Heap) (v w : Value) : Prop := h.equal v w = some true

theorem equal_iff : h.Equal v w ↔ h.agree v w = true ∧ List.Forall₂ h.Equal (h.items v) (h.items w) := by
  obtain ⟨n, hn⟩ : ∃ n, h.levels = n + 1 := Nat.exists_eq_succ_of_ne_zero h.holders_bounded.2.ne_bot
  constructor
  · intro hvw
    rw [Equal, equal, hn, equalFrom_eq_true_iff] at hvw
    exact ⟨hvw.1, hvw.2.imp fun a b hab => equal_eq_true_iff.mpr ⟨n, hab⟩⟩
  · rintro ⟨hagree, hparts⟩
    exact equal_eq_true_iff.mpr ⟨h.levels + 1, equalFrom_eq_true_iff.mpr ⟨hagree, hparts⟩⟩

theorem equal_array_iff {r s : Ref} {a b : ArrayObject} (ha : h.array? r = some a) (hb : h.array? s = some b) :
    h.Equal (.array r) (.array s) ↔ List.Forall₂ h.Equal a.items.toList b.items.toList := by
  rw [equal_iff, items_array ha, items_array hb, agree_array_iff]
  refine and_iff_right_of_imp fun hitems => ⟨a, b, ha, hb, ?_⟩
  simpa using hitems.length_eq

theorem equal_inst_iff {r s : Ref} {i j : Instance} (hi : h.inst? r = some i) (hj : h.inst? s = some j) :
    h.Equal (.inst r) (.inst s) ↔
      (i.typeName = j.typeName ∧ i.tag = j.tag) ∧ List.Forall₂ h.Equal i.fields.toList j.fields.toList := by
  rw [equal_iff, items_inst hi, items_inst hj, agree_inst_iff]
  refine and_congr_left fun hfields => ⟨?_, fun ⟨hname, htag⟩ => ⟨i, j, hi, hj, hname, htag, ?_⟩⟩
  · rintro ⟨i', j', hi', hj', hname, htag, -⟩
    obtain rfl := Option.some.inj (hi.symm.trans hi')
    obtain rfl := Option.some.inj (hj.symm.trans hj')
    exact ⟨hname, htag⟩
  · simpa using hfields.length_eq

theorem equal_comm (h : Heap) (v w : Value) : h.equal v w = h.equal w v := equalFrom_comm h _ v w

theorem Equal.symm (hvw : h.Equal v w) : h.Equal w v := (equal_comm h w v).trans hvw

theorem Exact.equal_self (hv : h.Exact v) : h.Equal v v := by
  induction hv with
  | intro hdouble hknown _ ih => exact equal_iff.mpr ⟨agree_self hknown hdouble, List.forall₂_same.mpr ih⟩

theorem equalFrom_congr (hv : h.Exact v) (hw : h.Exact w) (hvw : h.Equal v w) (n : Nat) (u : Value) :
    h.equalFrom n u v = h.equalFrom n u w := by
  induction n generalizing u v w with
  | zero => rfl
  | succ n ih =>
    obtain ⟨hdouble, -, hparts⟩ := hv
    obtain ⟨hdouble', -, hparts'⟩ := hw
    obtain ⟨hagree, hequal⟩ := equal_iff.mp hvw
    rw [equalFrom_succ, equalFrom_succ, agree_congr hagree hdouble hdouble' u,
      equalParts_congr hequal fun a ha b hb hab u => ih (hparts a ha) (hparts' b hb) hab u]

theorem equal_congr (hv : h.Exact v) (hw : h.Exact w) (hvw : h.Equal v w) (u : Value) :
    h.equal u v = h.equal u w := equalFrom_congr hv hw hvw _ u

theorem Equal.trans (hv : h.Exact v) (hw : h.Exact w) (huv : h.Equal u v) (hvw : h.Equal v w) :
    h.Equal u w := (equal_congr hv hw hvw u).symm.trans huv

/-- Whether a heap has the arrays and instances of another one, and may have more. -/
structure Grows (h h' : Heap) : Prop where
  arrays : ∀ r a, h.array? r = some a → h'.array? r = some a
  insts : ∀ r i, h.inst? r = some i → h'.inst? r = some i

variable {h' : Heap}

theorem Grows.trans {h'' : Heap} (hh' : h.Grows h') (hh'' : h'.Grows h'') : h.Grows h'' :=
  ⟨fun r a ha => hh''.arrays r a (hh'.arrays r a ha), fun r i hi => hh''.insts r i (hh'.insts r i hi)⟩

theorem Grows.agree (hh' : h.Grows h') (hvw : h.agree v w = true) : h'.agree v w = true := by
  cases v <;> cases w <;> try exact hvw
  case array.array r s =>
    obtain ⟨a, b, ha, hb, hsize⟩ := agree_array_iff.mp hvw
    exact agree_array_iff.mpr ⟨a, b, hh'.arrays r a ha, hh'.arrays s b hb, hsize⟩
  case inst.inst r s =>
    obtain ⟨i, j, hi, hj, hsame⟩ := agree_inst_iff.mp hvw
    exact agree_inst_iff.mpr ⟨i, j, hh'.insts r i hi, hh'.insts s j hj, hsame⟩

theorem Grows.items (hh' : h.Grows h') (hv : h.Known v) : h'.items v = h.items v := by
  cases v with
  | array r =>
    obtain ⟨a, ha⟩ := Option.isSome_iff_exists.mp hv
    rw [items_array ha, items_array (hh'.arrays r a ha)]
  | inst r =>
    obtain ⟨i, hi⟩ := Option.isSome_iff_exists.mp hv
    rw [items_inst hi, items_inst (hh'.insts r i hi)]
  | _ => rfl

theorem Grows.equal (hh' : h.Grows h') (hvw : h.Equal v w) : h'.Equal v w := by
  induction finite_of_equalFrom hvw generalizing w with
  | intro _ _ _ ih =>
    obtain ⟨hagree, hparts⟩ := equal_iff.mp hvw
    have hagree' : h.agree w _ = true := (agree_comm h w _).trans hagree
    refine equal_iff.mpr ⟨hh'.agree hagree, ?_⟩
    rw [hh'.items (known_of_agree hagree), hh'.items (known_of_agree hagree')]
    have hboth := (List.forall₂_and_left _ _).mpr ⟨ih, hparts⟩
    exact hboth.imp fun a b ⟨hab, hequal⟩ => hab hequal

theorem getElem?_push_of_some {α : Type} {xs : Array α} {i : Nat} {a : α} (ha : xs[i]? = some a) (x : α) :
    (xs.push x)[i]? = some a := by
  have hlt : i < xs.size := (Array.getElem?_eq_some_iff.mp ha).1
  rwa [Array.getElem?_push, if_neg (Nat.ne_of_lt hlt)]

theorem grows_newArray (h : Heap) (a : ArrayObject) : h.Grows (h.newArray a).2 :=
  ⟨fun _ _ hb => getElem?_push_of_some hb a, fun _ _ hi => hi⟩

theorem grows_newInst (h : Heap) (i : Instance) : h.Grows (h.newInst i).2 :=
  ⟨fun _ _ ha => ha, fun _ _ hj => getElem?_push_of_some hj i⟩

theorem equal_newArray {a b : ArrayObject} (hitems : List.Forall₂ h.Equal a.items.toList b.items.toList) :
    ((h.newArray a).2.newArray b).2.Equal (h.newArray a).1 ((h.newArray a).2.newArray b).1 := by
  have hgrows := (grows_newArray h a).trans (grows_newArray _ b)
  have ha : ((h.newArray a).2.newArray b).2.array? h.arrays.size = some a :=
    (grows_newArray _ b).arrays _ a Array.getElem?_push_size
  exact (equal_array_iff ha Array.getElem?_push_size).mpr (hitems.imp fun v w => hgrows.equal)

theorem equal_newInst {i j : Instance} (hname : i.typeName = j.typeName) (htag : i.tag = j.tag)
    (hfields : List.Forall₂ h.Equal i.fields.toList j.fields.toList) :
    ((h.newInst i).2.newInst j).2.Equal (h.newInst i).1 ((h.newInst i).2.newInst j).1 := by
  have hgrows := (grows_newInst h i).trans (grows_newInst _ j)
  have hi : ((h.newInst i).2.newInst j).2.inst? h.insts.size = some i :=
    (grows_newInst _ j).insts _ i Array.getElem?_push_size
  exact (equal_inst_iff hi Array.getElem?_push_size).mpr
    ⟨⟨hname, htag⟩, hfields.imp fun v w => hgrows.equal⟩

end Heap
end Scripting
