import Mathlib.Data.Finset.Card
import Mathlib.Data.Finset.Range
import Mathlib.Logic.Relation
import Scripting.Bundle.Link

/-!
# Graphs of functions

The constants of a function lead to other functions, directly or through the fields of instances.
`Heap.Reaches` follows them. `Heap.Storable` says of a constant that it has a stored form; instances
are storable only if they are finitely deep, and `Storable.nested` turns that into a bound.
-/

namespace Scripting

def Value.isPlain : Value → Bool
  | .func _ | .inst _ | .closure .. => false
  | _ => true

namespace Heap

variable (h : Heap)

/-- Whether a value is another, or stands among the fields of the instances it leads to. -/
inductive Holds : Value → Value → Prop
  | self (v : Value) : Holds v v
  | inst {i : Ref} {x : Instance} {v w : Value} (hx : h.inst? i = some x) (hv : v ∈ x.fields)
      (hw : Holds v w) : Holds (.inst i) w

/-- Whether a function is there and has code. -/
def Body (r : Ref) (f : Function) (c : Chunk) : Prop := h.func? r = some f ∧ f.chunk = some c

def Uses (r s : Ref) : Prop := ∃ f c, h.Body r f c ∧ ∃ v ∈ c.constants, h.Holds v (.func s)

/-- Whether a function can be reached from another through constants. -/
def Reaches : Ref → Ref → Prop := Relation.ReflTransGen h.Uses

/-- Whether the constants of the functions that can be reached lead to a function of the host of that
name. -/
def Mentions (script : Ref) (name : String) : Prop :=
  ∃ r f c, h.Reaches script r ∧ h.Body r f c ∧
    ∃ v ∈ c.constants, ∃ i b, h.Holds v (.builtin i b) ∧ b.name = name

/-- Whether a value leads to functions of some kind only. -/
inductive Leads (P : Ref → Prop) : Value → Prop
  | plain {v : Value} (hv : v.isPlain = true) : Leads P v
  | func {r : Ref} (hr : P r) : Leads P (.func r)
  | inst {i : Ref} {x : Instance} (hx : h.inst? i = some x) (hfields : ∀ v ∈ x.fields, Leads P v) :
      Leads P (.inst i)

/-- Whether a constant has a stored form. -/
inductive Storable : Value → Prop
  | int (n : Int64) : Storable (.int n)
  | float (x : Double) : Storable (.float x)
  | str (s : String) : Storable (.str s)
  | bool (b : Bool) : Storable (.bool b)
  | char (c : Int32) : Storable (.char c)
  | unit : Storable .unit
  | func (r : Ref) : Storable (.func r)
  | builtin (i : Nat) (b : Builtin) : Storable (.builtin i b)
  | ctor (i : Nat) (c : Ctor) : Storable (.ctor i c)
  | type (i : Nat) {t : Ty} (ht : t.hasText = true) : Storable (.type i t)
  | inst {i : Ref} {x : Instance} (hx : h.inst? i = some x) (hfields : ∀ v ∈ x.fields, Storable v) :
      Storable (.inst i)

/-- Whether a function has code all of whose constants can be stored. -/
def Ready (r : Ref) : Prop := ∃ f c, h.Body r f c ∧ ∀ v ∈ c.constants, h.Storable v

def Clear (v : Value) : Prop := ∀ q r, h.Holds v (.func q) → h.Reaches q r → h.Ready r

/-- Whether a constant has a stored form and its instances nest at most that deep. -/
inductive Nested : Nat → Value → Prop
  | plain {n : Nat} {v : Value} (hv : h.Storable v) (hne : ∀ i, v ≠ .inst i) : Nested n v
  | inst {n : Nat} {i : Ref} {x : Instance} (hx : h.inst? i = some x)
      (hfields : ∀ v ∈ x.fields, Nested n v) : Nested (n + 1) (.inst i)

variable {h}

theorem Body.unique {r : Ref} {f g : Function} {c d : Chunk} (a : h.Body r f c) (b : h.Body r g d) :
    g = f ∧ d = c := by
  obtain ⟨ha, hc⟩ := a
  obtain ⟨hb, hd⟩ := b
  obtain rfl : g = f := Option.some.inj (hb.symm.trans ha)
  exact ⟨rfl, Option.some.inj (hd.symm.trans hc)⟩

theorem Leads.holds {P : Ref → Prop} {v : Value} (hv : h.Leads P v) {s : Ref}
    (hs : h.Holds v (.func s)) : P s := by
  induction hv with
  | plain hv =>
    cases hs with
    | self => cases hv
    | inst => cases hv
  | func hr =>
    cases hs with
    | self => exact hr
  | inst hx _ ih =>
    cases hs with
    | inst hx' hfield hs =>
      obtain rfl := Option.some.inj (hx.symm.trans hx')
      exact ih _ hfield hs

/-- If the code of functions of some kind leads to such functions only, all that are reached are of this
kind. -/
theorem Reaches.kind {P : Ref → Prop} {r s : Ref} (hs : h.Reaches r s) (hr : P r)
    (hP : ∀ q f c, P q → h.Body q f c → ∀ v ∈ c.constants, h.Leads P v) : P s := by
  induction hs with
  | refl => exact hr
  | tail _ huses ih =>
    obtain ⟨f, c, hb, v, hv, hholds⟩ := huses
    exact (hP _ f c ih hb v hv).holds hholds

theorem Clear.field {i : Ref} {x : Instance} {v : Value} (hc : h.Clear (.inst i))
    (hx : h.inst? i = some x) (hv : v ∈ x.fields) : h.Clear v :=
  fun q r hq hr => hc q r (.inst hx hv hq) hr

theorem Clear.constant {r : Ref} {f : Function} {c : Chunk} {v : Value}
    (hr : ∀ s, h.Reaches r s → h.Ready s) (hb : h.Body r f c) (hv : v ∈ c.constants) : h.Clear v :=
  fun _ s hq hs => hr s (.head ⟨f, c, hb, v, hv, hq⟩ hs)

theorem Nested.mono {n m : Nat} {v : Value} (hv : h.Nested n v) (hnm : n ≤ m) : h.Nested m v := by
  induction hv generalizing m with
  | plain hv hne => exact .plain hv hne
  | inst hx _ ih =>
    obtain ⟨m, rfl⟩ := Nat.exists_eq_add_of_le' (Nat.lt_of_lt_of_le (Nat.succ_pos _) hnm)
    exact .inst hx fun v hv => ih v hv (by omega)

/-- Whether some instances bound the nesting of a value, and that of each of them. -/
def Bounds (h : Heap) (D : Finset Ref) (v : Value) : Prop :=
  D ⊆ Finset.range h.insts.size ∧ h.Nested D.card v ∧ ∀ j ∈ D, h.Nested D.card (.inst j)

theorem Bounds.mono {D E : Finset Ref} {v : Value} (hD : h.Bounds D v) (hDE : D ⊆ E)
    (hE : E ⊆ Finset.range h.insts.size) (hrest : ∀ j ∈ E, h.Nested E.card (.inst j)) :
    h.Bounds E v :=
  ⟨hE, hD.2.1.mono (Finset.card_le_card hDE), hrest⟩

theorem exists_bounds : (vs : List Value) → (∀ v ∈ vs, ∃ D, h.Bounds D v) →
    ∃ D, D ⊆ Finset.range h.insts.size ∧ (∀ j ∈ D, h.Nested D.card (.inst j)) ∧
      ∀ v ∈ vs, h.Bounds D v
  | [], _ => ⟨∅, by simp, by simp, by simp⟩
  | v :: vs, hvs => by
    obtain ⟨D, hD⟩ := hvs v List.mem_cons_self
    obtain ⟨E, hE, hEs, hrest⟩ := exists_bounds vs fun w hw => hvs w (List.mem_cons_of_mem _ hw)
    have hunion : D ∪ E ⊆ Finset.range h.insts.size := Finset.union_subset hD.1 hE
    have hall : ∀ j ∈ D ∪ E, h.Nested (D ∪ E).card (.inst j) := by
      intro j hj
      rcases Finset.mem_union.mp hj with hj | hj
      · exact (hD.2.2 j hj).mono (Finset.card_le_card Finset.subset_union_left)
      · exact (hEs j hj).mono (Finset.card_le_card Finset.subset_union_right)
    refine ⟨D ∪ E, hunion, hall, fun w hw => ?_⟩
    rcases List.mem_cons.mp hw with rfl | hw
    · exact hD.mono Finset.subset_union_left hunion hall
    · exact (hrest w hw).mono Finset.subset_union_right hunion hall

theorem Storable.bounds {v : Value} (hv : h.Storable v) : ∃ D, h.Bounds D v := by
  induction hv with
  | @inst i x hx _ ih =>
    obtain ⟨D, hD, hDs, hfields⟩ := exists_bounds x.fields.toList fun v hv => ih v (by simpa using hv)
    by_cases hi : i ∈ D
    · exact ⟨D, hD, hDs i hi, hDs⟩
    · have hcard : (insert i D).card = D.card + 1 := Finset.card_insert_of_notMem hi
      have hnested : h.Nested (D.card + 1) (.inst i) :=
        .inst hx fun v hv => (hfields v (by simpa using hv)).2.1
      have hlt : i < h.insts.size := (Array.getElem?_eq_some_iff.mp hx).1
      refine ⟨insert i D, ?_, hcard ▸ hnested, fun j hj => ?_⟩
      · exact Finset.insert_subset (Finset.mem_range.mpr hlt) hD
      · rw [hcard]
        rcases Finset.mem_insert.mp hj with rfl | hj
        · exact hnested
        · exact (hDs j hj).mono (Nat.le_succ _)
  | _ => exact ⟨∅, by simp, .plain (by constructor; try assumption) (by simp), by simp⟩

theorem Storable.nested {v : Value} (hv : h.Storable v) : h.Nested h.insts.size v := by
  obtain ⟨D, hD, hnested, -⟩ := hv.bounds
  have hcard : D.card ≤ h.insts.size := by simpa using Finset.card_le_card hD
  exact hnested.mono hcard

end Heap

end Scripting
