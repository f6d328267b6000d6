import Mathlib.Data.Nat.Find
import Scripting.Code.Chunk

/-!
# Constants are kept once

`Value.Alike` says when one constant does for two values. The index of a pool is `Exact` if it gives the
first place of every key; adding a constant keeps it so, and building it anew makes it so. From there
`Chunk.addConstant_first` says what every call in a row of calls answers and leaves behind.
-/

namespace Scripting

/-- One constant does for both: scalars of one kind with the same value, doubles to the bit, or one
object. -/
inductive Value.Alike : Value → Value → Prop
  | int (n : Int64) : Alike (.int n) (.int n)
  | float {x y : Double} (h : x.bits = y.bits) : Alike (.float x) (.float y)
  | str (s : String) : Alike (.str s) (.str s)
  | bool (b : Bool) : Alike (.bool b) (.bool b)
  | char (c : Int32) : Alike (.char c) (.char c)
  | unit : Alike .unit .unit
  | absent : Alike .absent .absent
  | array (r : Ref) : Alike (.array r) (.array r)
  | inst (r : Ref) : Alike (.inst r) (.inst r)
  | cell (r : Ref) : Alike (.cell r) (.cell r)
  | host (r : Ref) : Alike (.host r) (.host r)
  | func (r : Ref) : Alike (.func r) (.func r)
  | type (id : Nat) (t u : Ty) : Alike (.type id t) (.type id u)
  | builtin (id : Nat) (b c : Builtin) : Alike (.builtin id b) (.builtin id c)
  | ctor (id : Nat) (c d : Ctor) : Alike (.ctor id c) (.ctor id d)
  | closure (id : Nat) (f g : Ref) (xs ys : List Ref) : Alike (.closure id f xs) (.closure id g ys)

theorem Value.constKey_eq_iff {v w : Value} : v.constKey = w.constKey ↔ v.Alike w := by
  constructor
  · intro h
    cases v <;> cases w <;> simp [constKey] at h
    case int.int m n =>
      obtain rfl : m = n := congrArg Int64.ofUInt64 h
      exact .int m
    case char.char c d =>
      obtain rfl : c = d := congrArg Int32.ofUInt32 h
      exact .char c
    case float.float => exact .float h
    all_goals
      try subst h
      constructor
  · intro h
    cases h <;> simp_all [constKey]

def keyAt? (values : Array Value) (i : Nat) : Option ConstKey := values[i]?.map Value.constKey

theorem keyAt?_push (values : Array Value) (v : Value) (i : Nat) :
    keyAt? (values.push v) i = if i = values.size then some v.constKey else keyAt? values i := by
  rw [keyAt?, keyAt?, Array.getElem?_push]
  split <;> rfl

theorem keyAt?_eq_some_iff {values : Array Value} {i : Nat} {v : Value} :
    keyAt? values i = some v.constKey ↔ ∃ w, values[i]? = some w ∧ w.Alike v := by
  simp [keyAt?, Value.constKey_eq_iff]

/-- A key stands at a place and at none before it. -/
structure FirstAt (values : Array Value) (key : ConstKey) (i : Nat) : Prop where
  stands : keyAt? values i = some key
  first : ∀ j < i, keyAt? values j ≠ some key

namespace FirstAt

variable {values : Array Value} {key : ConstKey} {i j : Nat} {v : Value}

theorem lt_size (h : FirstAt values key i) : i < values.size := by
  obtain ⟨w, hw, -⟩ := Option.map_eq_some_iff.mp h.stands
  exact (Array.getElem?_eq_some_iff.mp hw).1

theorem exists_of_stands (h : keyAt? values j = some key) : ∃ i, FirstAt values key i :=
  have hex : ∃ i, keyAt? values i = some key := ⟨j, h⟩
  ⟨Nat.find hex, Nat.find_spec hex, fun _ hlt => Nat.find_min hex hlt⟩

theorem push_iff : FirstAt (values.push v) key i ↔
    FirstAt values key i ∨
      (i = values.size ∧ v.constKey = key ∧ ∀ j, keyAt? values j ≠ some key) := by
  have hold : ∀ j < values.size, keyAt? (values.push v) j = keyAt? values j := fun j hj => by
    rw [keyAt?_push, if_neg (by omega)]
  constructor
  · intro h
    have hle : i ≤ values.size := by simpa [Nat.lt_succ_iff] using h.lt_size
    rcases Nat.lt_or_eq_of_le hle with hlt | rfl
    · refine .inl ⟨hold i hlt ▸ h.stands, fun j hj => ?_⟩
      rw [← hold j (by omega)]
      exact h.first j hj
    · refine .inr ⟨rfl, by simpa [keyAt?_push] using h.stands, fun j => ?_⟩
      by_cases hj : j < values.size
      · rw [← hold j hj]
        exact h.first j hj
      · simp [keyAt?, Array.getElem?_eq_none (Nat.le_of_not_lt hj)]
  · rintro (h | ⟨rfl, rfl, hnew⟩)
    · have hlt := h.lt_size
      refine ⟨(hold i hlt).trans h.stands, fun j hj => ?_⟩
      rw [hold j (by omega)]
      exact h.first j hj
    · refine ⟨by simp [keyAt?_push], fun j hj => ?_⟩
      rw [hold j hj]
      exact hnew j

end FirstAt

namespace Pool

variable {p : Pool} {v : Value}

/-- The index gives the first place of every key. -/
def Exact (p : Pool) : Prop :=
  ∀ (key : ConstKey) (i : Nat), p.index[key]? = some i ↔ FirstAt p.values key i

theorem Exact.absent (hp : p.Exact) {key : ConstKey} (h : p.index[key]? = none) (j : Nat) :
    keyAt? p.values j ≠ some key := by
  intro hstands
  obtain ⟨i, hi⟩ := FirstAt.exists_of_stands hstands
  simp [(hp key i).mpr hi] at h

theorem Exact.empty : ({} : Pool).Exact := by
  intro key i
  constructor
  · intro h
    simp at h
  · intro h
    simpa using h.lt_size

/-- What adding does: either the key has a first place, which is the answer, or the constant is new and
goes to the end. -/
theorem Exact.add_cases (hp : p.Exact) (v : Value) :
    (∃ i, FirstAt p.values v.constKey i ∧ p.add v = (i, p)) ∨
      ((∀ j, keyAt? p.values j ≠ some v.constKey) ∧ p.add v =
        (p.values.size, ⟨p.values.push v, p.index.insert v.constKey p.values.size⟩)) := by
  cases hlook : p.index[v.constKey]? with
  | some i => exact .inl ⟨i, (hp _ i).mp hlook, by simp [add, hlook]⟩
  | none => exact .inr ⟨hp.absent hlook, by simp [add, hlook]⟩

theorem Exact.push (hp : p.Exact) {index : Std.TreeMap ConstKey Nat}
    (hindex : ∀ key : ConstKey, index[key]? =
      if v.constKey = key ∧ p.index[key]? = none then some p.values.size else p.index[key]?) :
    (⟨p.values.push v, index⟩ : Pool).Exact := by
  intro key i
  rw [hindex key, FirstAt.push_iff]
  split
  case isTrue h =>
    have hnone := hp.absent h.2
    constructor
    · intro hi
      exact .inr ⟨(Option.some.inj hi).symm, h.1, hnone⟩
    · rintro (hi | ⟨rfl, -, -⟩)
      · exact absurd hi.stands (hnone i)
      · rfl
  case isFalse h =>
    rw [hp key i]
    constructor
    · exact .inl
    · rintro (hi | ⟨-, hkey, hnew⟩)
      · exact hi
      · have hsome : p.index[key]? ≠ none := fun hnone => h ⟨hkey, hnone⟩
        obtain ⟨k, hk⟩ := Option.ne_none_iff_exists'.mp hsome
        exact absurd ((hp key k).mp hk).stands (hnew k)

theorem Exact.add (hp : p.Exact) (v : Value) : (p.add v).2.Exact := by
  rcases hp.add_cases v with ⟨i, -, hadd⟩ | ⟨hnew, hadd⟩
  · rwa [hadd]
  · rw [hadd]
    refine hp.push fun key => ?_
    simp only [Std.TreeMap.getElem?_insert, Std.LawfulEqCmp.compare_eq_iff_eq]
    by_cases hkey : v.constKey = key
    · have hnone : p.index[key]? = none := by
        cases hlook : p.index[key]? with
        | none => rfl
        | some i => exact absurd ((hp key i).mp hlook).stands (hkey ▸ hnew i)
      simp [hkey, hnone]
    · simp [hkey]

theorem Exact.indexFrom (hp : p.Exact) (vs : List Value) :
    (⟨p.values ++ vs.toArray, Pool.indexFrom p.index p.values.size vs⟩ : Pool).Exact := by
  induction vs generalizing p with
  | nil => simpa [Pool.indexFrom] using hp
  | cons v vs ih =>
    have hstep : (⟨p.values.push v, p.index.insertIfNew v.constKey p.values.size⟩ : Pool).Exact := by
      refine hp.push fun key => ?_
      simp only [Std.TreeMap.getElem?_insertIfNew, Std.LawfulEqCmp.compare_eq_iff_eq]
      have hmem : key ∉ p.index ↔ p.index[key]? = none := by
        rw [← Std.TreeMap.isSome_getElem?_iff_mem, Bool.not_eq_true, Option.isSome_eq_false_iff,
          Option.isNone_iff_eq_none]
      by_cases hkey : v.constKey = key
      · subst hkey
        simp only [true_and, hmem]
      · simp only [hkey, false_and, if_false]
    have := ih hstep
    simpa [Pool.indexFrom] using this

theorem ofValues_exact (values : Array Value) : (ofValues values).Exact := by
  simpa [ofValues] using Exact.empty.indexFrom values.toList

theorem Exact.add_firstAt (hp : p.Exact) (v : Value) :
    FirstAt (p.add v).2.values v.constKey (p.add v).1 := by
  rcases hp.add_cases v with ⟨i, hi, hadd⟩ | ⟨hnew, hadd⟩
  · rwa [hadd]
  · rw [hadd]
    exact FirstAt.push_iff.mpr (.inr ⟨rfl, rfl, hnew⟩)

theorem Exact.add_values (hp : p.Exact) (v : Value) :
    (p.add v).2.values = p.values ∨
      ((∀ j, keyAt? p.values j ≠ some v.constKey) ∧
        (p.add v).2.values = p.values.push v) := by
  rcases hp.add_cases v with ⟨i, -, hadd⟩ | ⟨hnew, hadd⟩
  · exact .inl (by rw [hadd])
  · exact .inr ⟨hnew, by rw [hadd]⟩

def Distinct (p : Pool) : Prop :=
  ∀ (i j : Nat) (key : ConstKey), keyAt? p.values i = some key → keyAt? p.values j = some key → i = j

theorem Distinct.of_empty (h : p.values = #[]) : p.Distinct := by
  intro i j key hi
  simp [keyAt?, h] at hi

theorem Distinct.add (hd : p.Distinct) (hp : p.Exact) (v : Value) : (p.add v).2.Distinct := by
  rcases hp.add_values v with hsame | ⟨hnew, hpush⟩
  · intro i j key
    rw [hsame]
    exact hd i j key
  · intro i j key
    rw [hpush, keyAt?_push, keyAt?_push]
    split <;> split
    case isTrue.isTrue hi hj => exact fun _ _ => hi.trans hj.symm
    case isTrue.isFalse => exact fun hi hj => absurd hj (Option.some.inj hi ▸ hnew j)
    case isFalse.isTrue => exact fun hi hj => absurd hi (Option.some.inj hj ▸ hnew i)
    case isFalse.isFalse => exact hd i j key

end Pool

namespace Chunk

/-- The places of constants that are added one after the other. -/
def addConstants (c : Chunk) : List Value → List Nat × Chunk
  | [] => ([], c)
  | v :: vs =>
    let (i, c) := c.addConstant v
    let (is, c) := c.addConstants vs
    (i :: is, c)

variable {c : Chunk}

theorem pool_values (c : Chunk) : c.pool.values = c.constants := by
  rw [pool]
  split <;> rfl

theorem pool_exact (h : c.index = none) : c.pool.Exact := by
  rw [pool, h]
  exact Pool.ofValues_exact c.constants

theorem addConstants_exact (h : c.pool.Exact) (vs : List Value) :
    (c.addConstants vs).2.pool.Exact := by
  induction vs generalizing c with
  | nil => exact h
  | cons v vs ih => exact ih (c := (c.addConstant v).2) (h.add v)

theorem addConstants_distinct (h : c.pool.Exact) (hd : c.pool.Distinct) (vs : List Value) :
    (c.addConstants vs).2.pool.Distinct := by
  induction vs generalizing c with
  | nil => exact hd
  | cons v vs ih => exact ih (c := (c.addConstant v).2) (h.add v) (hd.add h v)

/-- Take a chunk without an index, whatever constants it has, and any calls. The next call answers the
least place of a constant that is like its own, every constant that was there stays where it was, and
one is added only if none of them is like it. If the chunk had no constants at first, no two that it
has now are alike. -/
theorem addConstant_first (c : Chunk) (hindex : c.index = none) (calls : List Value) (v : Value) :
    let before := (c.addConstants calls).2
    let (i, after) := before.addConstant v
    (∃ w, after.constants[i]? = some w ∧ w.Alike v) ∧
      (∀ j < i, ∀ w : Value, after.constants[j]? = some w → ¬ w.Alike v) ∧
      (∀ (j : Nat) (w : Value), before.constants[j]? = some w → after.constants[j]? = some w) ∧
      (after.constants = before.constants ∨
        (∀ w ∈ before.constants, ¬ w.Alike v) ∧ after.constants = before.constants.push v) ∧
      (c.constants = #[] → ∀ (j k : Nat) (w x : Value), after.constants[j]? = some w →
        after.constants[k]? = some x → w.Alike x → j = k) := by
  have hexact : (c.addConstants calls).2.pool.Exact := addConstants_exact (pool_exact hindex) calls
  have hfirst := hexact.add_firstAt v
  have hvalues := hexact.add_values v
  rw [pool_values] at hvalues
  refine ⟨keyAt?_eq_some_iff.mp hfirst.stands, fun j hj w hw halike => ?_, fun j w hw => ?_, ?_,
    fun hnone j k w x hj hk halike => ?_⟩
  · exact hfirst.first j hj (keyAt?_eq_some_iff.mpr ⟨w, hw, halike⟩)
  · rcases hvalues with hsame | ⟨-, hpush⟩
    · exact (congrArg (·[j]?) hsame).trans hw
    · have hlt : j < (c.addConstants calls).2.constants.size := (Array.getElem?_eq_some_iff.mp hw).1
      refine (congrArg (·[j]?) hpush).trans ?_
      rw [Array.getElem?_push_lt hlt, ← hw, Array.getElem?_eq_getElem hlt]
  · refine hvalues.imp_right fun ⟨hnew, hpush⟩ => ⟨fun w hw halike => ?_, hpush⟩
    obtain ⟨j, hj⟩ := Array.mem_iff_getElem?.mp hw
    exact hnew j (keyAt?_eq_some_iff.mpr ⟨w, hj, halike⟩)
  · have hempty : c.pool.Distinct := .of_empty ((pool_values c).trans hnone)
    have hdistinct := (addConstants_distinct (pool_exact hindex) hempty calls).add hexact v
    refine hdistinct j k x.constKey (keyAt?_eq_some_iff.mpr ⟨w, hj, halike⟩) ?_
    exact keyAt?_eq_some_iff.mpr ⟨x, hk, Value.constKey_eq_iff.mp rfl⟩

/-- A chunk that was read with a constant twice, behind another double that is no number: the answer is the
place of the first one with the same bits. -/
theorem addConstant_first_repeated :
    let c : Chunk := { constants := #[.int 42, .float ⟨0x7FF8000000000001⟩, .str "42",
      .float ⟨0x7FF8000000000002⟩, .float ⟨0x7FF8000000000002⟩] }
    let v : Value := .float ⟨0x7FF8000000000002⟩
    let before := (c.addConstants [.func 1, .int 42, .float ⟨0xFFF8000000000002⟩]).2
    let (i, after) := before.addConstant v
    c.index = none ∧ i = 3 ∧ before.constants.size = 7 ∧
      (∃ w, after.constants[i]? = some w ∧ w.Alike v) ∧
      (∀ j < i, ∀ w : Value, after.constants[j]? = some w → ¬ w.Alike v) ∧
      (∀ (j : Nat) (w : Value), before.constants[j]? = some w → after.constants[j]? = some w) :=
  have h := addConstant_first { constants := #[.int 42, .float ⟨0x7FF8000000000001⟩, .str "42",
      .float ⟨0x7FF8000000000002⟩, .float ⟨0x7FF8000000000002⟩] } rfl
    [.func 1, .int 42, .float ⟨0xFFF8000000000002⟩] (.float ⟨0x7FF8000000000002⟩)
  ⟨rfl, by decide, by decide, h.1, h.2.1, h.2.2.1⟩

end Chunk

end Scripting
