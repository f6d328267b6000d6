import Mathlib.Data.List.Sort
import Scripting.Program.Basic

/-!
# The maps of the type table

`TypeTable.Indexed` ties the three maps of a table to the types that stand in it. Adding a type with a
new name and a new number keeps it, and so does removing the latest type, which undoes the addition
(`TypeTable.remove_add`). While it holds, the lookups through the maps are searches of the whole table.
`Program.Indexed` says that of the table of a program, and that the next number is new.
-/

namespace Scripting

namespace TypeTable

variable {t u : TypeTable} {d : TypeDef} {name : String} {id : TypeId} {i : Nat}

/-- The places of the types with a simple name. -/
def places (t : TypeTable) (name : String) : List Nat := t.simpleNames[name]?.getD []

/-- Whether each map leads from a key to the places of all types with that key, and nowhere else. -/
structure Indexed (t : TypeTable) : Prop where
  names : ∀ (name : String) (i : Nat), t.names[name]? = some i ↔ t.defs[i]?.map TypeDef.name = some name
  ids : ∀ (id : TypeId) (i : Nat), t.ids[id]? = some i ↔ t.defs[i]?.map TypeDef.id = some id
  simpleNames : ∀ (name : String) (i : Nat),
    i ∈ t.places name ↔ t.defs[i]?.map TypeDef.simpleName = some name
  ascending : ∀ name : String, (t.places name).Pairwise (· < ·)
  used : ∀ name : String, t.simpleNames[name]? ≠ some []

theorem Indexed.empty : ({} : TypeTable).Indexed :=
  ⟨by simp, by simp, by simp [places], by simp [places], by simp⟩

theorem eq_of_maps (hd : t.defs = u.defs) (hn : t.names = u.names) (hs : t.simpleNames = u.simpleNames)
    (hi : t.ids = u.ids) : t = u := by
  obtain ⟨defs, names, simpleNames, ids⟩ := t
  subst hd hn hs hi
  rfl

theorem mem_of_byName? (h : t.byName? name = some d) : d ∈ t.defs := by
  obtain ⟨i, -, hi⟩ := Option.bind_eq_some_iff.mp h
  exact Array.mem_of_getElem? hi

theorem mem_of_byId? (h : t.byId? id = some d) : d ∈ t.defs := by
  obtain ⟨i, -, hi⟩ := Option.bind_eq_some_iff.mp h
  exact Array.mem_of_getElem? hi

theorem mem_of_named (h : d ∈ t.named name) : d ∈ t.defs := by
  obtain ⟨i, -, hi⟩ := List.mem_filterMap.mp h
  exact Array.mem_of_getElem? hi

theorem bind_place_iff {κ : Type} {key : TypeDef → κ} {k : κ} {place : Option Nat}
    (h : ∀ i, place = some i ↔ t.defs[i]?.map key = some k) :
    place.bind (t.defs[·]?) = some d ↔ d ∈ t.defs ∧ key d = k := by
  rw [Option.bind_eq_some_iff, Array.mem_iff_getElem?]
  constructor
  · rintro ⟨i, hi, hd⟩
    have hkey := (h i).mp hi
    rw [hd] at hkey
    exact ⟨⟨i, hd⟩, Option.some.inj hkey⟩
  · rintro ⟨⟨i, hd⟩, rfl⟩
    exact ⟨i, (h i).mpr (by rw [hd, Option.map_some]), hd⟩

theorem Indexed.byName?_iff (h : t.Indexed) : t.byName? name = some d ↔ d ∈ t.defs ∧ d.name = name :=
  bind_place_iff (h.names name)

theorem Indexed.byId?_iff (h : t.Indexed) : t.byId? id = some d ↔ d ∈ t.defs ∧ d.id = id :=
  bind_place_iff (h.ids id)

theorem Indexed.mem_named (h : t.Indexed) : d ∈ t.named name ↔ d ∈ t.defs ∧ d.simpleName = name := by
  rw [named, List.mem_filterMap, Array.mem_iff_getElem?]
  constructor
  · rintro ⟨i, hi, hd⟩
    have hname := (h.simpleNames name i).mp hi
    rw [hd] at hname
    exact ⟨⟨i, hd⟩, Option.some.inj hname⟩
  · rintro ⟨⟨i, hd⟩, rfl⟩
    exact ⟨i, (h.simpleNames _ i).mpr (by rw [hd, Option.map_some]), hd⟩

theorem place_none_iff {κ : Type} {key : TypeDef → κ} {k : κ} {place : Option Nat}
    (h : ∀ i, place = some i ↔ t.defs[i]?.map key = some k) :
    place = none ↔ ∀ d ∈ t.defs, key d ≠ k := by
  rw [Option.eq_none_iff_forall_ne_some]
  constructor
  · rintro hnone d hd rfl
    obtain ⟨i, hi⟩ := Array.mem_iff_getElem?.mp hd
    exact hnone i ((h i).mpr (by rw [hi, Option.map_some]))
  · intro hall i hi
    obtain ⟨d, hd, hkey⟩ := Option.map_eq_some_iff.mp ((h i).mp hi)
    exact hall d (Array.mem_of_getElem? hd) hkey

theorem nodup_of_map {κ : Type} {key : TypeDef → κ} {place? : κ → Option Nat}
    (h : ∀ k i, place? k = some i ↔ t.defs[i]?.map key = some k) : (t.defs.toList.map key).Nodup := by
  refine List.pairwise_iff_getElem.mpr fun i j hi hj hij heq => ?_
  have hplace : ∀ l (hl : l < (t.defs.toList.map key).length),
      place? (t.defs.toList.map key)[l] = some l := by
    intro l hl
    rw [List.length_map, Array.length_toList] at hl
    rw [h, Array.getElem?_eq_getElem hl, Option.map_some, List.getElem_map, Array.getElem_toList]
  have hi := hplace i hi
  rw [heq, hplace j hj] at hi
  exact Nat.ne_of_gt hij (Option.some.inj hi)

theorem Indexed.nodup_names (h : t.Indexed) : (t.defs.toList.map TypeDef.name).Nodup :=
  nodup_of_map h.names

theorem Indexed.nodup_ids (h : t.Indexed) : (t.defs.toList.map TypeDef.id).Nodup := nodup_of_map h.ids

theorem filterMap_range_getElem? {α : Type} (xs : List α) :
    (List.range xs.length).filterMap (xs[·]?) = xs := by
  induction xs with
  | nil => rfl
  | cons x xs ih =>
    rw [List.length_cons, List.range_succ_eq_map, List.filterMap_cons, List.filterMap_map]
    exact congrArg (x :: ·) ih

theorem Indexed.named_eq (h : t.Indexed) (name : String) :
    t.named name = t.defs.toList.filter fun d => d.simpleName == name := by
  have hplaces : t.places name
      = (List.range t.defs.size).filter fun i => t.defs[i]?.any fun d => d.simpleName == name := by
    refine (h.ascending name).eq_of_mem_iff (List.pairwise_lt_range.filter _) fun i => ?_
    rw [h.simpleNames, List.mem_filter, List.mem_range]
    constructor
    · intro hi
      obtain ⟨d, hd, hname⟩ := Option.map_eq_some_iff.mp hi
      exact ⟨(Array.getElem?_eq_some_iff.mp hd).1, by simp [hd, hname]⟩
    · rintro ⟨hlt, hi⟩
      rw [Array.getElem?_eq_getElem hlt] at hi ⊢
      simpa using hi
  have hall : (List.range t.defs.size).filterMap (t.defs[·]?) = t.defs.toList := by
    rw [← Array.length_toList]
    simp_rw [← Array.getElem?_toList]
    exact filterMap_range_getElem? t.defs.toList
  have hone : (fun i : Nat =>
        if (t.defs[i]?.any fun d => d.simpleName == name) = true then t.defs[i]? else none)
      = fun i => (t.defs[i]?).filter fun d => d.simpleName == name := by
    funext i
    cases t.defs[i]? <;> rfl
  rw [named, show t.simpleNames[name]?.getD [] = t.places name from rfl, hplaces, List.filterMap_filter,
    hone, ← List.filter_filterMap, hall]

/-- Whether two tables have the same keys at the same places. -/
structure SameKeys (t u : TypeTable) : Prop where
  names : t.names = u.names
  simpleNames : t.simpleNames = u.simpleNames
  ids : t.ids = u.ids
  nameAt : ∀ i : Nat, t.defs[i]?.map TypeDef.name = u.defs[i]?.map TypeDef.name
  idAt : ∀ i : Nat, t.defs[i]?.map TypeDef.id = u.defs[i]?.map TypeDef.id

theorem SameKeys.simpleNameAt (h : t.SameKeys u) (i : Nat) :
    t.defs[i]?.map TypeDef.simpleName = u.defs[i]?.map TypeDef.simpleName := by
  have hname := congrArg (Option.map lastSegment) (h.nameAt i)
  rwa [Option.map_map, Option.map_map] at hname

theorem SameKeys.refl (t : TypeTable) : t.SameKeys t := ⟨rfl, rfl, rfl, fun _ => rfl, fun _ => rfl⟩

theorem SameKeys.size (h : t.SameKeys u) : t.defs.size = u.defs.size := by
  have hnone (i : Nat) : t.defs[i]? = none ↔ u.defs[i]? = none := by
    rw [← Option.map_eq_none_iff, h.idAt, Option.map_eq_none_iff]
  refine Nat.le_antisymm ?_ ?_ <;> rw [← Array.getElem?_eq_none_iff]
  · exact (hnone _).mpr (Array.getElem?_eq_none (Nat.le_refl _))
  · exact (hnone _).mp (Array.getElem?_eq_none (Nat.le_refl _))

theorem SameKeys.mem (h : t.SameKeys u) {e : TypeDef} (he : e ∈ u.defs) :
    ∃ d ∈ t.defs, d.id = e.id ∧ d.name = e.name := by
  obtain ⟨i, hi⟩ := Array.mem_iff_getElem?.mp he
  have hid := h.idAt i
  have hname := h.nameAt i
  rw [hi] at hid hname
  obtain ⟨d, hd, hid⟩ := Option.map_eq_some_iff.mp hid
  rw [hd] at hname
  exact ⟨d, Array.mem_of_getElem? hd, hid, Option.some.inj hname⟩

theorem Indexed.of_sameKeys (h : t.Indexed) (k : t.SameKeys u) : u.Indexed := by
  have hplaces : ∀ name, u.places name = t.places name := fun name => by
    rw [places, places, k.simpleNames]
  refine ⟨fun name i => ?_, fun id i => ?_, fun name i => ?_, fun name => ?_, fun name => ?_⟩
  · rw [← k.names, ← k.nameAt]
    exact h.names name i
  · rw [← k.ids, ← k.idAt]
    exact h.ids id i
  · rw [hplaces, ← k.simpleNameAt]
    exact h.simpleNames name i
  · exact hplaces name ▸ h.ascending name
  · exact k.simpleNames ▸ h.used name

theorem map_sameKeys (t : TypeTable) {f : TypeDef → TypeDef} (hname : ∀ d, (f d).name = d.name)
    (hid : ∀ d, (f d).id = d.id) : t.SameKeys (t.map f) := by
  refine ⟨rfl, rfl, rfl, fun i => ?_, fun i => ?_⟩ <;> rw [map, Array.getElem?_map, Option.map_map]
  · exact congrArg (Option.map · _) (funext fun d => (hname d).symm)
  · exact congrArg (Option.map · _) (funext fun d => (hid d).symm)

theorem add_defs (t : TypeTable) (d : TypeDef) : (t.add d).defs = t.defs.push d := rfl

theorem ofList_defs (ds : List TypeDef) : (ofList ds).defs.toList = ds := by
  have hall : ∀ (ds : List TypeDef) (t : TypeTable), (ds.foldl TypeTable.add t).defs.toList
      = t.defs.toList ++ ds := by
    intro ds
    induction ds with
    | nil => exact fun t => (List.append_nil _).symm
    | cons d ds ih =>
      intro t
      rw [List.foldl_cons, ih, add_defs, Array.toList_push, List.append_assoc, List.singleton_append]
  exact hall ds {}

theorem add_names (t : TypeTable) (d : TypeDef) (name : String) :
    (t.add d).names[name]? = if d.name = name then some t.defs.size else t.names[name]? := by
  simp [add, Std.ExtTreeMap.getElem?_insert]

theorem add_ids (t : TypeTable) (d : TypeDef) (id : TypeId) :
    (t.add d).ids[id]? = if d.id = id then some t.defs.size else t.ids[id]? := by
  simp [add, Std.ExtTreeMap.getElem?_insert]

theorem add_simpleNames (t : TypeTable) (d : TypeDef) (name : String) :
    (t.add d).simpleNames[name]?
      = if d.simpleName = name then some (t.places name ++ [t.defs.size]) else t.simpleNames[name]? := by
  rw [add, Std.ExtTreeMap.getElem?_alter]
  by_cases h : d.simpleName = name
  · subst h
    simp [places]
  · simp [h]

theorem add_places (t : TypeTable) (d : TypeDef) (name : String) :
    (t.add d).places name
      = if d.simpleName = name then t.places name ++ [t.defs.size] else t.places name := by
  rw [places, add_simpleNames]
  split <;> rfl

theorem getElem?_push_map {κ : Type} (key : TypeDef → κ) (ds : Array TypeDef) (d : TypeDef) (i : Nat) :
    (ds.push d)[i]?.map key = if i = ds.size then some (key d) else ds[i]?.map key := by
  rw [Array.getElem?_push]
  split <;> rfl

theorem place_lt {κ : Type} {key : TypeDef → κ} {k : κ} (h : t.defs[i]?.map key = some k) :
    i < t.defs.size := by
  obtain ⟨d, hd, -⟩ := Option.map_eq_some_iff.mp h
  exact (Array.getElem?_eq_some_iff.mp hd).1

/-- Whether what the maps lead to has the key. -/
structure Keyed (t : TypeTable) : Prop where
  names : ∀ (name : String) (i : Nat), t.names[name]? = some i → t.defs[i]?.map TypeDef.name = some name
  ids : ∀ (id : TypeId) (i : Nat), t.ids[id]? = some i → t.defs[i]?.map TypeDef.id = some id

theorem Indexed.keyed (h : t.Indexed) : t.Keyed :=
  ⟨fun name i => (h.names name i).mp, fun id i => (h.ids id i).mp⟩

theorem key_of_place {κ : Type} {key : TypeDef → κ} {k : κ} {place : Option Nat}
    (h : ∀ i, place = some i → t.defs[i]?.map key = some k) (hd : place.bind (t.defs[·]?) = some d) :
    key d = k := by
  obtain ⟨i, hi, hdi⟩ := Option.bind_eq_some_iff.mp hd
  have hkey := h i hi
  rw [hdi] at hkey
  exact Option.some.inj hkey

theorem Keyed.name_of_byName? (h : t.Keyed) (hd : t.byName? name = some d) : d.name = name :=
  key_of_place (h.names name) hd

theorem Keyed.id_of_byId? (h : t.Keyed) (hd : t.byId? id = some d) : d.id = id :=
  key_of_place (h.ids id) hd

theorem Keyed.of_sameKeys (h : t.Keyed) (k : t.SameKeys u) : u.Keyed :=
  ⟨fun name i hi => k.nameAt i ▸ h.names name i (k.names ▸ hi),
    fun id i hi => k.idAt i ▸ h.ids id i (k.ids ▸ hi)⟩

theorem insert_keyed {κ : Type} [DecidableEq κ] {key : TypeDef → κ} {place? : κ → Option Nat}
    (h : ∀ k i, place? k = some i → t.defs[i]?.map key = some k) (k : κ) (i : Nat)
    (hi : (if key d = k then some t.defs.size else place? k) = some i) :
    (t.defs.push d)[i]?.map key = some k := by
  rw [getElem?_push_map]
  split at hi
  · rename_i hk
    rw [if_pos (Option.some.inj hi).symm, hk]
  · have hold := h k i hi
    rw [if_neg (Nat.ne_of_lt (place_lt hold)), hold]

theorem Keyed.add (h : t.Keyed) (d : TypeDef) : (t.add d).Keyed where
  names name i hi := insert_keyed h.names name i (add_names t d name ▸ hi)
  ids id i hi := insert_keyed h.ids id i (add_ids t d id ▸ hi)

theorem Keyed.ofList (ds : List TypeDef) : (ofList ds).Keyed := by
  have hall : ∀ (ds : List TypeDef) (t : TypeTable), t.Keyed → (ds.foldl TypeTable.add t).Keyed := by
    intro ds
    induction ds with
    | nil => exact fun t h => h
    | cons d ds ih => exact fun t h => ih (t.add d) (h.add d)
  exact hall ds {} Indexed.empty.keyed

theorem insert_iff {κ : Type} [DecidableEq κ] {key : TypeDef → κ} {place? : κ → Option Nat}
    (h : ∀ k i, place? k = some i ↔ t.defs[i]?.map key = some k) (hnew : place? (key d) = none)
    (k : κ) (i : Nat) : (if key d = k then some t.defs.size else place? k) = some i ↔
      (t.defs.push d)[i]?.map key = some k := by
  rw [getElem?_push_map]
  by_cases hi : i = t.defs.size
  · have hnone : place? k ≠ some i := fun hk => Nat.ne_of_lt (place_lt ((h k i).mp hk)) hi
    rw [if_pos hi, Option.some.injEq]
    split
    · rename_i hk
      exact iff_of_true (hi ▸ rfl) hk
    · rename_i hk
      exact iff_of_false hnone hk
  · rw [if_neg hi, ← h]
    split
    · rename_i hk
      rw [← hk, hnew]
      exact iff_of_false (fun hs => hi (Option.some.inj hs).symm) (Option.some_ne_none i ∘ Eq.symm)
    · rfl

theorem Indexed.add (h : t.Indexed) (hname : t.names[d.name]? = none) (hid : t.ids[d.id]? = none) :
    (t.add d).Indexed where
  names name i := by
    rw [add_names]
    exact insert_iff h.names hname name i
  ids id i := by
    rw [add_ids]
    exact insert_iff h.ids hid id i
  simpleNames name i := by
    rw [add_places, TypeTable.add, getElem?_push_map]
    by_cases hi : i = t.defs.size
    · have hold : i ∉ t.places name := fun hmem =>
        Nat.ne_of_lt (place_lt ((h.simpleNames name i).mp hmem)) hi
      rw [if_pos hi, Option.some.injEq]
      split <;> simp_all
    · rw [if_neg hi, ← h.simpleNames]
      split <;> simp [hi]
  ascending name := by
    rw [add_places]
    split
    · refine List.pairwise_append.mpr ⟨h.ascending name, List.pairwise_singleton _ _, fun i hi j hj => ?_⟩
      rw [List.mem_singleton.mp hj]
      exact place_lt ((h.simpleNames name i).mp hi)
    · exact h.ascending name
  used name := by
    rw [add_simpleNames]
    split
    · simp
    · exact h.used name

theorem Indexed.ofList {ds : List TypeDef} (hnames : (ds.map TypeDef.name).Nodup)
    (hids : (ds.map TypeDef.id).Nodup) : (ofList ds).Indexed := by
  have hall : ∀ (ds : List TypeDef) (t : TypeTable), t.Indexed →
      ((t.defs.toList ++ ds).map TypeDef.name).Nodup → ((t.defs.toList ++ ds).map TypeDef.id).Nodup →
        (ds.foldl TypeTable.add t).Indexed := by
    intro ds
    induction ds with
    | nil => exact fun t h _ _ => h
    | cons d ds ih =>
      intro t h hnames hids
      have hnext : (t.add d).defs.toList ++ ds = t.defs.toList ++ d :: ds := by
        rw [add_defs, Array.toList_push, List.append_assoc, List.singleton_append]
      refine ih (t.add d) (h.add ?_ ?_) (hnext ▸ hnames) (hnext ▸ hids)
      · rw [place_none_iff (h.names d.name)]
        rw [List.map_append, List.nodup_append] at hnames
        exact fun e he => hnames.2.2 _ (List.mem_map_of_mem (Array.mem_toList_iff.mpr he)) _ (by simp)
      · rw [place_none_iff (h.ids d.id)]
        rw [List.map_append, List.nodup_append] at hids
        exact fun e he => hids.2.2 _ (List.mem_map_of_mem (Array.mem_toList_iff.mpr he)) _ (by simp)
  exact hall ds {} .empty (by simpa using hnames) (by simpa using hids)

theorem splice_getD (i : Nat) (l : Option (List Nat)) : (splice i l).getD [] = (l.getD []).erase i := by
  rw [splice]
  split
  · rename_i hnil
    rw [hnil]
    rfl
  · rfl

theorem splice_ne (i : Nat) (l : Option (List Nat)) : splice i l ≠ some [] := by
  rw [splice]
  split
  · simp
  · rename_i hne
    exact fun heq => hne (Option.some.inj heq)

section

variable {last : Nat} (hd : t.defs[last]? = some d)
include hd

theorem remove_defs : (t.remove last).defs = t.defs.take last := by
  rw [remove, hd]

theorem remove_names (name : String) :
    (t.remove last).names[name]? = if d.name = name then none else t.names[name]? := by
  simp [remove, hd, Std.ExtTreeMap.getElem?_erase]

theorem remove_ids (id : TypeId) :
    (t.remove last).ids[id]? = if d.id = id then none else t.ids[id]? := by
  simp [remove, hd, Std.ExtTreeMap.getElem?_erase]

theorem remove_simpleNames (name : String) : (t.remove last).simpleNames[name]?
    = if d.simpleName = name then splice last t.simpleNames[name]? else t.simpleNames[name]? := by
  simp only [remove, hd, Std.ExtTreeMap.getElem?_alter]
  by_cases h : d.simpleName = name
  · subst h
    simp
  · simp [h]

theorem remove_places (name : String) : (t.remove last).places name
    = if d.simpleName = name then (t.places name).erase last else t.places name := by
  rw [places, remove_simpleNames hd]
  split
  · exact splice_getD last _
  · rfl

end

theorem getElem?_take {α : Type} (xs : Array α) (n i : Nat) :
    (xs.take n)[i]? = if i < n then xs[i]? else none := by
  rw [Array.take_eq_extract, Array.getElem?_extract, Nat.zero_add, Nat.sub_zero]
  split
  · rename_i hi
    rw [if_pos (by omega)]
  · rename_i hi
    split
    · rw [Array.getElem?_eq_none (by omega)]
    · rfl

theorem mem_of_mem_remove {place : Nat} (hd : d ∈ (t.remove place).defs) : d ∈ t.defs := by
  rw [remove] at hd
  split at hd
  · exact hd
  · rw [Array.mem_iff_getElem?] at hd ⊢
    obtain ⟨i, hi⟩ := hd
    rw [getElem?_take] at hi
    split at hi
    · exact ⟨i, hi⟩
    · cases hi

theorem erase_iff {κ : Type} [DecidableEq κ] {key : TypeDef → κ} {place? : κ → Option Nat} {last : Nat}
    (h : ∀ k i, place? k = some i ↔ t.defs[i]?.map key = some k) (hd : t.defs[last]? = some d)
    (hlast : last + 1 = t.defs.size) (k : κ) (i : Nat) :
    (if key d = k then none else place? k) = some i ↔ (t.defs.take last)[i]?.map key = some k := by
  have hplace : place? (key d) = some last := (h _ last).mpr (by rw [hd, Option.map_some])
  rw [getElem?_take]
  by_cases hi : i < last
  · rw [if_pos hi, ← h]
    split
    · rename_i hk
      rw [← hk, hplace]
      exact iff_of_false (Option.some_ne_none i ∘ Eq.symm) fun heq => Nat.ne_of_gt hi (Option.some.inj heq)
    · rfl
  · rw [if_neg hi]
    refine iff_of_false (fun hk => ?_) (Option.some_ne_none k ∘ Eq.symm)
    split at hk
    · cases hk
    · rename_i hne
      have hkey := (h k i).mp hk
      obtain rfl : i = last := by
        have := place_lt hkey
        omega
      rw [hd] at hkey
      exact hne (Option.some.inj hkey)

theorem Indexed.remove (h : t.Indexed) {last : Nat} (hlast : last + 1 = t.defs.size) :
    (t.remove last).Indexed := by
  obtain ⟨d, hd⟩ : ∃ d, t.defs[last]? = some d :=
    ⟨_, Array.getElem?_eq_getElem (hlast ▸ Nat.lt_succ_self last)⟩
  refine ⟨fun name i => ?_, fun id i => ?_, fun name i => ?_, fun name => ?_, fun name => ?_⟩
  · rw [remove_names hd, remove_defs hd]
    exact erase_iff h.names hd hlast name i
  · rw [remove_ids hd, remove_defs hd]
    exact erase_iff h.ids hd hlast id i
  · rw [remove_places hd, remove_defs hd, getElem?_take]
    by_cases hi : i < last
    · rw [if_pos hi, ← h.simpleNames]
      split
      · exact List.mem_erase_of_ne (Nat.ne_of_lt hi)
      · rfl
    · rw [if_neg hi]
      refine iff_of_false (fun hmem => ?_) (Option.some_ne_none name ∘ Eq.symm)
      have hold : i ∈ t.places name := by
        split at hmem
        · exact List.mem_of_mem_erase hmem
        · exact hmem
      have hname := (h.simpleNames name i).mp hold
      obtain rfl : i = last := by
        have := place_lt hname
        omega
      rw [hd] at hname
      rw [if_pos (Option.some.inj hname)] at hmem
      exact (h.ascending name).nodup.not_mem_erase hmem
  · rw [remove_places hd]
    split
    · exact (h.ascending name).sublist List.erase_sublist
    · exact h.ascending name
  · rw [remove_simpleNames hd]
    split
    · exact splice_ne last _
    · exact h.used name

theorem Indexed.remove_add (h : t.Indexed) (hname : t.names[d.name]? = none)
    (hid : t.ids[d.id]? = none) : (t.add d).remove t.defs.size = t := by
  have hd : (t.add d).defs[t.defs.size]? = some d := Array.getElem?_push_size
  have hdefs : ((t.add d).remove t.defs.size).defs = t.defs := by
    rw [remove_defs hd]
    apply Array.ext_getElem?
    intro i
    rw [getElem?_take, TypeTable.add, Array.getElem?_push]
    split
    · rw [if_neg (by omega)]
    · rw [Array.getElem?_eq_none (by omega)]
  have hnames : ((t.add d).remove t.defs.size).names = t.names := by
    refine Std.ExtTreeMap.ext_getElem? fun k => ?_
    rw [remove_names hd, add_names]
    split
    · rename_i hk
      rw [← hk, hname]
    · rfl
  have hids : ((t.add d).remove t.defs.size).ids = t.ids := by
    refine Std.ExtTreeMap.ext_getElem? fun k => ?_
    rw [remove_ids hd, add_ids]
    split
    · rename_i hk
      rw [← hk, hid]
    · rfl
  have hsimple : ((t.add d).remove t.defs.size).simpleNames = t.simpleNames := by
    refine Std.ExtTreeMap.ext_getElem? fun k => ?_
    rw [remove_simpleNames hd, add_simpleNames]
    split
    · have hnew : t.defs.size ∉ t.places k := fun hmem =>
        Nat.lt_irrefl _ (place_lt ((h.simpleNames k _).mp hmem))
      rw [splice, Option.getD_some, List.erase_append_right _ hnew, List.erase_cons_head, List.append_nil,
        places]
      cases hk : t.simpleNames[k]? with
      | none => rfl
      | some l =>
        cases l with
        | nil => exact absurd hk (h.used k)
        | cons i l => rfl
    · rfl
  exact eq_of_maps hdefs hnames hsimple hids

end TypeTable

namespace Program

variable {p q : Program}

/-- Whether the maps of the type table agree with it, and all numbers in it were given. -/
structure Indexed (p : Program) : Prop where
  table : p.types.Indexed
  given : ∀ d ∈ p.types.defs, d.id < p.nextType

theorem Indexed.of_types (h : p.Indexed) (ht : q.types = p.types) (hn : p.nextType ≤ q.nextType) :
    q.Indexed :=
  ⟨ht ▸ h.table, fun d hd => Nat.lt_of_lt_of_le (h.given d (ht ▸ hd)) hn⟩

theorem modifyType_defs (p : Program) (id : TypeId) (f : TypeDef → TypeDef) :
    (p.modifyType id f).types.defs = p.types.defs.map fun d => if d.id == id then f d else d := rfl

theorem modifyType_sameKeys (p : Program) (id : TypeId) {f : TypeDef → TypeDef}
    (hf : ∀ d, (f d).id = d.id ∧ (f d).name = d.name) :
    p.types.SameKeys (p.modifyType id f).types := by
  refine p.types.map_sameKeys (fun d => ?_) fun d => ?_
  · split
    · exact (hf d).2
    · rfl
  · split
    · exact (hf d).1
    · rfl

theorem Indexed.of_sameKeys (h : p.Indexed) (k : p.types.SameKeys q.types)
    (hn : p.nextType ≤ q.nextType) : q.Indexed := by
  refine ⟨h.table.of_sameKeys k, fun e he => ?_⟩
  obtain ⟨d, hd, hid, -⟩ := k.mem he
  exact hid ▸ Nat.lt_of_lt_of_le (h.given d hd) hn

theorem Indexed.modifyType (h : p.Indexed) (id : TypeId) {f : TypeDef → TypeDef}
    (hf : ∀ d, (f d).id = d.id ∧ (f d).name = d.name) : (p.modifyType id f).Indexed :=
  h.of_sameKeys (p.modifyType_sameKeys id hf) (Nat.le_refl _)

def Undo.place? : Undo → Option Nat
  | .type place => some place
  | _ => none

theorem Indexed.next_unused (h : p.Indexed) : p.types.ids[p.nextType]? = none := by
  refine Option.eq_none_iff_forall_ne_some.mpr fun i hi => ?_
  obtain ⟨d, hd, hid⟩ := Option.map_eq_some_iff.mp ((h.table.ids _ i).mp hi)
  exact Nat.ne_of_lt (h.given d (Array.mem_of_getElem? hd)) hid

theorem addType_eq {d : TypeDef} {id : TypeId} (hd : d.id = 0) (hadd : p.addType d = .ok (id, q)) :
    p.types.names[d.name]? = none ∧ id = p.nextType ∧
      q = { p with types := p.types.add { d with id := p.nextType }, nextType := p.nextType + 1 }.record
        (.type p.types.defs.size) := by
  rw [addType] at hadd
  split at hadd
  · cases hadd
  rename_i hname
  rw [if_pos (by simpa using hd)] at hadd
  obtain ⟨rfl, rfl⟩ := Prod.mk.inj (Except.ok.inj hadd)
  rw [Std.ExtTreeMap.contains_eq_isSome_getElem?] at hname
  exact ⟨Option.not_isSome_iff_eq_none.mp hname, rfl, rfl⟩

theorem Indexed.addType (h : p.Indexed) {d : TypeDef} {id : TypeId} (hd : d.id = 0)
    (hadd : p.addType d = .ok (id, q)) : q.Indexed := by
  obtain ⟨hname, -, rfl⟩ := addType_eq hd hadd
  refine ⟨h.table.add hname h.next_unused, fun e he => ?_⟩
  rcases Array.mem_push.mp he with he | rfl
  · exact Nat.lt_succ_of_lt (h.given e he)
  · exact Nat.lt_succ_self _

theorem undo_sameKeys (p : Program) {u : Undo} (hu : u.place? = none) :
    p.types.SameKeys (p.undo u).types := by
  cases u with
  | type place => cases hu
  | method type f => exact p.modifyType_sameKeys type (f := (·.removeMethod f)) fun _ => ⟨rfl, rfl⟩
  | typeBinding type => exact p.modifyType_sameKeys type (f := (·.heldBy none)) fun _ => ⟨rfl, rfl⟩
  | hostMethod type key f =>
    exact p.modifyType_sameKeys type (f := (·.removeHostMethod key f)) fun _ => ⟨rfl, rfl⟩
  | _ => exact .refl _

theorem undo_nextType (p : Program) (u : Undo) : (p.undo u).nextType = p.nextType := by
  cases u <;> rfl

end Program

end Scripting
