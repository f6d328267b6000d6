import Mathlib.Data.List.Forall2
import Scripting.Program.Basic
import Scripting.Proofs.Scope.Loading

/-!
# Taking a batch back

`Alike o p q` says that `p` and `q` agree on everything that was there in `o`, and on all names,
modules, extensions and keys. It does not look inside the types, bindings and functions that came
after `o`: a batch may change those freely, because they go when it is given up. Taking a change back
respects `Alike`, so it is enough that every single change is taken back up to `Alike`.
-/

namespace Scripting

theorem forall₂_getElem? {α β : Type} {R : α → β → Prop} {xs : List α} {ys : List β}
    (h : List.Forall₂ R xs ys) (i : Nat) : Option.Rel R xs[i]? ys[i]? := by
  induction h generalizing i with
  | nil => exact .none
  | cons hxy _ ih =>
    cases i with
    | zero => exact .some hxy
    | succ i => exact ih i

namespace TypeDef

/-- Whether two entries of the type table are the same, or are of one type that came after `o`. -/
structure Alike (o : Program) (d e : TypeDef) : Prop where
  name : d.name = e.name
  id : d.id = e.id
  old : d.id < o.nextType → d = e

theorem Alike.refl (o : Program) (d : TypeDef) : d.Alike o d := ⟨rfl, rfl, fun _ => rfl⟩

theorem Alike.trans {o : Program} {d e f : TypeDef} (h : d.Alike o e) (k : e.Alike o f) :
    d.Alike o f :=
  ⟨h.name.trans k.name, h.id.trans k.id, fun hlt => (h.old hlt).trans (k.old (h.id ▸ hlt))⟩

theorem removeMethod_addMethod {d : TypeDef} {f : FunId} (h : f ∉ d.methods) :
    (d.addMethod f).removeMethod f = d := by
  simp [addMethod, removeMethod, List.erase_append_right _ h]

theorem removeHostMethod_addHostMethod {d : TypeDef} {key : String} {f : HostId}
    (h : (key, f) ∉ d.hostMethods) : (d.addHostMethod key f).removeHostMethod key f = d := by
  simp [addHostMethod, removeHostMethod, List.erase_append_right _ h]

theorem alikeAll_trans {o : Program} {ds es fs : List TypeDef} (h : List.Forall₂ (Alike o) ds es)
    (k : List.Forall₂ (Alike o) es fs) : List.Forall₂ (Alike o) ds fs := by
  induction h generalizing fs with
  | nil => exact k
  | cons hd _ ih =>
    cases k with
    | cons he hes => exact .cons (hd.trans he) (ih hes)

end TypeDef

/-- Whether two type tables have the same places under all keys, and types that are alike there. -/
structure TypeTable.Alike (o : Program) (t u : TypeTable) : Prop where
  defs : List.Forall₂ (TypeDef.Alike o) t.defs.toList u.defs.toList
  names : t.names = u.names
  simpleNames : t.simpleNames = u.simpleNames
  ids : t.ids = u.ids

namespace TypeTable.Alike

variable {o : Program} {s t u : TypeTable}

theorem refl (o : Program) (t : TypeTable) : t.Alike o t :=
  ⟨List.forall₂_same.mpr fun d _ => .refl o d, rfl, rfl, rfl⟩

theorem trans (h : s.Alike o t) (k : t.Alike o u) : s.Alike o u :=
  ⟨TypeDef.alikeAll_trans h.defs k.defs, h.names.trans k.names, h.simpleNames.trans k.simpleNames,
    h.ids.trans k.ids⟩

theorem map {f g : TypeDef → TypeDef} (h : t.Alike o u) (hfg : ∀ d e, d.Alike o e → (f d).Alike o (g e)) :
    (t.map f).Alike o (u.map g) := by
  refine ⟨?_, h.names, h.simpleNames, h.ids⟩
  simp only [TypeTable.map, Array.toList_map]
  exact List.forall₂_map_left_iff.mpr (List.forall₂_map_right_iff.mpr (h.defs.imp hfg))

theorem remove (h : t.Alike o u) (place : Nat) : (t.remove place).Alike o (u.remove place) := by
  have hat : Option.Rel (TypeDef.Alike o) t.defs[place]? u.defs[place]? := by
    rw [← Array.getElem?_toList, ← Array.getElem?_toList]
    exact forall₂_getElem? h.defs place
  rw [TypeTable.remove, TypeTable.remove]
  generalize t.defs[place]? = x at hat
  generalize u.defs[place]? = y at hat
  cases hat with
  | none => exact h
  | @some d e hde =>
    have hsimple : d.simpleName = e.simpleName := congrArg lastSegment hde.name
    dsimp only
    refine ⟨?_, by rw [h.names, hde.name], by rw [h.simpleNames, hsimple], by rw [h.ids, hde.id]⟩
    simp only [Array.take_eq_extract, Array.toList_extract]
    exact List.forall₂_take (place - 0) (List.forall₂_drop 0 h.defs)

end TypeTable.Alike

namespace Program

structure Alike (o p q : Program) : Prop where
  names : ∀ name, p.scope.get? name = q.scope.get? name
  types : p.types.Alike o q.types
  functions : p.functions = q.functions
  modules : p.modules = q.modules
  extensions : p.extensions = q.extensions
  hostKeys : p.hostKeys = q.hostKeys
  bindings : ∀ b < o.bindings.size, p.bindings[b]? = q.bindings[b]?
  funs : ∀ i < o.funs.size, p.funs[i]? = q.funs[i]?
  hosts : ∀ i < o.hosts.size, p.hosts[i]? = q.hosts[i]?
  pending : ∀ i < o.pending.size, p.pending[i]? = q.pending[i]?

variable {o p q r : Program}

namespace Alike

theorem of_types (h : q.types = p.types) : q.types.Alike o p.types := by
  rw [h]
  exact .refl o p.types

theorem refl (o p : Program) : Alike o p p :=
  ⟨fun _ => rfl, of_types rfl, rfl, rfl, rfl, rfl, fun _ _ => rfl, fun _ _ => rfl, fun _ _ => rfl,
    fun _ _ => rfl⟩

theorem record (o p : Program) (u : Undo) : Alike o (p.record u) p :=
  ⟨fun _ => rfl, of_types rfl, rfl, rfl, rfl, rfl, fun _ _ => rfl, fun _ _ => rfl, fun _ _ => rfl,
    fun _ _ => rfl⟩

theorem trans (h : Alike o p q) (k : Alike o q r) : Alike o p r where
  names name := (h.names name).trans (k.names name)
  types := h.types.trans k.types
  functions := h.functions.trans k.functions
  modules := h.modules.trans k.modules
  extensions := h.extensions.trans k.extensions
  hostKeys := h.hostKeys.trans k.hostKeys
  bindings b hb := (h.bindings b hb).trans (k.bindings b hb)
  funs i hi := (h.funs i hi).trans (k.funs i hi)
  hosts i hi := (h.hosts i hi).trans (k.hosts i hi)
  pending i hi := (h.pending i hi).trans (k.pending i hi)

theorem modifyType (h : Alike o p q) (id : TypeId) {f : TypeDef → TypeDef}
    (hname : ∀ d, (f d).name = d.name) (hid : ∀ d, (f d).id = d.id) :
    Alike o (p.modifyType id f) (q.modifyType id f) := by
  refine ⟨h.names, h.types.map fun d e hde => ?_, h.functions, h.modules, h.extensions, h.hostKeys,
    h.bindings, h.funs, h.hosts, h.pending⟩
  by_cases hd : d.id = id
  · have he : e.id = id := hde.id ▸ hd
    simp only [hd, he, beq_self_eq_true, if_true]
    refine ⟨?_, ?_, fun hlt => ?_⟩
    · rw [hname, hname, hde.name]
    · rw [hid, hid, hde.id]
    · rw [hid] at hlt
      rw [hde.old hlt]
  · have he : e.id ≠ id := hde.id ▸ hd
    simpa [hd, he] using hde

theorem ofNewType (p : Program) {id : TypeId} (h : o.nextType ≤ id) {f : TypeDef → TypeDef}
    (hname : ∀ d, (f d).name = d.name) (hid : ∀ d, (f d).id = d.id) :
    Alike o (p.modifyType id f) p := by
  refine ⟨fun _ => rfl, ?_, rfl, rfl, rfl, rfl, fun _ _ => rfl, fun _ _ => rfl, fun _ _ => rfl,
    fun _ _ => rfl⟩
  refine ⟨?_, rfl, rfl, rfl⟩
  rw [modifyType_defs, Array.toList_map]
  refine List.forall₂_map_left_iff.mpr (List.forall₂_same.mpr fun d _ => ?_)
  split
  · rename_i hd
    refine ⟨hname d, hid d, fun hlt => ?_⟩
    rw [hid, eq_of_beq hd] at hlt
    exact absurd hlt (Nat.not_lt.mpr h)
  · exact .refl o d

theorem ofNewBinding (p : Program) {b : BindingId} (h : o.bindings.size ≤ b) (f : Binding → Binding) :
    Alike o (p.modifyBinding b f) p := by
  refine ⟨fun _ => rfl, of_types rfl, rfl, rfl, rfl, rfl, fun c hc => ?_, fun _ _ => rfl,
    fun _ _ => rfl, fun _ _ => rfl⟩
  rw [Program.modifyBinding, Array.getElem?_modify, if_neg (by omega)]

theorem ofNewFun (p : Program) {id : FunId} (h : o.funs.size ≤ id) (f : UserFunction → UserFunction) :
    Alike o (p.modifyFun id f) p := by
  refine ⟨fun _ => rfl, of_types rfl, rfl, rfl, rfl, rfl, fun _ _ => rfl, fun c hc => ?_,
    fun _ _ => rfl, fun _ _ => rfl⟩
  rw [Program.modifyFun, Array.getElem?_modify, if_neg (by omega)]

end Alike

theorem get?_undefine (s : Scope) (name other : String) (b : BindingId) :
    (s.undefine name b).get? other
      = if name = other ∧ s.get? name = some b then none else s.get? other := by
  simp only [Scope.undefine, Scope.get?, beq_iff_eq]
  by_cases hb : s.names[name]? = some b
  · by_cases hn : name = other
    · subst hn
      simp [hb]
    · simp [hb, hn, Std.TreeMap.getElem?_erase]
  · simp [hb]

theorem get?_restore (s : Scope) (name other : String) (b : BindingId) (before : Option BindingId)
    (h : s.get? name = some b) :
    (s.restore name b before).get? other = if name = other then before else s.get? other := by
  cases before with
  | none => simp [Scope.restore, get?_undefine, h]
  | some c => simp [Scope.restore, get?_define]

theorem Alike.undo (h : Alike o p q) (u : Undo) : Alike o (p.undo u) (q.undo u) := by
  obtain ⟨names, types, functions, modules, extensions, hostKeys, bindings, funs, hosts, pending⟩ := h
  have h : Alike o p q :=
    ⟨names, types, functions, modules, extensions, hostKeys, bindings, funs, hosts, pending⟩
  cases u with
  | global name b before =>
    refine ⟨fun other => ?_, types, functions, modules, extensions, hostKeys, bindings, funs, hosts,
      pending⟩
    cases before with
    | none => simp only [Program.undo, Scope.restore, get?_undefine, names]
    | some c => simp only [Program.undo, Scope.restore, get?_define, names]
  | type place =>
    exact ⟨names, types.remove place, functions, modules, extensions, hostKeys, bindings, funs, hosts,
      pending⟩
  | function name =>
    refine ⟨names, types, ?_, modules, extensions, hostKeys, bindings, funs, hosts, pending⟩
    exact congrArg (List.eraseP fun x => x.1 == name) functions
  | method type f => exact h.modifyType type (fun _ => rfl) fun _ => rfl
  | typeBinding type => exact h.modifyType type (fun _ => rfl) fun _ => rfl
  | hostMethod type key f => exact h.modifyType type (fun _ => rfl) fun _ => rfl
  | hostKey key =>
    refine ⟨names, types, functions, modules, extensions, ?_, bindings, funs, hosts, pending⟩
    exact congrArg (List.eraseP fun x => x.1 == key) hostKeys
  | extension f =>
    refine ⟨names, types, functions, modules, ?_, hostKeys, bindings, funs, hosts, pending⟩
    exact congrArg (List.erase · f) extensions
  | module name =>
    refine ⟨names, types, functions, ?_, extensions, hostKeys, bindings, funs, hosts, pending⟩
    exact congrArg (List.erase · name) modules

theorem Alike.undoAll (h : Alike o p q) (us : List Undo) :
    Alike o (us.foldl Program.undo p) (us.foldl Program.undo q) := by
  induction us generalizing p q with
  | nil => exact h
  | cons u us ih => exact ih (h.undo u)

end Program

end Scripting
