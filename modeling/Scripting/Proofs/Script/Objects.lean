import Mathlib.Data.List.Forall2
import Scripting.Script.Objects
import Scripting.Proofs.Batch.Follows
import Scripting.Proofs.Typed.Formed

/-!
# Objects of a program

`Program.makeObjects` gives every function an object and changes nothing else that names, places or
numbers of arguments depend on. The objects it makes come behind those that were there, and the
functions among them have no code yet.
-/

namespace Scripting

/-- A heap to which objects were added. Functions that were added have no code yet. -/
structure Heap.Adds (h h' : Heap) : Prop where
  count : h.funcs.size ≤ h'.funcs.size
  old : ∀ i < h.funcs.size, h'.funcs[i]? = h.funcs[i]?
  new : ∀ (i : Ref) (x : Function), h.funcs.size ≤ i → h'.funcs[i]? = some x → x.chunk = none

namespace Heap.Adds

variable {h h' h'' : Heap}

theorem of_eq (hf : h'.funcs = h.funcs) : h.Adds h' := by
  refine ⟨Nat.le_of_eq (by rw [hf]), fun _ _ => by rw [hf], fun i x hi hx => ?_⟩
  rw [hf, Array.getElem?_eq_none hi] at hx
  cases hx

theorem trans (a : h.Adds h') (b : h'.Adds h'') : h.Adds h'' := by
  refine ⟨Nat.le_trans a.count b.count, fun i hi => ?_, fun i x hi hx => ?_⟩
  · exact (b.old i (Nat.lt_of_lt_of_le hi a.count)).trans (a.old i hi)
  · rcases Nat.lt_or_ge i h'.funcs.size with hlt | hge
    · rw [b.old i hlt] at hx
      exact a.new i x hi hx
    · exact b.new i x hge hx

theorem newFunc (h : Heap) {f : Function} (hf : f.chunk = none) : h.Adds (h.newFunc f).2 := by
  refine ⟨by simp [Heap.newFunc], fun i hi => ?_, fun i x hi hx => ?_⟩
  · rw [Heap.newFunc, Array.getElem?_push_lt hi, Array.getElem?_eq_getElem hi]
  · rw [Heap.newFunc, Array.getElem?_push] at hx
    split at hx
    · exact Option.some.inj hx ▸ hf
    · rw [Array.getElem?_eq_none hi] at hx
      cases hx

theorem some (a : h.Adds h') {r : Ref} {x : Function} (hx : h.funcs[r]? = some x) :
    h'.funcs[r]? = some x := by
  rw [a.old r (Array.getElem?_eq_some_iff.mp hx).1, hx]

end Heap.Adds

namespace Program

variable {α β : Type}

/-- Whether a step adds objects, and `P` holds of what it gives as long as only objects are added. -/
def Makes (P : α → β → Heap → Prop) (f : α → StateM Heap β) : Prop :=
  (∀ a b h h', h.Adds h' → P a b h → P a b h') ∧
    ∀ a h, h.Adds ((f a).run h).2 ∧ P a ((f a).run h).1 ((f a).run h).2

theorem Makes.all {P : α → β → Heap → Prop} {f : α → StateM Heap β} (hf : Makes P f) :
    (as : List α) → (h : Heap) → h.Adds ((as.mapM f).run h).2 ∧
      List.Forall₂ (P · · ((as.mapM f).run h).2) as ((as.mapM f).run h).1
  | [], h => ⟨.of_eq rfl, .nil⟩
  | a :: as, h => by
    rw [List.mapM_cons]
    obtain ⟨hadds, hP⟩ := hf.2 a h
    obtain ⟨hrest, hall⟩ := hf.all as ((f a).run h).2
    exact ⟨hadds.trans hrest, .cons (hf.1 _ _ _ _ hrest hP) hall⟩

theorem mapM_run (f : α → StateM Heap β) (as : Array α) (h : Heap) :
    (as.mapM f).run h = (((as.toList.mapM f).run h).1.toArray, ((as.toList.mapM f).run h).2) := by
  rw [Array.mapM_eq_mapM_toList]
  rfl

/-- A function that has its object. If the object is new, it takes as many arguments and has no code
yet. -/
structure HasObject (f g : UserFunction) (h : Heap) : Prop where
  rest : g = { f with ref := g.ref }
  given : g.ref.isSome = true
  kept : ∀ r, f.ref = some r → g.ref = some r
  made : ∀ r, f.ref = none → g.ref = some r →
    ∃ x, h.funcs[r]? = some x ∧ x.arity = f.arity ∧ x.chunk = none

theorem makeFunction_makes : Makes HasObject makeFunction := by
  refine ⟨fun f g h h' hadds hP => ⟨hP.rest, hP.given, hP.kept, fun r hf hg => ?_⟩, fun f h => ?_⟩
  · obtain ⟨x, hx, hmade⟩ := hP.made r hf hg
    exact ⟨x, hadds.some hx, hmade⟩
  · rw [makeFunction]
    split
    · rename_i r hf
      refine ⟨.of_eq rfl, rfl, ?_, fun _ h => h, fun _ h => absurd (hf.symm.trans h) (Option.some_ne_none r)⟩
      exact Option.isSome_iff_exists.mpr ⟨r, hf⟩
    · rename_i hf
      refine ⟨.newFunc h rfl, rfl, rfl, fun r h => absurd (h.symm.trans hf) (Option.some_ne_none r),
        fun r _ hr => ?_⟩
      obtain rfl := Option.some.inj hr
      exact ⟨{ name := f.name, arity := f.arity, signature := f.signature }, Array.getElem?_push_size, rfl, rfl⟩

abbrev refAt (fs : List UserFunction) (i : Nat) : Option Ref := (fs[i]?).bind (·.ref)

/-- Whether objects that functions got are new, and no two got the same one. -/
structure Apart (fs gs : List UserFunction) (h : Heap) : Prop where
  new : ∀ i r, refAt fs i = none → refAt gs i = some r → h.funcs.size ≤ r
  single : ∀ i j r, refAt fs i = none → refAt fs j = none → refAt gs i = some r →
    refAt gs j = some r → i = j

theorem Apart.cons {f g : UserFunction} {fs gs : List UserFunction} {h h' : Heap}
    (hrest : Apart fs gs h') (hcount : h.funcs.size ≤ h'.funcs.size)
    (hfirst : f.ref = none → ∀ r, g.ref = some r → h.funcs.size ≤ r ∧ r < h'.funcs.size) :
    Apart (f :: fs) (g :: gs) h := by
  refine ⟨fun i r hi hr => ?_, fun i j r hi hj hr hr' => ?_⟩
  · cases i with
    | zero => exact (hfirst hi r hr).1
    | succ i => exact Nat.le_trans hcount (hrest.new i r hi hr)
  · cases i with
    | zero =>
      cases j with
      | zero => rfl
      | succ j =>
        exact absurd (hfirst hi r hr).2 (Nat.not_lt.mpr (hrest.new j r hj hr'))
    | succ i =>
      cases j with
      | zero =>
        exact absurd (hfirst hj r hr').2 (Nat.not_lt.mpr (hrest.new i r hi hr))
      | succ j => rw [hrest.single i j r hi hj hr hr']

theorem makeFunctions_apart : (fs : List UserFunction) → (h : Heap) →
    Apart fs ((fs.mapM makeFunction).run h).1 h
  | [], _ => ⟨nofun, nofun⟩
  | f :: fs, h => by
    rw [List.mapM_cons]
    refine Apart.cons (g := ((makeFunction f).run h).1) (makeFunctions_apart fs ((makeFunction f).run h).2)
      (makeFunction_makes.2 f h).1.count fun hf r hr => ?_
    have hrun : (makeFunction f).run h = ({ f with ref := some h.funcs.size },
        (h.newFunc { name := f.name, arity := f.arity, signature := f.signature }).2) := by
      rw [makeFunction, hf]
      rfl
    rw [hrun] at hr ⊢
    obtain rfl := Option.some.inj hr
    exact ⟨Nat.le_refl _, by simp [Heap.newFunc]⟩

theorem makeHost_makes : Makes (fun _ _ _ => True) makeHost := by
  refine ⟨fun _ _ _ _ _ h => h, fun f h => ⟨?_, trivial⟩⟩
  rw [makeHost]
  split
  · exact .of_eq rfl
  · exact .of_eq rfl

/-- A variant that has its object. A new object is an instance or a constructor. -/
structure SameVariant (v w : Variant) : Prop where
  rest : w = { v with object := w.object }
  kept : ∀ x, v.object = some x → w.object = some x
  made : v.object = none → ∃ x, w.object = some x ∧ ((∃ r, x = .inst r) ∨ ∃ i c, x = .ctor i c)

theorem makeVariant_makes (typeName : String) :
    Makes (fun v w _ => SameVariant v w) (makeVariant typeName) := by
  refine ⟨fun _ _ _ _ _ h => h, fun v h => ?_⟩
  rw [makeVariant]
  split
  · rename_i x hx
    exact ⟨.of_eq rfl, rfl, fun _ h => h, fun h => absurd (hx.symm.trans h) (Option.some_ne_none x)⟩
  · rename_i hnone
    have hkept : ∀ x y : Value, v.object = some x → some y = some x := fun x _ h =>
      absurd (h.symm.trans hnone) (Option.some_ne_none x)
    by_cases hv : v.isNullary = true
    · rw [if_pos hv]
      exact ⟨.of_eq rfl, rfl, fun x h => hkept x _ h, fun _ => ⟨_, rfl, .inl ⟨_, rfl⟩⟩⟩
    · rw [if_neg hv]
      exact ⟨.of_eq rfl, rfl, fun x h => hkept x _ h, fun _ => ⟨_, rfl, .inr ⟨_, _, rfl⟩⟩⟩

/-- A type whose variants have their objects. -/
structure SameType (d e : TypeDef) : Prop where
  rest : e = { d with variants := e.variants }
  variants : List.Forall₂ SameVariant d.variants e.variants

theorem makeVariants_makes : Makes (fun d e _ => SameType d e) makeVariants := by
  refine ⟨fun _ _ _ _ _ h => h, fun d h => ?_⟩
  obtain ⟨hadds, hall⟩ := (makeVariant_makes d.name).all d.variants h
  exact ⟨hadds, rfl, hall⟩

/-- A program that has its objects, and the heap that holds them. -/
structure HasObjects (p : Program) (h : Heap) (q : Program) (h' : Heap) : Prop where
  rest : q = { p with
    funs := q.funs, hosts := q.hosts, types := { p.types with defs := q.types.defs } }
  funs : List.Forall₂ (HasObject · · h') p.funs.toList q.funs.toList
  hosts : q.hosts.size = p.hosts.size
  types : List.Forall₂ SameType p.types.defs.toList q.types.defs.toList
  heap : h.Adds h'
  apart : Apart p.funs.toList q.funs.toList h

theorem makeObjects_run (p : Program) (h : Heap) : p.makeObjects.run h
    = (let x := (p.funs.mapM makeFunction).run h
      let y := (p.hosts.mapM makeHost).run x.2
      let z := (p.types.defs.mapM makeVariants).run y.2
      ({ p with funs := x.1, hosts := y.1, types := { p.types with defs := z.1 } }, z.2)) := rfl

theorem makeObjects_hasObjects (p : Program) (h : Heap) :
    p.HasObjects h (p.makeObjects.run h).1 (p.makeObjects.run h).2 := by
  obtain ⟨hadds, hfuns⟩ := makeFunction_makes.all p.funs.toList h
  have hapart := makeFunctions_apart p.funs.toList h
  generalize hf : (p.funs.toList.mapM makeFunction).run h = f at hadds hfuns hapart
  obtain ⟨hadds', hhosts⟩ := makeHost_makes.all p.hosts.toList f.2
  generalize hg : (p.hosts.toList.mapM makeHost).run f.2 = g at hadds' hhosts
  obtain ⟨hadds'', htypes⟩ := makeVariants_makes.all p.types.defs.toList g.2
  generalize hd : (p.types.defs.toList.mapM makeVariants).run g.2 = d at hadds'' htypes
  have hrun : p.makeObjects.run h
      = ({ p with
        funs := f.1.toArray, hosts := g.1.toArray, types := { p.types with defs := d.1.toArray } },
        d.2) := by
    rw [makeObjects_run, mapM_run makeFunction, hf]
    dsimp only
    rw [mapM_run makeHost, hg]
    dsimp only
    rw [mapM_run makeVariants, hd]
  rw [hrun]
  refine ⟨rfl, ?_, ?_, htypes, hadds.trans (hadds'.trans hadds''), hapart⟩
  · refine hfuns.imp fun a b hab => ?_
    exact makeFunction_makes.1 _ _ _ _ (hadds'.trans hadds'') hab
  · simpa using hhosts.length_eq.symm

theorem forall₂_mem {R : α → β → Prop} {as : List α} {bs : List β} (h : List.Forall₂ R as bs) {b : β}
    (hb : b ∈ bs) : ∃ a ∈ as, R a b := by
  obtain ⟨i, hi⟩ := List.mem_iff_getElem?.mp hb
  have hrel := forall₂_getElem? h i
  rw [hi] at hrel
  cases ha : as[i]? with
  | none =>
    rw [ha] at hrel
    cases hrel
  | some a =>
    rw [ha] at hrel
    obtain ⟨hab⟩ := hrel
    exact ⟨a, List.mem_of_getElem? ha, hab⟩

namespace HasObjects

variable {p q : Program} {h h' : Heap} (ho : p.HasObjects h q h')
include ho

theorem function (i : FunId) : Option.Rel (HasObject · · h') p.funs[i]? q.funs[i]? := by
  have hrel := forall₂_getElem? ho.funs i
  rwa [Array.getElem?_toList, Array.getElem?_toList] at hrel

theorem owner {i : FunId} {g : UserFunction} (hg : q.funs[i]? = some g) :
    ∃ f, p.funs[i]? = some f ∧ HasObject f g h' := by
  have hrel := ho.function i
  rw [hg] at hrel
  generalize p.funs[i]? = x at hrel ⊢
  obtain ⟨hobject⟩ := hrel
  exact ⟨_, rfl, hobject⟩

theorem type {e : TypeDef} (he : e ∈ q.types.defs) : ∃ d ∈ p.types.defs, SameType d e := by
  obtain ⟨d, hd, hsame⟩ := forall₂_mem ho.types (by simpa using he)
  exact ⟨d, by simpa using hd, hsame⟩

theorem funCount : q.funs.size = p.funs.size := by simpa using ho.funs.length_eq.symm

theorem bindings : q.bindings = p.bindings := by rw [ho.rest]

theorem sameKeys : p.types.SameKeys q.types := by
  refine ⟨by rw [ho.rest], by rw [ho.rest], by rw [ho.rest], fun i => ?_, fun i => ?_⟩ <;>
  · have hrel := forall₂_getElem? ho.types i
    rw [Array.getElem?_toList, Array.getElem?_toList] at hrel
    generalize p.types.defs[i]? = x at hrel ⊢
    generalize q.types.defs[i]? = y at hrel ⊢
    cases hrel with
    | none => rfl
    | some hsame =>
      rw [hsame.rest]
      rfl

theorem grows : p.Grows q := by
  have hbinding : ∀ b, q.binding b = p.binding b := fun b => by rw [binding, binding, ho.bindings]
  refine ⟨Nat.le_of_eq (by rw [ho.bindings]), fun b _ => by rw [hbinding], fun b _ => by rw [hbinding],
    fun b _ => by rw [hbinding], fun b _ hb => by rwa [hbinding], fun i f hf => ?_,
    fun hk => hk.of_sameKeys ho.sameKeys⟩
  have hrel := ho.function i
  rw [hf] at hrel
  generalize q.funs[i]? = x at hrel ⊢
  obtain ⟨hobject⟩ := hrel
  refine ⟨_, rfl, ?_⟩
  rw [hobject.rest]
  rfl

theorem rooted (hp : p.Rooted) : q.Rooted := by
  refine ⟨fun name b hb => ho.grows.isGlobal (hp.names name b ?_), fun e he b hb => ?_,
    fun e he w hw b hb => ?_⟩
  · rw [ho.rest] at hb
    exact hb
  · obtain ⟨d, hd, hsame⟩ := ho.type he
    rw [hsame.rest] at hb
    exact ho.grows.isGlobal (hp.types d hd b hb)
  · obtain ⟨d, hd, hsame⟩ := ho.type he
    obtain ⟨v, hv, hvw⟩ := forall₂_mem hsame.variants hw
    rw [hvw.rest] at hb
    exact ho.grows.isGlobal (hp.variants d hd v hv b hb)

theorem tidy (hp : p.Tidy) : q.Tidy := by
  have hnext : q.nextType = p.nextType := by rw [ho.rest]
  have hextensions : q.extensions = p.extensions := by rw [ho.rest]
  refine ⟨ho.rooted hp.toRooted, hp.indexed.of_sameKeys ho.sameKeys (Nat.le_of_eq hnext.symm),
    fun e he f hf => ?_, fun e he x hx => ?_, fun x hx => ?_⟩
  · obtain ⟨d, hd, hsame⟩ := ho.type he
    rw [hsame.rest] at hf
    rw [ho.funCount]
    exact hp.methods d hd f hf
  · obtain ⟨d, hd, hsame⟩ := ho.type he
    rw [hsame.rest] at hx
    rw [ho.hosts]
    exact hp.hostMethods d hd x hx
  · rw [ho.hosts]
    exact hp.extensionIds x (hextensions ▸ hx)

theorem hasRecord {t : Template} (ht : p.HasRecord t) : q.HasRecord t := by
  obtain ⟨d, hd, hkind, hname, hfields⟩ := ht
  have hback : List.Forall₂ (flip SameType) q.types.defs.toList p.types.defs.toList := ho.types.flip
  obtain ⟨e, he, hsame⟩ := forall₂_mem hback (by simpa using hd)
  have hrest : e = { d with variants := e.variants } := hsame.rest
  exact ⟨e, by simpa using he, by rw [hrest]; exact hkind, by rw [hrest]; exact hname,
    by rw [hrest]; exact hfields⟩

end HasObjects

end Program

end Scripting
