import Scripting.Proofs.Script.Compiled
import Scripting.Proofs.Script.Objects
import Scripting.Proofs.Slots.Queued

/-!
# Objects of what bindings name

What a binding names has one object. Analysis makes no objects and changes none, and those that
`Program.makeObjects` makes are new: `Follows.object` and `HasObjects.object`. So the objects of different
bindings are told apart by their identities (`Individual.sharp`), which is what the pool of a script
goes by.
-/

namespace Scripting

namespace Program

variable {o p q : Program} {h h' : Heap} {c : Callable}

theorem lt_of_callable {b : BindingId} (hb : (p.binding b).callable = some c) :
    b < p.bindings.size := by
  refine Nat.lt_of_not_le fun hge => ?_
  rw [binding, Array.getD_eq_getD_getElem?, Array.getElem?_eq_none hge] at hb
  cases hb

theorem Tidy.typeById? (hp : p.Tidy) {d : TypeDef} (hd : d ∈ p.types.defs) :
    p.typeById? d.id = some d :=
  hp.indexed.table.byId?_iff.mpr ⟨hd, rfl⟩

theorem undo_variants (p : Program) (u : Undo) :
    ∀ d ∈ (p.undo u).types.defs, ∃ e ∈ p.types.defs, e.id = d.id ∧ e.variants = d.variants := by
  have hmodify : ∀ (id : TypeId) (f : TypeDef → TypeDef), (∀ d, (f d).id = d.id ∧
      (f d).variants = d.variants) → ∀ d ∈ (p.modifyType id f).types.defs,
        ∃ e ∈ p.types.defs, e.id = d.id ∧ e.variants = d.variants := by
    intro id f hf d hd
    obtain ⟨e, he, rfl⟩ := Array.mem_map.mp hd
    refine ⟨e, he, ?_⟩
    split
    · exact ⟨(hf e).1.symm, (hf e).2.symm⟩
    · exact ⟨rfl, rfl⟩
  cases u with
  | type place => exact fun d hd => ⟨d, TypeTable.mem_of_mem_remove hd, rfl, rfl⟩
  | method type f => exact hmodify type (·.removeMethod f) fun _ => ⟨rfl, rfl⟩
  | typeBinding type => exact hmodify type (·.heldBy none) fun _ => ⟨rfl, rfl⟩
  | hostMethod type key f => exact hmodify type (·.removeHostMethod key f) fun _ => ⟨rfl, rfl⟩
  | _ => exact fun d hd => ⟨d, hd, rfl, rfl⟩

theorem undoAll_variants : (us : List Undo) → (p : Program) →
    ∀ d ∈ (us.foldl undo p).types.defs, ∃ e ∈ p.types.defs, e.id = d.id ∧ e.variants = d.variants
  | [], _ => fun d hd => ⟨d, hd, rfl, rfl⟩
  | u :: us, p => fun d hd => by
    obtain ⟨e, he, hid, hvariants⟩ := undoAll_variants us (p.undo u) d hd
    obtain ⟨f, hf, hid', hvariants'⟩ := undo_variants p u e he
    exact ⟨f, hf, hid'.trans hid, hvariants'.trans hvariants⟩

theorem Follows.variants (ho : o.Tidy) (hp : Follows o.begin p) :
    ∀ d ∈ o.types.defs, ∃ e ∈ p.types.defs, e.id = d.id ∧ e.variants = d.variants := by
  intro d hd
  rw [← (hp.rollback ho).types, Program.rollback] at hd
  split at hd
  · exact ⟨d, hd, rfl, rfl⟩
  · exact undoAll_variants _ p d hd

theorem Follows.object (ho : o.Tidy) (hp : Follows o.begin p) (hc : c.Made o) :
    p.object c = o.object c := by
  cases c with
  | user i =>
    have hrefs := hp.longer.refs i
    rw [Program.object, Program.object, hrefs]
    rfl
  | native name => rfl
  | host i => exact hc.elim
  | ctor t i =>
    obtain ⟨-, d, hd, rfl, -⟩ := hc
    obtain ⟨e, he, hid, hvariants⟩ := hp.variants ho d hd
    rw [Program.object, Program.object, variant?, variant?, ho.typeById? hd, ← hid,
      hp.tidy.typeById? he]
    simp only [Option.bind_eq_bind, Option.bind_some, hvariants]
    cases d.variants[i]? <;> rfl

theorem Compiles.contained (h : p.Compiles q) : p.Contained q := by
  refine .of_eq (by rw [h.rest]) ?_ (by rw [h.rest])
  exact Array.getElem?_eq_none_iff.mp (h.none (Array.getElem?_eq_none (Nat.le_refl q.funs.size)))

namespace HasObjects

theorem typeById? (ho : p.HasObjects h q h') (t : TypeId) :
    Option.Rel SameType (p.typeById? t) (q.typeById? t) := by
  rw [Program.typeById?, Program.typeById?, TypeTable.byId?, TypeTable.byId?, ← ho.sameKeys.ids]
  cases p.types.ids[t]? with
  | none => exact .none
  | some i =>
    have hrel := forall₂_getElem? ho.types i
    rwa [Array.getElem?_toList, Array.getElem?_toList] at hrel

theorem inherits (ho : p.HasObjects h q h') : p.Inherits q := by
  intro e he b hb
  obtain ⟨d, hd, hsame⟩ := ho.type he
  rw [hsame.rest] at hb
  exact ⟨d, hd, hb⟩

theorem contained (ho : p.HasObjects h q h') : p.Contained q := by
  refine ⟨Nat.le_of_eq ho.funCount.symm, Nat.le_of_eq (by rw [ho.rest]), fun d hd => ?_,
    ho.grows.keyed⟩
  have hback : List.Forall₂ (flip SameType) q.types.defs.toList p.types.defs.toList := ho.types.flip
  obtain ⟨e, he, hsame⟩ := forall₂_mem hback (Array.mem_toList_iff.mpr hd)
  have hrest : e = { d with variants := e.variants } := hsame.rest
  exact ⟨e, Array.mem_toList_iff.mp he, by rw [hrest], Nat.le_of_eq hsame.variants.length_eq⟩

theorem object (ho : p.HasObjects h q h') (hp : p.Tidy) (hc : c.Made p)
    (hpresent : ∀ v ∈ p.objects, v ≠ .absent) : q.object c ≠ .absent ∧
      (p.object c ≠ .absent → q.object c = p.object c) := by
  cases c with
  | user i =>
    obtain ⟨f, hf⟩ : ∃ f, p.funs[i]? = some f := ⟨_, Array.getElem?_eq_getElem hc⟩
    have hrel := ho.function i
    rw [hf] at hrel
    rw [Program.object, Program.object, hf]
    generalize q.funs[i]? = x at hrel
    obtain ⟨hobject⟩ := hrel
    obtain ⟨r, hr⟩ := Option.isSome_iff_exists.mp hobject.given
    refine ⟨by simp [hr], fun hne => ?_⟩
    cases hfr : f.ref with
    | none => simp [hfr] at hne
    | some r' => simp [hfr, hobject.kept r' hfr]
  | native name =>
    obtain ⟨v, hv⟩ := Option.isSome_iff_exists.mp hc
    refine ⟨?_, fun _ => rfl⟩
    rw [Program.object, hv]
    obtain ⟨i, -, hi⟩ := Option.bind_eq_some_iff.mp hv
    obtain ⟨f, -, hf⟩ := Option.bind_eq_some_iff.mp hi
    obtain rfl := Option.some.inj hf
    exact fun hnone => by cases hnone
  | host i => exact hc.elim
  | ctor t i =>
    obtain ⟨-, d, hd, rfl, hi⟩ := hc
    have hrel := ho.typeById? d.id
    rw [hp.typeById? hd] at hrel
    rw [Program.object, Program.object, variant?, variant?, hp.typeById? hd]
    generalize q.typeById? d.id = x at hrel
    obtain ⟨hsame⟩ := hrel
    rename_i e
    have hvariant := forall₂_getElem? hsame.variants i
    rw [List.getElem?_eq_getElem hi] at hvariant
    simp only [Option.bind_eq_bind, Option.bind_some, List.getElem?_eq_getElem hi]
    generalize e.variants[i]? = y at hvariant
    obtain ⟨hv⟩ := hvariant
    rename_i w
    dsimp only [Option.bind_some, Option.pure_def]
    cases hobject : d.variants[i].object with
    | none =>
      obtain ⟨x, hx, hform⟩ := hv.made hobject
      refine ⟨?_, fun hne => absurd rfl hne⟩
      rw [hx]
      rcases hform with ⟨r, rfl⟩ | ⟨i, c, rfl⟩ <;> exact fun hnone => by cases hnone
    | some x =>
      have hmem : x ∈ p.objects := List.mem_flatMap.mpr ⟨d, Array.mem_toList_iff.mpr hd,
        List.mem_filterMap.mpr ⟨_, List.getElem_mem hi, hobject⟩⟩
      rw [hv.kept x hobject]
      exact ⟨hpresent x hmem, fun _ => rfl⟩

end HasObjects

end Program

/-- Whether objects are instances and constructors that are told apart by their numbers, which a heap has
given out. -/
structure Individual (vs : List Value) (h : Heap) : Prop where
  form : ∀ v ∈ vs, (∃ r, v = .inst r) ∨ ∃ i c, v = .ctor i c ∧ i < h.nextId
  apart : ∀ i c c', .ctor i c ∈ vs → .ctor i c' ∈ vs → c = c'

namespace Individual

variable {vs ws : List Value} {h h' : Heap}

theorem mono (hv : Individual vs h) (hid : h.nextId ≤ h'.nextId) : Individual vs h' :=
  ⟨fun v hmem => (hv.form v hmem).imp_right fun ⟨i, c, heq, hi⟩ => ⟨i, c, heq, Nat.lt_of_lt_of_le hi hid⟩,
    hv.apart⟩

theorem subset (hv : Individual vs h) (hsub : ws ⊆ vs) : Individual ws h :=
  ⟨fun v hmem => hv.form v (hsub hmem), fun i c c' hc hc' => hv.apart i c c' (hsub hc) (hsub hc')⟩

theorem present (hv : Individual vs h) : ∀ v ∈ vs, v ≠ .absent := by
  intro v hmem
  rcases hv.form v hmem with ⟨r, rfl⟩ | ⟨i, c, rfl, -⟩ <;> exact fun hnone => by cases hnone

theorem inst (hv : Individual vs h) (r : Ref) : Individual (.inst r :: vs) h := by
  refine ⟨List.forall_mem_cons.mpr ⟨.inl ⟨r, rfl⟩, hv.form⟩, fun i c c' hc hc' => ?_⟩
  rcases List.mem_cons.mp hc with hc | hc
  · cases hc
  · rcases List.mem_cons.mp hc' with hc' | hc'
    · cases hc'
    · exact hv.apart i c c' hc hc'

theorem ctor (hv : Individual vs h) (c : Ctor) :
    Individual (.ctor h.nextId c :: vs) (h.newId).2 := by
  have hnew : ∀ {i c}, .ctor i c ∈ vs → i < h.nextId := fun hmem => by
    rcases hv.form _ hmem with ⟨r, heq⟩ | ⟨i, c, heq, hi⟩
    · cases heq
    · obtain ⟨rfl, rfl⟩ := Value.ctor.inj heq
      exact hi
  refine ⟨List.forall_mem_cons.mpr ⟨.inr ⟨_, c, rfl, Nat.lt_succ_self _⟩,
    (hv.mono (Nat.le_succ _)).form⟩, fun i d d' hd hd' => ?_⟩
  rcases List.mem_cons.mp hd with heq | hold
  · obtain ⟨rfl, rfl⟩ := Value.ctor.inj heq
    rcases List.mem_cons.mp hd' with heq' | hold'
    · exact (Value.ctor.inj heq').2.symm
    · exact absurd (hnew hold') (Nat.lt_irrefl _)
  · rcases List.mem_cons.mp hd' with heq' | hold'
    · obtain ⟨rfl, rfl⟩ := Value.ctor.inj heq'
      exact absurd (hnew hold) (Nat.lt_irrefl _)
    · exact hv.apart i d d' hold hold'

end Individual

/-- Whether something that holds of the objects of a heap still holds when the objects of declarations
are made. -/
structure Lasting (I : List Value → Heap → Prop) : Prop where
  subset : ∀ {vs ws h}, I vs h → ws ⊆ vs → I ws h
  newFunc : ∀ {vs h} (f : Function), I vs h → I vs (h.newFunc f).2
  newCtor : ∀ {vs h} (c : Ctor), I vs h → I (.ctor h.nextId c :: vs) (h.newId).2
  newInst : ∀ {vs h} (typeName tag : String), I vs h →
    I ((h.newInst ⟨typeName, tag, [], #[]⟩).1 :: vs) (h.newInst ⟨typeName, tag, [], #[]⟩).2

theorem Individual.lasting : Lasting Individual where
  subset hv hsub := hv.subset hsub
  newFunc _ hv := hv.mono (Nat.le_refl _)
  newCtor c hv := hv.ctor c
  newInst _ _ hv := (hv.inst _).mono (Nat.le_refl _)

/-- Whether an object is an instance without fields, or leads to nothing by itself. -/
def Heap.Bare (h : Heap) (v : Value) : Prop :=
  v.isPlain = true ∨ ∃ r i, v = .inst r ∧ h.inst? r = some i ∧ i.fields.size = 0

theorem Heap.Bare.lasting : Lasting fun vs h => ∀ v ∈ vs, h.Bare v where
  subset hv hsub v hmem := hv v (hsub hmem)
  newFunc _ hv := hv
  newCtor _ hv := List.forall_mem_cons.mpr ⟨.inl rfl, hv⟩
  newInst typeName tag hv := by
    refine List.forall_mem_cons.mpr ⟨.inr ⟨_, _, rfl, Array.getElem?_push_size, rfl⟩, fun v hmem => ?_⟩
    rcases hv v hmem with hplain | ⟨r, i, rfl, hr, hsize⟩
    · exact .inl hplain
    · refine .inr ⟨r, i, rfl, ?_, hsize⟩
      have hlt := (Array.getElem?_eq_some_iff.mp hr).1
      rw [Heap.inst?, Heap.newInst, Array.getElem?_push_lt hlt, ← Array.getElem?_eq_getElem hlt]
      exact hr

namespace Program

variable {p q : Program} {h h' : Heap} {c : Callable}

variable {I : List Value → Heap → Prop}

/-- Whether what holds of objects lasts over a step, for those that it gives and all others. -/
def LastsOver {α β : Type} (I : List Value → Heap → Prop) (objs : α → List Value) (objs' : β → List Value)
    (f : α → StateM Heap β) : Prop :=
  ∀ vs a h, I (objs a ++ vs) h → I (objs' ((f a).run h).1 ++ vs) ((f a).run h).2

theorem LastsOver.all {α β : Type} {objs : α → List Value} {objs' : β → List Value}
    {f : α → StateM Heap β} (hI : Lasting I) (hf : LastsOver I objs objs' f) :
    LastsOver I (List.flatMap objs) (List.flatMap objs') fun as : List α => as.mapM f := by
  intro vs as
  induction as generalizing vs with
  | nil => exact fun _ h => h
  | cons a as ih =>
    intro h hv
    dsimp only
    rw [List.mapM_cons]
    have hfirst := hf (as.flatMap objs ++ vs) a h (by
      rwa [List.flatMap_cons, List.append_assoc] at hv)
    have hrest := ih (objs' ((f a).run h).1 ++ vs) ((f a).run h).2 (hI.subset hfirst (by
      intro v hmem
      simp only [List.mem_append] at hmem ⊢
      tauto))
    refine hI.subset hrest ?_
    intro v hmem
    rw [show ((do
      let b ← f a
      let bs ← as.mapM f
      pure (b :: bs) : StateM Heap (List β)).run h).1
        = ((f a).run h).1 :: ((as.mapM f).run ((f a).run h).2).1 from rfl, List.flatMap_cons] at hmem
    simp only [List.mem_append] at hmem ⊢
    tauto

theorem makeFunction_lasts (hI : Lasting I) : LastsOver I (fun _ => []) (fun _ => []) makeFunction := by
  intro vs f h hv
  rw [makeFunction]
  split
  · exact hv
  · exact hI.newFunc _ hv

theorem makeHost_lasts (hI : Lasting I) : LastsOver I (fun _ => []) (fun _ => []) makeHost := by
  intro vs f h hv
  rw [makeHost]
  split
  · exact hv
  · exact hI.subset (hI.newCtor default hv) (List.subset_cons_self _ _)

theorem makeVariant_lasts (hI : Lasting I) (name : String) :
    LastsOver I (fun v => v.object.toList) (fun v => v.object.toList) (makeVariant name) := by
  intro vs v h hv
  rw [makeVariant]
  split
  · exact hv
  · rename_i hnone
    dsimp only at hv
    rw [hnone] at hv
    by_cases hnull : v.isNullary = true
    · rw [if_pos hnull]
      exact hI.newInst name v.tag hv
    · rw [if_neg hnull]
      exact hI.newCtor _ hv

theorem objects_flatMap (d : TypeDef) : d.objects = d.variants.flatMap fun v => v.object.toList := by
  rw [TypeDef.objects, List.filterMap_eq_flatMap_toList]

theorem makeVariants_lasts (hI : Lasting I) : LastsOver I TypeDef.objects TypeDef.objects makeVariants := by
  intro vs d h hv
  rw [objects_flatMap] at hv ⊢
  exact LastsOver.all hI (makeVariant_lasts hI d.name) vs d.variants h hv

theorem makeObjects_lasts (hI : Lasting I) (hp : I p.objects h) :
    I (p.makeObjects.run h).1.objects (p.makeObjects.run h).2 := by
  have hnone : ∀ {α : Type} (as : List α), as.flatMap (fun _ => ([] : List Value)) = [] := fun as => by
    simp
  have hfuns := LastsOver.all hI (makeFunction_lasts hI) p.objects p.funs.toList h (by rwa [hnone])
  rw [hnone] at hfuns
  generalize hf : (p.funs.toList.mapM makeFunction).run h = f at hfuns
  have hhosts := LastsOver.all hI (makeHost_lasts hI) p.objects p.hosts.toList f.2 (by rwa [hnone])
  rw [hnone] at hhosts
  generalize hg : (p.hosts.toList.mapM makeHost).run f.2 = g at hhosts
  have htypes := LastsOver.all hI (makeVariants_lasts hI) [] p.types.defs.toList g.2 (by rwa [List.append_nil])
  rw [List.append_nil] at htypes
  rw [makeObjects_run, mapM_run makeFunction, hf]
  dsimp only
  rw [mapM_run makeHost, hg]
  dsimp only
  rw [mapM_run makeVariants]
  exact htypes

theorem makeObjects_individual (hp : Individual p.objects h) :
    Individual (p.makeObjects.run h).1.objects (p.makeObjects.run h).2 :=
  makeObjects_lasts Individual.lasting hp

theorem initial_individual : Individual initial.objects Heap.initial := by
  have hsub := initial_retains.objects.subset
  have hnone : Individual [Value.none_] Heap.initial :=
    ⟨fun v hv => .inl ⟨_, List.mem_singleton.mp hv⟩, fun i c c' hc => by
      cases List.mem_singleton.mp hc⟩
  exact hnone.subset hsub

theorem object_native {name : String} {v : Value} (h : Native.object? name = some v) :
    ∃ i f, Native.all[i]? = some f ∧ v = .builtin i ⟨f.name, some f.prim⟩ := by
  obtain ⟨i, -, hi⟩ := Option.bind_eq_some_iff.mp h
  obtain ⟨f, hf, hv⟩ := Option.bind_eq_some_iff.mp hi
  exact ⟨i, f, hf, (Option.some.inj hv).symm⟩

/-- What something that can be called is as a value, where the objects of variants are among some
values. -/
inductive Denotes (vs : List Value) : Value → Prop
  | func (r : Ref) : Denotes vs (.func r)
  | builtin {i : Nat} {f : Native} (known : Native.all[i]? = some f) :
    Denotes vs (.builtin i ⟨f.name, some f.prim⟩)
  | inst (r : Ref) : Denotes vs (.inst r)
  | ctor {i : Nat} {c : Ctor} (mem : .ctor i c ∈ vs) : Denotes vs (.ctor i c)

theorem Denotes.apart {vs : List Value} (hvs : Individual vs h) {v w : Value} (hv : Denotes vs v)
    (hw : Denotes vs w) (hkey : v.constKey = w.constKey) : v = w := by
  cases hv with
  | func r =>
    cases hw <;> simp only [Value.constKey, ConstKey.object.injEq] at hkey
    · rw [hkey.2]
    all_goals exact absurd hkey.1 (by decide)
  | @builtin i f hf =>
    cases hw <;> simp only [Value.constKey, ConstKey.object.injEq] at hkey
    case builtin j g hg =>
      obtain rfl := hkey.2
      rw [Option.some.inj (hf.symm.trans hg)]
    all_goals exact absurd hkey.1 (by decide)
  | inst r =>
    cases hw <;> simp only [Value.constKey, ConstKey.object.injEq] at hkey
    case inst => rw [hkey.2]
    all_goals exact absurd hkey.1 (by decide)
  | @ctor i c hmem =>
    cases hw <;> simp only [Value.constKey, ConstKey.object.injEq] at hkey
    case ctor j d hmem' =>
      obtain rfl := hkey.2
      rw [hvs.apart i c d hmem hmem']
    all_goals exact absurd hkey.1 (by decide)

theorem Denotes.untyped {vs : List Value} {v : Value} (hv : Denotes vs v) (i : Nat) (t : Ty) :
    v.constKey ≠ (Value.type i t).constKey := by
  intro hkey
  cases hv <;> simp only [Value.constKey, ConstKey.object.injEq] at hkey <;>
    exact absurd hkey.1 (by decide)

theorem object_ctor (t : TypeId) (i : Nat) :
    p.object (.ctor t i) = .absent ∨ p.object (.ctor t i) ∈ p.objects := by
  rw [object]
  cases hx : (p.variant? t i).bind fun x => x.2.object with
  | none => exact .inl rfl
  | some v =>
    obtain ⟨⟨d, w⟩, hvariant, hv⟩ := Option.bind_eq_some_iff.mp hx
    obtain ⟨e, he, hw⟩ := Option.bind_eq_some_iff.mp hvariant
    obtain ⟨w', hw', hpair⟩ := Option.bind_eq_some_iff.mp hw
    obtain ⟨rfl, rfl⟩ := Prod.mk.inj (Option.some.inj hpair)
    exact .inr (List.mem_flatMap.mpr ⟨e, Array.mem_toList_iff.mpr (TypeTable.mem_of_byId? he),
      List.mem_filterMap.mpr ⟨w', List.mem_of_getElem? hw', hv⟩⟩)

theorem object_denotes (hp : Individual p.objects h) (hc : c.Made p) (hne : p.object c ≠ .absent) :
    Denotes p.objects (p.object c) := by
  cases c with
  | user i =>
    rw [object] at hne ⊢
    cases hr : p.funs[i]?.bind (·.ref) with
    | none =>
      rw [hr] at hne
      exact absurd rfl hne
    | some r => exact .func r
  | native name =>
    obtain ⟨v, hv⟩ := Option.isSome_iff_exists.mp hc
    obtain ⟨i, f, hf, rfl⟩ := object_native hv
    rw [object, hv, Option.getD_some]
    exact .builtin hf
  | host i => exact hc.elim
  | ctor t i =>
    have hmem := (object_ctor t i).resolve_left hne
    rcases hp.form _ hmem with ⟨r, hr⟩ | ⟨i, c, hc, -⟩
    · exact hr ▸ .inst r
    · exact hc ▸ .ctor (hc ▸ hmem)

def Equipped (p : Program) : Prop := p.Names fun c => p.object c ≠ .absent

theorem Equipped.sharp (he : p.Equipped) (hf : p.Founded) (hp : Individual p.objects h) : p.Sharp := by
  have hdenotes {b : BindingId} {c : Callable} (hb : (p.binding b).callable = some c) :=
    object_denotes hp (hf b (lt_of_callable hb) c hb) (he b (lt_of_callable hb) c hb)
  exact ⟨fun b b' c c' hc hc' => (hdenotes hc).apart hp (hdenotes hc'),
    fun b c hc => (hdenotes hc).untyped⟩

end Program

end Scripting
