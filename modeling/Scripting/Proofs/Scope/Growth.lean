import Scripting.Program.Modules
import Scripting.Proofs.Types.Maps

/-!
# How programs grow

`Program.Grows p q` says that what code of `p` relies on still holds in `q`: bindings keep their
places, captured ones stay captured, and functions keep their numbers of arguments.
`Program.Rooted` says that what can be named at top level is stored in global slots.
-/

namespace Scripting

namespace Program

/-- Whether a binding is there and stored in a global slot. -/
def IsGlobal (p : Program) (b : BindingId) : Prop :=
  b < p.bindings.size ∧ (p.binding b).storage = .global

structure Grows (p q : Program) : Prop where
  size : p.bindings.size ≤ q.bindings.size
  storage : ∀ b < p.bindings.size, (q.binding b).storage = (p.binding b).storage
  index : ∀ b < p.bindings.size, (q.binding b).index = (p.binding b).index
  depth : ∀ b < p.bindings.size, (q.binding b).depth = (p.binding b).depth
  captured : ∀ b < p.bindings.size, (p.binding b).captured = true → (q.binding b).captured = true
  funs : ∀ (i : FunId) (f : UserFunction), p.funs[i]? = some f →
    ∃ g, q.funs[i]? = some g ∧ g.arity = f.arity
  keyed : p.types.Keyed → q.types.Keyed

theorem Grows.refl (p : Program) : p.Grows p :=
  ⟨Nat.le_refl _, fun _ _ => rfl, fun _ _ => rfl, fun _ _ => rfl, fun _ _ h => h,
    fun _ f h => ⟨f, h, rfl⟩, id⟩

theorem Grows.trans {p q r : Program} (h : p.Grows q) (k : q.Grows r) : p.Grows r where
  size := Nat.le_trans h.size k.size
  storage b hb := by rw [k.storage b (Nat.lt_of_lt_of_le hb h.size), h.storage b hb]
  index b hb := by rw [k.index b (Nat.lt_of_lt_of_le hb h.size), h.index b hb]
  depth b hb := by rw [k.depth b (Nat.lt_of_lt_of_le hb h.size), h.depth b hb]
  captured b hb hc := k.captured b (Nat.lt_of_lt_of_le hb h.size) (h.captured b hb hc)
  funs i f hf := by
    obtain ⟨g, hg, ha⟩ := h.funs i f hf
    obtain ⟨g', hg', ha'⟩ := k.funs i g hg
    exact ⟨g', hg', ha'.trans ha⟩
  keyed := k.keyed ∘ h.keyed

theorem Grows.funCount {p q : Program} (h : p.Grows q) : p.funs.size ≤ q.funs.size := by
  apply Nat.le_of_not_lt
  intro hlt
  obtain ⟨g, hg, -⟩ := h.funs q.funs.size p.funs[q.funs.size] (Array.getElem?_eq_getElem hlt)
  simp at hg

theorem Grows.isGlobal {p q : Program} (h : p.Grows q) {b : BindingId} (hb : p.IsGlobal b) :
    q.IsGlobal b :=
  ⟨Nat.lt_of_lt_of_le hb.1 h.size, (h.storage b hb.1).trans hb.2⟩

theorem Grows.of_eq {p q : Program} (hb : q.bindings = p.bindings) (hf : q.funs = p.funs)
    (hk : p.types.Keyed → q.types.Keyed) : p.Grows q := by
  have hbinding : ∀ b, q.binding b = p.binding b := fun b => by rw [binding, binding, hb]
  refine ⟨Nat.le_of_eq (by rw [hb]), fun b _ => by rw [hbinding], fun b _ => by rw [hbinding],
    fun b _ => by rw [hbinding], fun b _ h => by rwa [hbinding], fun i f h => ⟨f, by rwa [hf], rfl⟩, hk⟩

theorem record_grows (p : Program) (u : Undo) : p.Grows (p.record u) := .of_eq rfl rfl id

theorem binding_push_lt {p : Program} {x : Binding} {b : BindingId} (h : b < p.bindings.size) :
    ({ p with bindings := p.bindings.push x } : Program).binding b = p.binding b := by
  rw [binding, binding, Array.getD_eq_getD_getElem?, Array.getD_eq_getD_getElem?,
    Array.getElem?_push_lt h, Array.getElem?_eq_getElem h]

theorem binding_push_size (p : Program) (x : Binding) :
    ({ p with bindings := p.bindings.push x } : Program).binding p.bindings.size = x := by
  rw [binding, Array.getD_eq_getD_getElem?, Array.getElem?_push_size]
  rfl

theorem binding_modify {p : Program} {b : BindingId} (h : b < p.bindings.size) (c : BindingId)
    (f : Binding → Binding) :
    (p.modifyBinding c f).binding b = if c = b then f (p.binding b) else p.binding b := by
  simp only [binding, modifyBinding, Array.getD_eq_getD_getElem?, Array.getElem?_modify]
  split
  · rw [Array.getElem?_eq_getElem h]
    rfl
  · rfl

theorem addBinding_grows (p : Program) (x : Binding) : p.Grows (p.addBinding x).2 where
  size := by simp [addBinding]
  storage b hb := by rw [addBinding, binding_push_lt hb]
  index b hb := by rw [addBinding, binding_push_lt hb]
  depth b hb := by rw [addBinding, binding_push_lt hb]
  captured b hb h := by rwa [addBinding, binding_push_lt hb]
  funs i f h := ⟨f, h, rfl⟩
  keyed := id

theorem modifyBinding_grows (p : Program) (c : BindingId) (f : Binding → Binding)
    (hf : ∀ x, (f x).storage = x.storage ∧ (f x).index = x.index ∧ (f x).depth = x.depth ∧
      (x.captured = true → (f x).captured = true)) : p.Grows (p.modifyBinding c f) where
  size := by simp [modifyBinding]
  storage b hb := by
    rw [binding_modify hb]
    split
    · exact (hf _).1
    · rfl
  index b hb := by
    rw [binding_modify hb]
    split
    · exact (hf _).2.1
    · rfl
  depth b hb := by
    rw [binding_modify hb]
    split
    · exact (hf _).2.2.1
    · rfl
  captured b hb h := by
    rw [binding_modify hb]
    split
    · exact (hf _).2.2.2 h
    · exact h
  funs i g h := ⟨g, h, rfl⟩
  keyed := id

theorem newSlot_grows (p : Program) (name : String) (tok : Token) :
    p.Grows (p.newSlot name tok).2 :=
  (addBinding_grows p _).trans (.of_eq rfl rfl id)

theorem newSlot_isGlobal (p : Program) (name : String) (tok : Token) :
    (p.newSlot name tok).2.IsGlobal (p.newSlot name tok).1 := by
  constructor
  · simp [newSlot, addBinding]
  · rw [newSlot]
    exact congrArg Binding.storage (binding_push_size p _)

theorem declareGlobal_grows (p : Program) (name : String) (tok : Token) :
    p.Grows (p.declareGlobal name tok).2 :=
  (newSlot_grows p name tok).trans (.of_eq rfl rfl id)

theorem declareGlobal_isGlobal (p : Program) (name : String) (tok : Token) :
    (p.declareGlobal name tok).2.IsGlobal (p.declareGlobal name tok).1 :=
  newSlot_isGlobal p name tok

theorem addFun_grows (p : Program) (f : UserFunction) : p.Grows (p.addFun f).2 where
  size := Nat.le_refl _
  storage _ _ := rfl
  index _ _ := rfl
  depth _ _ := rfl
  captured _ _ h := h
  funs i g h := by
    refine ⟨g, ?_, rfl⟩
    have hi : i < p.funs.size := (Array.getElem?_eq_some_iff.mp h).1
    rw [addFun, Array.getElem?_push_lt hi, ← h, Array.getElem?_eq_getElem hi]
  keyed := id

theorem modifyFun_grows (p : Program) (id : FunId) (f : UserFunction → UserFunction)
    (hf : ∀ x, (f x).arity = x.arity) : p.Grows (p.modifyFun id f) where
  size := Nat.le_refl _
  storage _ _ := rfl
  index _ _ := rfl
  depth _ _ := rfl
  captured _ _ h := h
  funs i g h := by
    refine ⟨if id = i then f g else g, ?_, ?_⟩
    · rw [modifyFun, Array.getElem?_modify, h]
      split <;> rfl
    · split
      · exact hf g
      · rfl
  keyed h := h

/-- What can be named at top level is global. -/
structure Rooted (p : Program) : Prop where
  names : ∀ name b, p.scope.get? name = some b → p.IsGlobal b
  types : ∀ d ∈ p.types.defs, ∀ b, d.binding = some b → p.IsGlobal b
  variants : ∀ d ∈ p.types.defs, ∀ v ∈ d.variants, ∀ b, v.binding = some b → p.IsGlobal b

theorem Rooted.record {p : Program} (h : p.Rooted) (u : Undo) : (p.record u).Rooted :=
  ⟨h.names, h.types, h.variants⟩

theorem Rooted.grow {p q : Program} (h : p.Rooted) (hg : p.Grows q) (hs : q.scope = p.scope)
    (ht : q.types = p.types) : q.Rooted where
  names name b hb := hg.isGlobal (h.names name b (by rwa [← hs]))
  types d hd b hb := hg.isGlobal (h.types d (by rwa [← ht]) b hb)
  variants d hd v hv b hb := hg.isGlobal (h.variants d (by rwa [← ht]) v hv b hb)

theorem get?_define (s : Scope) (name other : String) (b : BindingId) :
    (s.define name b).get? other = if name = other then some b else s.get? other := by
  simp [Scope.get?, Scope.define, Std.TreeMap.getElem?_insert]

theorem declareGlobal_rooted {p : Program} (h : p.Rooted) (name : String) (tok : Token) :
    (p.declareGlobal name tok).2.Rooted where
  names other b hb := by
    have hget : (p.scope.define name p.bindings.size).get? other = some b := hb
    rw [get?_define] at hget
    split at hget
    · obtain rfl := Option.some.inj hget
      exact declareGlobal_isGlobal p name tok
    · exact (declareGlobal_grows p name tok).isGlobal (h.names other b hget)
  types d hd b hb := (declareGlobal_grows p name tok).isGlobal (h.types d hd b hb)
  variants d hd v hv b hb := (declareGlobal_grows p name tok).isGlobal (h.variants d hd v hv b hb)

theorem modifyType_grows (p : Program) (id : TypeId) {f : TypeDef → TypeDef}
    (hf : ∀ d, (f d).id = d.id ∧ (f d).name = d.name) : p.Grows (p.modifyType id f) :=
  .of_eq rfl rfl fun h => h.of_sameKeys (p.modifyType_sameKeys id hf)

theorem modifyType_rooted {p : Program} (h : p.Rooted) (id : TypeId) (f : TypeDef → TypeDef)
    (ht : ∀ d ∈ p.types.defs, ∀ b, (f d).binding = some b → p.IsGlobal b)
    (hv : ∀ d ∈ p.types.defs, ∀ v ∈ (f d).variants, ∀ b, v.binding = some b → p.IsGlobal b) :
    (p.modifyType id f).Rooted where
  names := h.names
  types d hd b hb := by
    obtain ⟨e, he, rfl⟩ := Array.mem_map.mp hd
    split at hb
    · exact ht e he b hb
    · exact h.types e he b hb
  variants d hd v hv' b hb := by
    obtain ⟨e, he, rfl⟩ := Array.mem_map.mp hd
    split at hv'
    · exact hv e he v hv' b hb
    · exact h.variants e he v hv' b hb

end Program

end Scripting
