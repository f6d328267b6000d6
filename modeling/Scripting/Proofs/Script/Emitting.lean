import Mathlib.Data.List.Basic
import Scripting.Proofs.Bundle.Graph
import Scripting.Proofs.Scope.Loading
import Scripting.Proofs.Script.Lowers
import Scripting.Proofs.Typed.Formed

/-!
# What a step of code generation gives

Pools and constructors only grow while code is generated, and the program keeps all but the counts of
its functions. So what was generated against an early state stands against the finished one.
`Gives p D m Q` says that of `m`: it ends in a state behind the one it started in, and `Q` holds of
its result against whatever covers that state. The functions it compiles satisfy `D`.
-/

namespace Scripting

/-- A function without what code generation settles. -/
def UserFunction.bare (f : UserFunction) : UserFunction :=
  { f with localCount := 0, freeCount := 0, signature := .unknown }

theorem Program.object_congr {p q : Program}
    (hrefs : ∀ i : FunId, (q.funs[i]?).bind (·.ref) = (p.funs[i]?).bind (·.ref))
    (hhosts : q.hosts = p.hosts) (htypes : q.types = p.types) (c : Callable) :
    q.object c = p.object c := by
  cases c with
  | user i => rw [object, object, hrefs]
  | native name => rfl
  | host i => rw [object, object, hhosts]
  | ctor t i => rw [object, object, variant?, variant?, typeById?, typeById?, htypes]

/-- A program whose functions are being compiled. -/
structure Program.Compiles (p q : Program) : Prop where
  rest : q = { p with funs := q.funs }
  funs : ∀ i : FunId, (q.funs[i]?).map UserFunction.bare = (p.funs[i]?).map UserFunction.bare

namespace Program.Compiles

variable {p q r : Program}

theorem refl (p : Program) : p.Compiles p := ⟨rfl, fun _ => rfl⟩

theorem trans (h : p.Compiles q) (k : q.Compiles r) : p.Compiles r where
  rest := by rw [k.rest, h.rest]
  funs i := (k.funs i).trans (h.funs i)

theorem bindings (h : p.Compiles q) : q.bindings = p.bindings := by rw [h.rest]

theorem binding (h : p.Compiles q) (b : BindingId) : q.binding b = p.binding b := by
  rw [Program.binding, Program.binding, h.bindings]

theorem none (h : p.Compiles q) {i : FunId} (hi : q.funs[i]? = none) : p.funs[i]? = none := by
  simpa [hi] using (h.funs i).symm

theorem some (h : p.Compiles q) {i : FunId} {f : UserFunction} (hi : q.funs[i]? = some f) :
    ∃ g, p.funs[i]? = some g ∧ f.bare = g.bare := by
  have hf := (h.funs i).symm
  rw [hi] at hf
  obtain ⟨g, hg, hbare⟩ := Option.map_eq_some_iff.mp hf
  exact ⟨g, hg, hbare.symm⟩

theorem ref (h : p.Compiles q) (i : FunId) :
    (q.funs[i]?).bind (·.ref) = (p.funs[i]?).bind (·.ref) := by
  cases hq : q.funs[i]? with
  | none => rw [h.none hq]
  | some f =>
    obtain ⟨g, hg, hbare⟩ := h.some hq
    rw [hg]
    exact (congrArg UserFunction.ref hbare : f.bare.ref = g.bare.ref)

theorem object (h : p.Compiles q) (c : Callable) : q.object c = p.object c :=
  object_congr h.ref (by rw [h.rest]) (by rw [h.rest]) c

theorem modifyFun (p : Program) (i : FunId) {g : UserFunction → UserFunction}
    (hg : ∀ f, (g f).bare = f.bare) : p.Compiles (p.modifyFun i g) := by
  refine ⟨rfl, fun j => ?_⟩
  rw [Program.modifyFun, Array.getElem?_modify]
  split
  · rw [Option.map_map]
    exact congrArg (Option.map · _) (funext hg)
  · rfl

end Program.Compiles

def Pool.Indexed (p : Pool) : Prop :=
  ∀ (key : ConstKey) (i : Nat), p.index[key]? = some i →
    ∃ v : Value, p.values[i]? = some v ∧ v.constKey = key

theorem Pool.Indexed.empty : ({} : Pool).Indexed := by
  intro key i h
  simp at h

theorem Pool.mem_add {p : Pool} {v w : Value} (h : w ∈ (p.add v).2.values) : w ∈ p.values ∨ w = v := by
  rw [Pool.add] at h
  split at h
  · exact .inl h
  · exact Array.mem_push.mp h

theorem Pool.Indexed.add {p : Pool} (hp : p.Indexed) (v : Value) :
    (p.add v).2.Indexed ∧ (∃ w, (p.add v).2.values[(p.add v).1]? = some w ∧ w.constKey = v.constKey) ∧
      ∀ (i : Nat) (w : Value), p.values[i]? = some w → (p.add v).2.values[i]? = some w := by
  rw [Pool.add]
  split
  · rename_i i hi
    exact ⟨hp, hp _ i hi, fun _ _ h => h⟩
  · have hkeep : ∀ (i : Nat) (w : Value), p.values[i]? = some w → (p.values.push v)[i]? = some w := by
      intro i w h
      obtain ⟨hi, rfl⟩ := Array.getElem?_eq_some_iff.mp h
      rw [Array.getElem?_push_lt hi]
    refine ⟨fun key i h => ?_, ⟨v, by simp, rfl⟩, hkeep⟩
    rw [Std.TreeMap.getElem?_insert] at h
    split at h
    · rename_i hkey
      obtain rfl := Option.some.inj h
      exact ⟨v, by simp, by simpa using hkey⟩
    · obtain ⟨w, hw, hk⟩ := hp key i h
      exact ⟨w, hkeep i w hw, hk⟩

/-- Whether a value can be a constant of code: a function or an instance is one only as the object of
something that can be called. -/
inductive Program.Constant (p : Program) : Value → Prop
  | plain {v : Value} (h : v.isPlain = true) : Constant p v
  | object (c : Callable) : Constant p (p.object c)

namespace Emit

abbrev head (f : Function) : String × Int := (f.name, f.arity)

/-- What holds of a state of code generation. -/
structure State.Sound (p : Program) (s : State) : Prop where
  program : p.Compiles s.program
  pool : s.pool.Indexed
  templates : ∀ (n : String) (v : Value), s.templates[n]? = some v →
    ∃ i fields, v = .ctor i ⟨n, "", fields⟩ ∧ p.HasRecord ⟨n, fields⟩
  constants : ∀ v ∈ s.pool.values, p.Constant v

/-- A later state of code generation. -/
structure State.Grows (s t : State) : Prop where
  pool : ∀ (i : Nat) (v : Value), s.pool.values[i]? = some v → t.pool.values[i]? = some v
  templates : ∀ (n : String) (v : Value), s.templates[n]? = some v → t.templates[n]? = some v
  overflow : t.overflow = none → s.overflow = none
  heads : ∀ r : Ref, (t.heap.funcs[r]?).map head = (s.heap.funcs[r]?).map head
  objects : ∃ h : Heap, t.heap = { s.heap with funcs := h.funcs, nextId := h.nextId } ∧
    s.heap.nextId ≤ h.nextId

theorem State.Grows.refl (s : State) : s.Grows s :=
  ⟨fun _ _ h => h, fun _ _ h => h, fun h => h, fun _ => rfl, s.heap, rfl, Nat.le_refl _⟩

theorem State.Grows.newId (s : State) : s.Grows { s with heap := (s.heap.newId).2 } :=
  ⟨fun _ _ h => h, fun _ _ h => h, fun h => h, fun _ => rfl, (s.heap.newId).2, rfl, Nat.le_succ _⟩

theorem State.Grows.trans {s t u : State} (h : s.Grows t) (k : t.Grows u) : s.Grows u where
  pool i v hv := k.pool i v (h.pool i v hv)
  templates n v hv := k.templates n v (h.templates n v hv)
  overflow hu := h.overflow (k.overflow hu)
  heads r := (k.heads r).trans (h.heads r)
  objects := by
    obtain ⟨x, hx, hle⟩ := h.objects
    obtain ⟨y, hy, hle'⟩ := k.objects
    refine ⟨y, by rw [hy, hx], Nat.le_trans hle ?_⟩
    rw [hx] at hle'
    exact hle'

theorem State.Grows.count {s t : State} (h : s.Grows t) :
    t.heap.funcs.size = s.heap.funcs.size := by
  apply Nat.le_antisymm
  · rw [← Array.getElem?_eq_none_iff, ← Option.map_eq_none_iff (f := head), h.heads]
    simp
  · rw [← Array.getElem?_eq_none_iff, ← Option.map_eq_none_iff (f := head), ← h.heads]
    simp

end Emit

namespace Lowering

/-- Whether a lowering stands for a state of code generation in which every operand fits. -/
structure Covers (K : Lowering) (s : Emit.State) : Prop where
  pool : ∀ (i : Nat) (v : Value), s.pool.values[i]? = some v → K.pool[i]? = some v
  template : ∀ (t : Template) (v : Value), s.templates[t.typeName]? = some v → K.template t v
  fits : s.overflow = none

theorem Covers.of_grows {K : Lowering} {s t : Emit.State} (h : K.Covers t) (hg : s.Grows t) :
    K.Covers s where
  pool i v hv := h.pool i v (hg.pool i v hv)
  template t v hv := h.template t v (hg.templates _ v hv)
  fits := hg.overflow h.fits

/-- A function object that code was generated for. -/
structure Object (K : Lowering) (f : UserFunction) (d : FunDecl .typed) (x : Function) : Prop where
  code : ∃ (code : Assembly) (pool : Array Value) (file : String),
    x.chunk = some (code.chunk pool file) ∧ Lowers.func { K with pool } f d code
  localCount : x.localCount = d.info.localCount
  freeCount : x.freeCount = d.info.free.length
  constants : ∀ c, x.chunk = some c → ∀ v ∈ c.constants, K.program.Constant v

def Owns (K : Lowering) (d : FunDecl .typed) (f : UserFunction) (r : Ref) : Prop :=
  K.program.funs[d.info.id]? = some f ∧ f.ref = some r

/-- Whether functions were compiled, and no others were touched. -/
def Compiled (K : Lowering) (ds : List (FunDecl .typed)) (h h' : Heap) : Prop :=
  ∀ (r : Ref) (x : Function), h'.funcs[r]? = some x → (∃ d ∈ ds, ∃ f, K.Owns d f r ∧ K.Object f d x) ∨
    (h.funcs[r]? = some x ∧ ∀ d ∈ ds, ∀ f, ¬ K.Owns d f r)

theorem Compiled.nil (K : Lowering) (h : Heap) : K.Compiled [] h h :=
  fun _ _ hx => .inr ⟨hx, by simp⟩

theorem Compiled.of_pool {K : Lowering} {pool : Array Value} {ds : List (FunDecl .typed)}
    {h h' : Heap} (hd : Compiled { K with pool } ds h h') : K.Compiled ds h h' := by
  intro r x hx
  rcases hd r x hx with ⟨d, hmem, f, howns, hcode, hlocal, hfree, hconstants⟩ | hsame
  · exact .inl ⟨d, hmem, f, howns, hcode, hlocal, hfree, hconstants⟩
  · exact .inr hsame

theorem Compiled.append {K : Lowering} {ds es : List (FunDecl .typed)} {h h' h'' : Heap}
    (hd : K.Compiled ds h h') (he : K.Compiled es h' h'') : K.Compiled (ds ++ es) h h'' := by
  intro r x hx
  rcases he r x hx with ⟨d, hmem, f, howns⟩ | ⟨hx', hnot⟩
  · exact .inl ⟨d, List.mem_append_right _ hmem, f, howns⟩
  rcases hd r x hx' with ⟨d, hmem, f, howns⟩ | ⟨hx'', hnot'⟩
  · exact .inl ⟨d, List.mem_append_left _ hmem, f, howns⟩
  refine .inr ⟨hx'', fun d hmem f => ?_⟩
  rcases List.mem_append.mp hmem with hmem | hmem
  · exact hnot' d hmem f
  · exact hnot d hmem f

end Lowering

namespace Emit

variable {α β : Type}

/-- What `m` gives; see the head of the module. -/
def Gives (p : Program) (D : FunDecl .typed → Prop) (m : Emit α) (Q : Lowering → α → Prop) : Prop :=
  ∀ s a t, s.Sound p → m.run s = .ok (a, t) → t.Sound p ∧ s.Grows t ∧ ∃ ds, (∀ d ∈ ds, D d) ∧
    ∀ K : Lowering, K.program = p → K.Covers t → (∀ d ∈ ds, K.compiled d) →
      Q K a ∧ K.Compiled ds s.heap t.heap

namespace Gives

variable {p : Program} {D : FunDecl .typed → Prop} {m : Emit α}

theorem mono {Q Q' : Lowering → α → Prop} (h : Gives p D m Q)
    (hQ : ∀ K a, K.program = p → Q K a → Q' K a) : Gives p D m Q' := by
  intro s a t hs hm
  obtain ⟨ht, hg, ds, hD, hK⟩ := h s a t hs hm
  refine ⟨ht, hg, ds, hD, fun K hp hc hds => ?_⟩
  obtain ⟨hq, hcompiled⟩ := hK K hp hc hds
  exact ⟨hQ K a hp hq, hcompiled⟩

theorem pure {a : α} {Q : Lowering → α → Prop} (h : ∀ K, K.program = p → Q K a) :
    Gives p D (Pure.pure a) Q := by
  intro s b t hs hm
  obtain ⟨rfl, rfl⟩ := Prod.mk.inj (Except.ok.inj hm)
  exact ⟨hs, .refl _, [], by simp, fun K hp _ _ => ⟨h K hp, .nil K _⟩⟩

theorem ret (a : α) : Gives p D (Pure.pure a) fun _ b => b = a := pure fun _ _ => rfl

theorem bindOf {P : Lowering → α → Prop} {R : α → Prop} {f : α → Emit β} {Q : α → Lowering → β → Prop}
    (hm : Gives p D m P) (hR : ∀ s a t, s.Sound p → m.run s = .ok (a, t) → R a)
    (hf : ∀ a, R a → Gives p D (f a) (Q a)) :
    Gives p D (m >>= f) fun K b => ∃ a, P K a ∧ Q a K b := by
  intro s b u hs hrun
  rw [StateT.run_bind] at hrun
  obtain ⟨⟨a, t⟩, hrun', hrun⟩ := Loading.exists_of_bind_ok hrun
  obtain ⟨ht, hg, ds, hD, hK⟩ := hm s a t hs hrun'
  obtain ⟨hu, hg', es, hD', hK'⟩ := hf a (hR s a t hs hrun') t b u ht hrun
  refine ⟨hu, hg.trans hg', ds ++ es, ?_, fun K hp hc hes => ?_⟩
  · intro d hd
    rcases List.mem_append.mp hd with hd | hd
    · exact hD d hd
    · exact hD' d hd
  · obtain ⟨hq, hcompiled⟩ := hK' K hp hc fun d hd => hes d (List.mem_append_right _ hd)
    obtain ⟨hq', hcompiled'⟩ := hK K hp (hc.of_grows hg') fun d hd =>
      hes d (List.mem_append_left _ hd)
    exact ⟨⟨a, hq', hq⟩, hcompiled'.append hcompiled⟩

theorem bind {P : Lowering → α → Prop} {f : α → Emit β} {Q : α → Lowering → β → Prop}
    (hm : Gives p D m P) (hf : ∀ a, Gives p D (f a) (Q a)) :
    Gives p D (m >>= f) fun K b => ∃ a, P K a ∧ Q a K b :=
  hm.bindOf (fun _ _ _ _ _ => trivial) fun a _ => hf a

theorem andThen {P : Lowering → α → Prop} {f : α → Emit β} {Q : Lowering → β → Prop}
    (hm : Gives p D m P) (hf : ∀ a, Gives p D (f a) Q) : Gives p D (m >>= f) Q :=
  (hm.bind hf).mono fun _ _ _ ⟨_, _, h⟩ => h

theorem ofGet {f : State → Emit α} {Q : Lowering → α → Prop}
    (hf : ∀ s, s.Sound p → Gives p D (f s) Q) : Gives p D (get >>= f) Q :=
  fun s a t hs hm => hf s hs s a t hs hm

theorem throw {d : Diagnostic} {Q : Lowering → α → Prop} :
    Gives p D (MonadExcept.throw d : Emit α) Q := fun _ _ _ _ hm => nomatch hm

theorem unsupported {tok : Token} {msg : String} {Q : Lowering → α → Prop} :
    Gives p D (Emit.unsupported tok msg : Emit α) Q := throw

theorem refused {tok : Token} {msg : String} {f : β → Emit α} {Q : Lowering → α → Prop} :
    Gives p D (Emit.unsupported tok msg >>= f) Q := fun _ _ _ _ hm => nomatch hm

theorem ofModify {f : State → α × State} {Q : Lowering → α → Prop}
    (hf : ∀ s, s.Sound p → (f s).2.Sound p ∧ s.Grows (f s).2 ∧
      (f s).2.heap.funcs = s.heap.funcs ∧ ∀ K : Lowering, K.program = p → K.Covers (f s).2 → Q K (f s).1) :
    Gives p D (modifyGet f) Q := by
  intro s a t hs hm
  have hrun : (modifyGet f : Emit α).run s = .ok (f s) := rfl
  rw [hrun] at hm
  have heq : f s = (a, t) := Except.ok.inj hm
  obtain ⟨hsound, hg, hfuncs, hQ⟩ := hf s hs
  rw [heq] at hsound hg hfuncs hQ
  refine ⟨hsound, hg, [], by simp, fun K hp hc _ => ⟨hQ K hp hc, fun r x hx => ?_⟩⟩
  rw [hfuncs] at hx
  exact .inr ⟨hx, by simp⟩

end Gives

end Emit

end Scripting
