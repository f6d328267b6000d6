import Scripting.Proofs.Slots.Numbered

/-!
# Globals whose values are known

A function, a constructor, the only instance of a variant and a type are known before a program runs.
The globals that hold them wait in a queue until a script stores them. `Program.Queued n p` says that
none of those at place `n` or later is missing in the queue, and `Program.Steady p q` that what a binding
of `p` is known to hold stays the same in `q`.
-/

namespace Scripting

/-!
## What bindings stand for

A binding that can be called names a function of the program, a native function or a variant.
`Program.Founded` says that these are there. `Program.objects` lists the objects that variants have;
analysis makes none.
-/

/-- Whether something that can be called is there. Bindings never name functions of the host. -/
def Callable.Made (p : Program) : Callable → Prop
  | .user f => f < p.funs.size
  | .native name => (Native.object? name).isSome
  | .host _ => False
  | .ctor t i => t < p.nextType ∧ ∃ d ∈ p.types.defs, d.id = t ∧ i < d.variants.length

theorem Callable.Made.mono {p q : Program} (h : p.Contained q) {c : Callable} (hc : c.Made p) :
    c.Made q := by
  cases c with
  | user f => exact Nat.lt_of_lt_of_le hc h.funs
  | native name => exact hc
  | host f => exact hc
  | ctor t i =>
    obtain ⟨ht, d, hd, hid, hi⟩ := hc
    obtain ⟨e, he, hed, hlen⟩ := h.types d hd
    exact ⟨Nat.lt_of_lt_of_le ht h.nextType, e, he, hed.trans hid, Nat.lt_of_lt_of_le hi hlen⟩

def TypeDef.objects (d : TypeDef) : List Value := d.variants.filterMap (·.object)

namespace Program

variable {p q r : Program}

def Names (p : Program) (P : Callable → Prop) : Prop :=
  ∀ b < p.bindings.size, ∀ c, (p.binding b).callable = some c → P c

namespace Names

variable {P Q : Callable → Prop}

theorem mono (h : p.Names P) (hPQ : ∀ c, P c → Q c) : p.Names Q :=
  fun b hb c hc => hPQ c (h b hb c hc)

theorem of_eq (h : p.Names P) (hb : q.bindings = p.bindings) : q.Names P := by
  intro b hlt c hc
  rw [binding, hb] at hc
  exact h b (hb ▸ hlt) c hc

theorem addBinding (h : p.Names P) {x : Binding} (hx : x.callable = none) :
    (p.addBinding x).2.Names P := by
  intro b hlt c hc
  have hsize : b < p.bindings.size + 1 := by simpa [Program.addBinding] using hlt
  rcases Nat.lt_succ_iff_lt_or_eq.mp hsize with hlt | rfl
  · rw [Program.addBinding, binding_push_lt hlt] at hc
    exact h b hlt c hc
  · rw [Program.addBinding, binding_push_size, hx] at hc
    cases hc

theorem modifyBinding (h : p.Names P) (b : BindingId) {f : Binding → Binding}
    (hf : ∀ x c, (f x).callable = some c → x.callable = some c ∨ P c) :
    (p.modifyBinding b f).Names P := by
  intro a hlt c hc
  have hsize : a < p.bindings.size := by simpa [Program.modifyBinding] using hlt
  rw [binding_modify hsize] at hc
  split at hc
  · exact (hf _ c hc).elim (h a hsize c) id
  · exact h a hsize c hc

theorem declareGlobal (h : p.Names P) (name : String) (tok : Token) :
    (p.declareGlobal name tok).2.Names P :=
  (h.addBinding (x := { name := name, index := p.slots.size, storage := .global, token := tok })
    rfl).of_eq rfl

end Names

def Founded (p : Program) : Prop := p.Names (·.Made p)

theorem Founded.of_eq (h : p.Founded) (hb : q.bindings = p.bindings) (hc : p.Contained q) :
    q.Founded :=
  (Names.of_eq h hb).mono fun _ hmade => hmade.mono hc

def Unused (p : Program) (id : TypeId) : Prop := p.Names fun c => ∀ i, c ≠ .ctor id i

theorem Founded.unused (h : p.Founded) {id : TypeId} (hid : p.nextType ≤ id) : p.Unused id := by
  refine h.mono fun c hc i hctor => ?_
  subst hctor
  exact absurd hc.1 (Nat.not_lt.mpr hid)

theorem Unused.bindVariants {id other : TypeId} (hne : id ≠ other) (hp : p.Unused other)
    (tok : Token) : (p.bindVariants id tok).Unused other := by
  unfold Program.bindVariants
  split
  · exact hp
  · rename_i d _
    refine Loading.Walks.foldl (R := fun p q => p.Unused other → q.Unused other)
      ⟨fun _ h => h, fun h k hp => k (h hp)⟩ (fun p i hp => ?_) _ p hp
    split
    · exact hp
    · rename_i v _
      have hnamed := (hp.declareGlobal v.tag tok).modifyBinding p.bindings.size (f := fun x => { x with
        callable := some (.ctor id i)
        type := if v.isNullary then d.type
          else .func (ctorSig d v).params (ctorSig d v).result (ctorSig d v).variadic })
        fun _ c hc => .inr fun j hctor => hne (by
          obtain rfl := Option.some.inj hc
          exact (Callable.ctor.inj hctor).1)
      exact hnamed.of_eq rfl

def objects (p : Program) : List Value := p.types.defs.toList.flatMap TypeDef.objects

theorem objects_of_types (h : q.types = p.types) : q.objects.Sublist p.objects := by
  rw [objects, h]
  exact .refl _

theorem modifyType_objects (p : Program) (id : TypeId) {f : TypeDef → TypeDef}
    (hf : ∀ d, (f d).objects.Sublist d.objects) :
    (p.modifyType id f).objects.Sublist p.objects := by
  rw [objects, modifyType_defs, Array.toList_map, objects]
  generalize p.types.defs.toList = ds
  induction ds with
  | nil => exact .refl _
  | cons d ds ih =>
    rw [List.map_cons, List.flatMap_cons, List.flatMap_cons]
    refine List.Sublist.append ?_ ih
    split
    · exact hf d
    · exact .refl _

theorem addType_objects {d : TypeDef} {id : TypeId} (hd : d.objects = [])
    (h : p.addType d = .ok (id, q)) : q.objects.Sublist p.objects := by
  have hpush : ∀ e : TypeDef, e.objects = [] → q.types = p.types.add e →
      q.objects.Sublist p.objects := by
    intro e he ht
    rw [objects, ht, TypeTable.add_defs, Array.toList_push, List.flatMap_append, List.flatMap_singleton, he,
      List.append_nil]
    exact .refl _
  unfold addType at h
  split at h
  · cases h
  · split at h
    · obtain ⟨-, rfl⟩ := Prod.mk.inj (Except.ok.inj h)
      exact hpush { d with id := p.nextType } hd rfl
    · obtain ⟨-, rfl⟩ := Prod.mk.inj (Except.ok.inj h)
      exact hpush _ hd rfl

theorem addType_number {d : TypeDef} {id : TypeId} (hd : d.id = 0) (h : p.addType d = .ok (id, q)) :
    id = p.nextType ∧ q.nextType = p.nextType + 1 := by
  unfold addType at h
  rw [hd] at h
  split at h
  · cases h
  · obtain ⟨rfl, rfl⟩ := Prod.mk.inj (Except.ok.inj h)
    exact ⟨rfl, rfl⟩

def Held (p : Program) : Prop := ∀ d ∈ p.types.defs, ∀ b, d.binding = some b → p.IsGlobal b

/-- Whether a program has no types that globals hold besides those of another one. -/
def Inherits (p q : Program) : Prop :=
  ∀ d ∈ q.types.defs, ∀ b, d.binding = some b → ∃ e ∈ p.types.defs, e.binding = some b

theorem Inherits.of_types (h : q.types = p.types) : p.Inherits q :=
  fun d hd _ hb => ⟨d, h ▸ hd, hb⟩

theorem Inherits.trans (h : p.Inherits q) (k : q.Inherits r) : p.Inherits r := fun d hd b hb =>
  let ⟨e, he, heb⟩ := k d hd b hb
  h e he b heb

theorem modifyType_inherits (p : Program) (id : TypeId) {f : TypeDef → TypeDef}
    (hf : ∀ d, (f d).binding = d.binding) : p.Inherits (p.modifyType id f) := by
  intro d hd b hb
  obtain ⟨e, he, rfl⟩ := Array.mem_map.mp hd
  refine ⟨e, he, ?_⟩
  split at hb
  · exact (hf e).symm.trans hb
  · exact hb

theorem addType_inherits {d : TypeDef} {id : TypeId} (hd : d.binding = none)
    (h : p.addType d = .ok (id, q)) : p.Inherits q := by
  have hpush : ∀ e : TypeDef, e.binding = none → q.types = p.types.add e → p.Inherits q := by
    intro e he ht x hx b hb
    rw [ht] at hx
    rcases Array.mem_push.mp hx with hx | rfl
    · exact ⟨x, hx, hb⟩
    · rw [he] at hb
      cases hb
  unfold addType at h
  split at h
  · cases h
  · split at h
    · obtain ⟨-, rfl⟩ := Prod.mk.inj (Except.ok.inj h)
      exact hpush { d with id := p.nextType } hd rfl
    · obtain ⟨-, rfl⟩ := Prod.mk.inj (Except.ok.inj h)
      exact hpush _ hd rfl

theorem Held.inherits (h : p.Held) (hi : p.Inherits q) (hg : ∀ b, p.IsGlobal b → q.IsGlobal b) :
    q.Held := fun d hd b hb =>
  let ⟨e, he, heb⟩ := hi d hd b hb
  hg b (h e he b heb)

end Program

namespace Loading

open Program

/-- Whether the types of modules have no variants, and no global holds them yet. -/
def PlainLoader (load : String → Except LoadError HostModule) : Prop :=
  ∀ name m, load name = .ok m → ∀ x ∈ m.types, x.1.variants = [] ∧ x.1.binding = none

theorem useModule_objects {load : String → Except LoadError HostModule} (hload : PlainLoader load)
    (name : String) : Leads (fun p q => q.objects.Sublist p.objects) (useModule load name) := by
  have hhost : ∀ (p : Program) f, (p.addHost f).2.objects.Sublist p.objects := by
    intro p f
    refine objects_of_types ?_
    unfold addHost registerKey
    split <;> rfl
  refine useModule_leads ⟨⟨fun p => .refl _, fun h k => k.trans h⟩, fun p id f => ?_, hhost,
    fun _ => objects_of_types rfl⟩ name fun m hm x hx p id q hq => ?_
  · exact (modifyType_objects _ id (f := fun d => d.addHostMethod (Text.lower f.name) (p.addHost f).1)
      fun _ => .refl _).trans (hhost p f)
  · refine addType_objects ?_ hq
    rw [TypeDef.objects]
    show x.1.variants.filterMap _ = []
    rw [(hload name m hm x hx).1]
    rfl

theorem useModule_inherits {load : String → Except LoadError HostModule} (hload : PlainLoader load)
    (name : String) : Leads Inherits (useModule load name) := by
  have hhost : ∀ (p : Program) f, p.Inherits (p.addHost f).2 := by
    intro p f
    refine .of_types ?_
    unfold addHost registerKey
    split <;> rfl
  refine useModule_leads (R := Inherits) ⟨⟨fun p => .of_types rfl, Inherits.trans⟩, fun p id f => ?_,
    hhost, fun _ => .of_types rfl⟩ name fun m hm x hx p id q hq => ?_
  · exact (hhost p f).trans (modifyType_inherits _ id (f := fun d =>
      d.addHostMethod (Text.lower f.name) (p.addHost f).1) fun _ => rfl)
  · exact addType_inherits (d := { x.1 with module := m.name }) (hload name m hm x hx).2 hq

theorem loader_plain (r : Registry) : PlainLoader (Engine.loader r) := by
  intro name m hm x hx
  obtain ⟨t, ht⟩ := loader_types hm x hx
  obtain ⟨bases, -, ht⟩ := exists_of_bind_ok ht
  obtain ⟨fs, -, ht⟩ := exists_of_bind_ok ht
  obtain rfl := Except.ok.inj ht
  exact ⟨rfl, rfl⟩

end Loading

def Binding.known (x : Binding) : Option Callable × Ty := (x.callable, x.typeValue)

/-- Whether source text cannot name a binding; if it cannot, also whether the binding is captured. -/
def Binding.veil (x : Binding) : Bool × Bool := (x.hidden, x.hidden && x.captured)

/-- Whether nothing is known of what a binding holds. -/
def Binding.Plain (x : Binding) : Prop := x.callable = none ∧ x.typeValue.isUnknown = true

def Binding.Single (x : Binding) : Prop := x.callable = none ∨ x.typeValue.isUnknown = true

theorem Binding.Plain.of_known {x y : Binding} (h : x.Plain) (hk : y.known = x.known) : y.Plain := by
  obtain ⟨hc, ht⟩ := Prod.mk.inj hk
  exact ⟨hc.trans h.1, ht ▸ h.2⟩

namespace Program

variable {p q r : Program} {n : Nat}

structure Steady (p q : Program) : Prop where
  size : p.bindings.size ≤ q.bindings.size
  known : ∀ b < p.bindings.size, (q.binding b).known = (p.binding b).known
  veil : ∀ b < p.bindings.size, (q.binding b).veil = (p.binding b).veil

theorem Steady.of_eq (h : q.bindings = p.bindings) : p.Steady q :=
  ⟨Nat.le_of_eq (by rw [h]), fun b _ => by rw [binding, h, binding],
    fun b _ => by rw [binding, h, binding]⟩

theorem Steady.refl (p : Program) : p.Steady p := .of_eq rfl

theorem Steady.trans (h : p.Steady q) (k : q.Steady r) : p.Steady r :=
  ⟨Nat.le_trans h.size k.size,
    fun b hb => (k.known b (Nat.lt_of_lt_of_le hb h.size)).trans (h.known b hb),
    fun b hb => (k.veil b (Nat.lt_of_lt_of_le hb h.size)).trans (h.veil b hb)⟩

theorem Steady.plain (h : p.Steady q) {b : BindingId} (hb : b < p.bindings.size)
    (hplain : (p.binding b).Plain) : (q.binding b).Plain :=
  hplain.of_known (h.known b hb)

structure Queued (n : Nat) (p : Program) : Prop where
  waiting : ∀ b, n ≤ b → p.IsGlobal b → ¬ (p.binding b).Plain → b ∈ p.pending
  globals : ∀ b ∈ p.pending, p.IsGlobal b

theorem Queued.of_eq (h : p.Queued n) (hb : q.bindings = p.bindings) (hp : q.pending = p.pending) :
    q.Queued n := by
  have hsame : ∀ b, q.binding b = p.binding b := fun b => by rw [binding, hb, binding]
  refine ⟨fun b hn hg hplain => ?_, fun b hmem => ?_⟩
  · rw [IsGlobal, hb, hsame] at hg
    rw [hsame] at hplain
    rw [hp]
    exact h.waiting b hn hg hplain
  · rw [IsGlobal, hb, hsame]
    exact h.globals b (hp ▸ hmem)

theorem addBinding_steady (p : Program) (x : Binding) : p.Steady (p.addBinding x).2 :=
  ⟨by simp [addBinding], fun b hb => by rw [addBinding, binding_push_lt hb],
    fun b hb => by rw [addBinding, binding_push_lt hb]⟩

theorem modifyBinding_steady (p : Program) (b : BindingId) {f : Binding → Binding}
    (hf : (f (p.binding b)).known = (p.binding b).known)
    (hv : (f (p.binding b)).veil = (p.binding b).veil) : p.Steady (p.modifyBinding b f) := by
  refine ⟨by simp [modifyBinding], fun c hc => ?_, fun c hc => ?_⟩
  all_goals
    rw [binding_modify hc]
    split
    · rename_i hbc
      rw [← hbc]
      assumption
    · rfl

theorem Steady.modifyBinding (h : p.Steady q) {b : BindingId} (hnew : p.bindings.size ≤ b)
    (f : Binding → Binding) : p.Steady (q.modifyBinding b f) := by
  have hold : ∀ c < p.bindings.size, (q.modifyBinding b f).binding c = q.binding c := fun c hc => by
    rw [binding_modify (Nat.lt_of_lt_of_le hc h.size), if_neg (Nat.ne_of_gt (Nat.lt_of_lt_of_le hc hnew))]
  exact ⟨by simpa [Program.modifyBinding] using h.size, fun c hc => hold c hc ▸ h.known c hc,
    fun c hc => hold c hc ▸ h.veil c hc⟩

def Shown (p : Program) (b : BindingId) : Prop :=
  b < p.bindings.size ∧ (p.binding b).hidden = false

theorem Shown.steady {b : BindingId} (h : p.Shown b) (hs : p.Steady q) : q.Shown b :=
  ⟨Nat.lt_of_lt_of_le h.1 hs.size, (congrArg Prod.fst (hs.veil b h.1)).trans h.2⟩

theorem Shown.modifyBinding {b : BindingId} (h : p.Shown b) (c : BindingId) {f : Binding → Binding}
    (hf : ∀ x, (f x).hidden = x.hidden) : (p.modifyBinding c f).Shown b := by
  refine ⟨by simpa [Program.modifyBinding] using h.1, ?_⟩
  rw [binding_modify h.1]
  split
  · exact (hf _).trans h.2
  · exact h.2

/-- Whether a binding belongs to the code alone: source text cannot name it, and no function captures
it. -/
def Veiled (p : Program) (b : BindingId) : Prop :=
  b < p.bindings.size ∧ (p.binding b).veil = (true, false)

theorem Veiled.steady {b : BindingId} (h : p.Veiled b) (hs : p.Steady q) : q.Veiled b :=
  ⟨Nat.lt_of_lt_of_le h.1 hs.size, (hs.veil b h.1).trans h.2⟩

theorem Queued.addBinding (h : p.Queued n) {x : Binding} (hx : x.Plain) :
    (p.addBinding x).2.Queued n := by
  have hgrows := p.addBinding_grows x
  refine ⟨fun b hn hg hplain => ?_, fun b hb => hgrows.isGlobal (h.globals b hb)⟩
  have hsize : b < p.bindings.size + 1 := by simpa [Program.addBinding] using hg.1
  rcases Nat.lt_succ_iff_lt_or_eq.mp hsize with hlt | rfl
  · have hsame : (p.addBinding x).2.binding b = p.binding b := binding_push_lt hlt
    rw [hsame] at hplain
    exact h.waiting b hn ⟨hlt, hsame ▸ hg.2⟩ hplain
  · have hnew : (p.addBinding x).2.binding p.bindings.size = x := binding_push_size p x
    rw [hnew] at hplain
    exact absurd hx hplain

theorem Queued.modifyBinding (h : p.Queued n) (b : BindingId) {f : Binding → Binding}
    (hf : ∀ x, (f x).known = x.known ∧ (f x).storage = x.storage) :
    (p.modifyBinding b f).Queued n := by
  have hsize : (p.modifyBinding b f).bindings.size = p.bindings.size := by simp [Program.modifyBinding]
  have hknown : ∀ c < p.bindings.size,
      ((p.modifyBinding b f).binding c).known = (p.binding c).known := fun c hc => by
    rw [binding_modify hc]
    split
    · exact (hf _).1
    · rfl
  have hstorage : ∀ c < p.bindings.size,
      ((p.modifyBinding b f).binding c).storage = (p.binding c).storage := fun c hc => by
    rw [binding_modify hc]
    split
    · exact (hf _).2
    · rfl
  refine ⟨fun c hn hg hplain => ?_, fun c hc => ?_⟩
  · have hlt : c < p.bindings.size := hsize ▸ hg.1
    exact h.waiting c hn ⟨hlt, hstorage c hlt ▸ hg.2⟩ fun hold =>
      hplain (hold.of_known (hknown c hlt))
  · have hg := h.globals c hc
    exact ⟨hsize ▸ hg.1, (hstorage c hg.1).trans hg.2⟩

theorem Queued.noted (h : p.Queued n) {b : BindingId} (hg : p.IsGlobal b) {f : Binding → Binding}
    (hf : ∀ x, (f x).storage = x.storage) : ((p.modifyBinding b f).addPending b).Queued n := by
  have hsize : ((p.modifyBinding b f).addPending b).bindings.size = p.bindings.size := by
    simp [addPending, Program.modifyBinding]
  have hstorage : ∀ c < p.bindings.size,
      (((p.modifyBinding b f).addPending b).binding c).storage = (p.binding c).storage := fun c hc => by
    show ((p.modifyBinding b f).binding c).storage = _
    rw [binding_modify hc]
    split
    · exact hf _
    · rfl
  have hglobal : ∀ c, p.IsGlobal c → ((p.modifyBinding b f).addPending b).IsGlobal c :=
    fun c hc => ⟨hsize ▸ hc.1, (hstorage c hc.1).trans hc.2⟩
  refine ⟨fun c hn hgc hplain => ?_, fun c hc => ?_⟩
  · have hlt : c < p.bindings.size := hsize ▸ hgc.1
    by_cases hcb : b = c
    · subst hcb
      simp [addPending]
    · have hsame : ((p.modifyBinding b f).addPending b).binding c = p.binding c := by
        show (p.modifyBinding b f).binding c = _
        rw [binding_modify hlt, if_neg hcb]
      rw [hsame] at hplain
      exact Array.mem_push_of_mem _ (h.waiting c hn ⟨hlt, hstorage c hlt ▸ hgc.2⟩ hplain)
  · rcases Array.mem_push.mp hc with hc | rfl
    · exact hglobal c (h.globals c hc)
    · exact hglobal c hg

/-- Whether all top-level names have bindings that source text can name. -/
def Named (p : Program) : Prop := ∀ name b, p.scope.get? name = some b → p.Shown b

theorem Named.of_eq (h : p.Named) (hs : q.scope = p.scope) (hk : p.Steady q) : q.Named :=
  fun name b hb => (h name b (hs ▸ hb)).steady hk

theorem Named.modifyBinding (h : p.Named) (b : BindingId) {f : Binding → Binding}
    (hf : ∀ x, (f x).hidden = x.hidden) : (p.modifyBinding b f).Named :=
  fun name c hc => (h name c hc).modifyBinding b hf

def Single (p : Program) : Prop := ∀ b < p.bindings.size, (p.binding b).Single

theorem Single.of_steady (h : p.Single) (hs : p.Steady q) (hsize : q.bindings.size = p.bindings.size) :
    q.Single := by
  intro b hb
  obtain ⟨hcallable, htype⟩ := Prod.mk.inj (hs.known b (hsize ▸ hb))
  rw [Binding.Single, hcallable, htype]
  exact h b (hsize ▸ hb)

theorem Single.addBinding (h : p.Single) {x : Binding} (hx : x.Plain) : (p.addBinding x).2.Single := by
  intro b hb
  have hsize : b < p.bindings.size + 1 := by simpa [Program.addBinding] using hb
  rcases Nat.lt_succ_iff_lt_or_eq.mp hsize with hlt | rfl
  · rw [Program.addBinding, binding_push_lt hlt]
    exact h b hlt
  · rw [Program.addBinding, binding_push_size]
    exact .inl hx.1

theorem Single.modifyBinding (h : p.Single) {b : BindingId} {f : Binding → Binding}
    (hf : (f (p.binding b)).Single) : (p.modifyBinding b f).Single := by
  intro c hc
  have hlt : c < p.bindings.size := by simpa [Program.modifyBinding] using hc
  rw [binding_modify hlt]
  split
  · rename_i hbc
    exact hbc ▸ hf
  · exact h c hlt

/-- What the changes of a batch keep. -/
structure Retains (n : Nat) (p q : Program) : Prop where
  steady : p.Steady q
  nextType : p.nextType ≤ q.nextType
  objects : q.objects.Sublist p.objects
  queued : p.Queued n → q.Queued n
  named : p.Named → q.Named
  founded : p.Founded → q.Founded
  single : p.Single → q.Single
  held : p.Held → q.Held
  keyed : p.types.Keyed → q.types.Keyed

theorem Retains.of_eq (hb : q.bindings = p.bindings) (hs : q.scope = p.scope)
    (hp : q.pending = p.pending) (hc : p.Contained q) (ho : q.objects.Sublist p.objects)
    (hh : p.Held → q.Held) : Retains n p q :=
  ⟨.of_eq hb, hc.nextType, ho, fun h => h.of_eq hb hp, fun h => h.of_eq hs (.of_eq hb),
    fun h => h.of_eq hb hc, fun h => h.of_steady (.of_eq hb) (by rw [hb]), hh, hc.keyed⟩

theorem Held.of_eq (h : p.Held) (hb : q.bindings = p.bindings) (hi : p.Inherits q) : q.Held :=
  h.inherits hi fun b hg => ⟨hb ▸ hg.1, by rw [binding, hb]; exact hg.2⟩

theorem Retains.of_types (hb : q.bindings = p.bindings) (hs : q.scope = p.scope)
    (hp : q.pending = p.pending) (ht : q.types = p.types) (hf : p.funs.size ≤ q.funs.size)
    (hn : q.nextType = p.nextType) : Retains n p q :=
  .of_eq hb hs hp (.of_eq ht hf hn) (objects_of_types ht) fun h => h.of_eq hb (.of_types ht)

theorem isGlobal_of_marks (h : q.marks = p.marks) (b : BindingId) : q.IsGlobal b ↔ p.IsGlobal b := by
  have hsize : q.bindings.size = p.bindings.size := by rw [← q.length_marks, h, p.length_marks]
  have hmark : b < p.bindings.size → (q.binding b).storage = (p.binding b).storage := fun hb => by
    have hnew := q.getElem?_marks b
    rw [h, p.getElem?_marks, Array.getElem?_eq_getElem hb,
      Array.getElem?_eq_getElem (hsize ▸ hb)] at hnew
    rw [binding, binding, Array.getD_eq_getD_getElem?, Array.getD_eq_getD_getElem?,
      Array.getElem?_eq_getElem hb, Array.getElem?_eq_getElem (hsize ▸ hb)]
    exact (congrArg Mark.storage (Option.some.inj hnew)).symm
  constructor
  · exact fun hg => ⟨hsize ▸ hg.1, (hmark (hsize ▸ hg.1)) ▸ hg.2⟩
  · exact fun hg => ⟨hsize ▸ hg.1, (hmark hg.1).trans hg.2⟩

theorem Retains.of_marks (hm : q.marks = p.marks) (hk : p.Steady q) (hs : q.scope = p.scope)
    (hp : q.pending = p.pending) (hc : p.Contained q) (ho : q.objects.Sublist p.objects)
    (hi : p.Inherits q) : Retains n p q := by
  have hsize : q.bindings.size = p.bindings.size := by rw [← q.length_marks, hm, p.length_marks]
  refine ⟨hk, hc.nextType, ho, fun h => ⟨fun b hn hg hplain => ?_, fun b hb => ?_⟩,
    fun h => h.of_eq hs hk, fun h b hb c hcall => ?_, fun h => h.of_steady hk hsize,
    fun h => h.inherits hi fun b => (isGlobal_of_marks hm b).mpr, hc.keyed⟩
  · have hg := (isGlobal_of_marks hm b).mp hg
    rw [hp]
    exact h.waiting b hn hg fun hold => hplain (hk.plain hg.1 hold)
  · exact (isGlobal_of_marks hm b).mpr (h.globals b (hp ▸ hb))
  · have hsame : (q.binding b).callable = (p.binding b).callable :=
      congrArg Prod.fst (hk.known b (hsize ▸ hb))
    exact (h b (hsize ▸ hb) c (hsame ▸ hcall)).mono hc

theorem Retains.refl (p : Program) : Retains n p p := .of_types rfl rfl rfl rfl (Nat.le_refl _) rfl

theorem Retains.trans (h : Retains n p q) (k : Retains n q r) : Retains n p r :=
  ⟨h.steady.trans k.steady, Nat.le_trans h.nextType k.nextType, k.objects.trans h.objects,
    fun hp => k.queued (h.queued hp), fun hp => k.named (h.named hp), fun hp => k.founded (h.founded hp),
    fun hp => k.single (h.single hp), fun hp => k.held (h.held hp), fun hp => k.keyed (h.keyed hp)⟩

theorem Retains.foldl {α : Type} {f : Program → α → Program} {I : Program → Prop} : (xs : List α) →
    (∀ (p : Program), I p → ∀ x ∈ xs, Retains n p (f p x) ∧ I (f p x)) → (p : Program) → I p →
      Retains n p (xs.foldl f p)
  | [], _, p, _ => .refl p
  | x :: xs, hf, p, hp => by
    obtain ⟨hx, hI⟩ := hf p hp x (by simp)
    exact hx.trans (foldl xs (fun q hq y hy => hf q hq y (by simp [hy])) _ hI)

theorem Alongside.retains (h : p.Alongside q) (ho : q.objects.Sublist p.objects)
    (hi : p.Inherits q) : Retains n p q :=
  .of_eq h.bindings h.scope h.pending h.contained ho fun hp => hp.of_eq h.bindings hi

theorem modifyType_retains (p : Program) (id : TypeId) {f : TypeDef → TypeDef}
    (hf : ∀ d, (f d).id = d.id ∧ (f d).name = d.name ∧ (f d).variants = d.variants)
    (hh : p.Held → (p.modifyType id f).Held) : Retains n p (p.modifyType id f) := by
  refine .of_eq rfl rfl rfl (p.modifyType_contained id fun d => ⟨(hf d).1, (hf d).2.1, ?_⟩)
    (p.modifyType_objects id fun d => ?_) hh
  · exact Nat.le_of_eq (by rw [(hf d).2.2])
  · simp only [TypeDef.objects, (hf d).2.2, List.Sublist.refl]

theorem addBinding_retains (p : Program) {x : Binding} (hx : x.Plain) : Retains n p (p.addBinding x).2 :=
  ⟨p.addBinding_steady x, Nat.le_refl _, objects_of_types rfl,
    fun h => h.addBinding hx, fun h => h.of_eq rfl (p.addBinding_steady x),
    fun h => Names.addBinding h hx.1, fun h => h.addBinding hx,
    fun h => h.inherits (.of_types rfl) fun _ => (p.addBinding_grows x).isGlobal, id⟩

theorem modifyBinding_isGlobal {b c : BindingId} {f : Binding → Binding}
    (hf : ∀ x, (f x).storage = x.storage) (h : p.IsGlobal c) : (p.modifyBinding b f).IsGlobal c := by
  refine ⟨by simpa [modifyBinding] using h.1, ?_⟩
  rw [binding_modify h.1]
  split
  · exact (hf _).trans h.2
  · exact h.2

theorem modifyBinding_retains (p : Program) (b : BindingId) {f : Binding → Binding}
    (hf : ∀ x, (f x).known = x.known ∧ (f x).storage = x.storage ∧ (f x).hidden = x.hidden)
    (hv : (f (p.binding b)).veil = (p.binding b).veil) : Retains n p (p.modifyBinding b f) := by
  have hsteady := p.modifyBinding_steady b (hf _).1 hv
  exact ⟨hsteady, Nat.le_refl _, objects_of_types rfl,
    fun h => h.modifyBinding b fun x => ⟨(hf x).1, (hf x).2.1⟩,
    fun h => h.modifyBinding b fun x => (hf x).2.2,
    fun h => Names.modifyBinding h b fun x c hc => .inl ((congrArg Prod.fst (hf x).1).symm.trans hc),
    fun h => h.of_steady hsteady (by simp [modifyBinding]),
    fun h => h.inherits (.of_types rfl) fun _ => modifyBinding_isGlobal fun x => (hf x).2.1, id⟩

theorem newSlot_retains (p : Program) (name : String) (tok : Token) :
    Retains n p (p.newSlot name tok).2 :=
  (p.addBinding_retains ⟨rfl, rfl⟩).trans (.of_types rfl rfl rfl rfl (Nat.le_refl _) rfl)

theorem newSlot_plain (p : Program) (name : String) (tok : Token) :
    ((p.newSlot name tok).2.binding p.bindings.size).Plain := by
  have hnew : (p.newSlot name tok).2.binding p.bindings.size
      = { name := name, index := p.slots.size, storage := .global, token := tok } :=
    binding_push_size p _
  rw [hnew]
  exact ⟨rfl, rfl⟩

theorem newSlot_shown (p : Program) (name : String) (tok : Token) :
    (p.newSlot name tok).2.Shown p.bindings.size := by
  refine ⟨by simp [newSlot, addBinding], ?_⟩
  have hnew : (p.newSlot name tok).2.binding p.bindings.size
      = { name := name, index := p.slots.size, storage := .global, token := tok } :=
    binding_push_size p _
  rw [hnew]

theorem declareGlobal_retains (p : Program) (name : String) (tok : Token) :
    Retains n p (p.declareGlobal name tok).2 := by
  obtain ⟨hsteady, hnext, hobjects, hqueued, -, hfounded, hsingle, hheld, hkeyed⟩ :=
    p.newSlot_retains (n := n) name tok
  refine ⟨hsteady.trans (.of_eq rfl), hnext, hobjects,
    fun h => (hqueued h).of_eq rfl rfl, fun h other b hb => ?_,
    fun h => (hfounded h).of_eq rfl (.of_eq rfl (Nat.le_refl _) rfl),
    fun h => (hsingle h).of_steady (.of_eq rfl) rfl,
    fun h => (hheld h).of_eq rfl (.of_types rfl), hkeyed⟩
  have hget : (p.scope.define name p.bindings.size).get? other = some b := hb
  rw [get?_define] at hget
  split at hget
  · obtain rfl := Option.some.inj hget
    exact p.newSlot_shown name tok
  · exact (h other b hget).steady (hsteady.trans (.of_eq rfl))

theorem noted_retains {b : BindingId} (hk : Retains n p q) (hnew : p.bindings.size ≤ b)
    (hg : q.IsGlobal b) {f : Binding → Binding} (hf : ∀ x, (f x).storage = x.storage)
    (hsingle : (f (q.binding b)).Single)
    (hc : ∀ x c, (f x).callable = some c → x.callable = some c ∨ c.Made q)
    (hn : p.Named → (q.modifyBinding b f).Named) :
    Retains n p ((q.modifyBinding b f).addPending b) :=
  ⟨(hk.steady.modifyBinding hnew f).trans (.of_eq rfl), hk.nextType, hk.objects,
    fun h => (hk.queued h).noted hg hf,
    fun h => (hn h).of_eq rfl (.of_eq rfl),
    fun h => Founded.of_eq (p := q.modifyBinding b f) (Names.modifyBinding (hk.founded h) b hc) rfl
      (.of_eq rfl (Nat.le_refl _) rfl),
    fun h => ((hk.single h).modifyBinding hsingle).of_steady (.of_eq rfl) rfl,
    fun h => (hk.held h).inherits (.of_types rfl) fun _ => modifyBinding_isGlobal hf, hk.keyed⟩

theorem local_retains {b : BindingId} (hk : Retains n p q) (hnew : p.bindings.size ≤ b)
    (hl : (q.binding b).storage ≠ .global) {f : Binding → Binding}
    (hf : ∀ x, (f x).storage = x.storage) (hsingle : (f (q.binding b)).Single)
    (hc : ∀ x c, (f x).callable = some c → x.callable = some c ∨ c.Made q)
    (hn : p.Named → (q.modifyBinding b f).Named) : Retains n p (q.modifyBinding b f) := by
  have hsize : (q.modifyBinding b f).bindings.size = q.bindings.size := by simp [modifyBinding]
  have hother : ∀ c < q.bindings.size, b ≠ c → (q.modifyBinding b f).binding c = q.binding c :=
    fun c hc hbc => by rw [binding_modify hc, if_neg hbc]
  refine ⟨hk.steady.modifyBinding hnew f, hk.nextType, hk.objects,
    fun h => ⟨fun c hn hg hplain => ?_, fun c hc => ?_⟩, hn,
    fun h => Names.modifyBinding (hk.founded h) b hc, fun h => (hk.single h).modifyBinding hsingle,
    fun h => (hk.held h).inherits (.of_types rfl) fun _ => modifyBinding_isGlobal hf, hk.keyed⟩
  · have hlt : c < q.bindings.size := hsize ▸ hg.1
    by_cases hbc : b = c
    · subst hbc
      refine absurd ?_ hl
      rw [← hg.2, binding_modify hlt, if_pos rfl, hf]
    · rw [IsGlobal, hother c hlt hbc] at hg
      rw [hother c hlt hbc] at hplain
      exact (hk.queued h).waiting c hn ⟨hlt, hg.2⟩ hplain
  · have hg := (hk.queued h).globals c hc
    refine ⟨hsize ▸ hg.1, ?_⟩
    rw [hother c hg.1 (fun hbc => hl (hbc ▸ hg.2))]
    exact hg.2

theorem Named.nameless (h : p.Named) (hs : q.scope = p.scope) (hk : p.Steady q) {b : BindingId}
    (hnew : p.bindings.size ≤ b) (f : Binding → Binding) : (q.modifyBinding b f).Named :=
  h.of_eq hs (hk.modifyBinding hnew f)

theorem hidden_retains {b : BindingId} (hk : Retains n p q) (hs : q.scope = p.scope)
    (hnew : p.bindings.size ≤ b) (hb : b < q.bindings.size) :
    Retains n p (q.modifyBinding b fun x => { x with hidden := true }) :=
  ⟨hk.steady.modifyBinding hnew _, hk.nextType, hk.objects,
    fun h => (hk.queued h).modifyBinding b fun _ => ⟨rfl, rfl⟩,
    fun h => h.nameless hs hk.steady hnew _,
    fun h => Names.modifyBinding (hk.founded h) b fun _ _ hc => .inl hc,
    fun h => (hk.single h).modifyBinding (hk.single h b hb),
    fun h => (hk.held h).inherits (.of_types rfl) fun _ => modifyBinding_isGlobal fun _ => rfl, hk.keyed⟩

theorem heldBy_held {b : BindingId} (hb : p.IsGlobal b) (id : TypeId) (h : p.Held) :
    (p.modifyType id fun d => d.heldBy (some b)).Held := by
  intro d hd c hc
  obtain ⟨e, he, rfl⟩ := Array.mem_map.mp hd
  split at hc
  · obtain rfl := Option.some.inj hc
    exact hb
  · exact h e he c hc

theorem typeBinding_retains (p : Program) (d : TypeDef) (tok : Token) :
    Retains n p (p.typeBinding d tok).2 := by
  unfold typeBinding
  split
  · exact .refl p
  · have hslot := p.newSlot_retains (n := n) ("$type:" ++ d.name) tok
    have hglobal := p.newSlot_isGlobal ("$type:" ++ d.name) tok
    have hnoted := noted_retains hslot (Nat.le_refl _) hglobal (f := fun x =>
        { x with hidden := true, typeValue := d.type, type := .type d.type }) (fun _ => rfl)
        (.inl (p.newSlot_plain ("$type:" ++ d.name) tok).1) (fun _ _ h => .inl h)
        fun h => h.nameless (q := (p.newSlot ("$type:" ++ d.name) tok).2) rfl hslot.steady
          (Nat.le_refl _) _
    refine hnoted.trans ((modifyType_retains _ d.id (f := fun d => d.heldBy (some p.bindings.size))
      (fun _ => ⟨rfl, rfl, rfl⟩) (heldBy_held ?_ _)).trans (.of_types rfl rfl rfl rfl (Nat.le_refl _) rfl))
    exact modifyBinding_isGlobal (p := (p.newSlot _ tok).2) (fun _ => rfl) hglobal

/-- Whether a program has the type with a number, with at least so many variants. -/
def HasVariants (p : Program) (id : TypeId) (k : Nat) : Prop :=
  id < p.nextType ∧ ∃ d ∈ p.types.defs, d.id = id ∧ k ≤ d.variants.length

theorem HasVariants.mono {id : TypeId} {k : Nat} (h : p.HasVariants id k) (hc : p.Contained q) :
    q.HasVariants id k := by
  obtain ⟨hid, d, hd, hdid, hk⟩ := h
  obtain ⟨e, he, heid, hlen⟩ := hc.types d hd
  exact ⟨Nat.lt_of_lt_of_le hid hc.nextType, e, he, heid.trans hdid, Nat.le_trans hk hlen⟩

theorem filterMap_modify {α β : Type} {f : α → α} {g : α → Option β} (h : ∀ a, g (f a) = g a) :
    (as : List α) → (i : Nat) → (as.modify i f).filterMap g = as.filterMap g
  | [], i => by simp
  | a :: as, 0 => by simp [List.filterMap_cons, h]
  | a :: as, i + 1 => by simp [List.filterMap_cons, filterMap_modify h as i]

theorem bindVariants_retains (p : Program) (hk : p.types.Keyed) {id : TypeId} (hid : id < p.nextType)
    (tok : Token) : Retains n p (p.bindVariants id tok) := by
  unfold bindVariants
  split
  · exact .refl p
  · rename_i d hd
    have hhas : p.HasVariants id d.variants.length :=
      ⟨hid, d, TypeTable.mem_of_byId? hd, hk.id_of_byId? hd, Nat.le_refl _⟩
    refine .foldl (I := (·.HasVariants id d.variants.length)) _ (fun p hp i _ => ?_) p hhas
    split
    · exact ⟨.refl p, hp⟩
    · rename_i v hv
      have hlt : i < d.variants.length := (List.getElem?_eq_some_iff.mp hv).1
      have hnoted := noted_retains (p.declareGlobal_retains (n := n) v.tag tok) (Nat.le_refl _)
        (p.declareGlobal_isGlobal v.tag tok) (f := fun x => { x with
          callable := some (.ctor id i)
          type := if v.isNullary then d.type
            else .func (ctorSig d v).params (ctorSig d v).result (ctorSig d v).variadic })
        (fun _ => rfl) (.inr (p.newSlot_plain v.tag tok).2) (fun _ c hc => .inr (by
          obtain rfl := Option.some.inj hc
          obtain ⟨hlt', e, he, heid, hlen⟩ := hp
          exact ⟨hlt', e, he, heid, Nat.lt_of_lt_of_le hlt hlen⟩))
        fun h => ((p.declareGlobal_retains (n := n) v.tag tok).named h).modifyBinding _ fun _ => rfl
      have htypes : p.Contained (p.modifyType id fun d =>
          { d with variants := d.variants.modify i fun v => { v with binding := some p.bindings.size } }) :=
        p.modifyType_contained id fun e => ⟨rfl, rfl, by simp⟩
      refine ⟨hnoted.trans (.of_eq rfl rfl rfl ⟨Nat.le_refl _, Nat.le_refl _, htypes.types, htypes.keyed⟩
        (modifyType_objects _ id fun e => ?_) fun h => h.of_eq rfl (modifyType_inherits _ id
          fun _ => rfl)), hp.mono ⟨Nat.le_refl _, Nat.le_refl _, htypes.types, htypes.keyed⟩⟩
      have hsame := filterMap_modify (f := fun v => { v with binding := some p.bindings.size })
        (g := fun v : Variant => v.object) (fun _ => rfl) e.variants i
      show (List.filterMap _ _).Sublist (List.filterMap _ _)
      exact (congrArg (List.Sublist · _) hsame).mpr (.refl _)

theorem settleVariants_retains (p : Program) (hk : p.types.Keyed) {id : TypeId} (hid : id < p.nextType)
    (hunused : p.Unused id) {vs : List Variant} (hvs : ∀ v ∈ vs, v.object = none) (tok : Token) :
    Retains n p ((p.modifyType id fun d => { d with variants := vs }).bindVariants id tok) := by
  have hobjects : ∀ d : TypeDef, ({ d with variants := vs } : TypeDef).objects.Sublist d.objects := by
    intro d
    have hnone : ({ d with variants := vs } : TypeDef).objects = [] :=
      List.filterMap_eq_nil_iff.mpr hvs
    rw [hnone]
    exact List.nil_sublist _
  have hset : Retains n p (p.modifyType id fun d => { d with variants := vs }) := by
    refine ⟨.of_eq rfl, Nat.le_refl _, p.modifyType_objects id hobjects, fun h => h.of_eq rfl rfl,
      fun h => h.of_eq rfl (.of_eq rfl), fun h b hb c hc => ?_, fun h => h,
      fun h => h.of_eq rfl (p.modifyType_inherits id fun _ => rfl),
      fun h => h.of_sameKeys (p.modifyType_sameKeys id fun _ => ⟨rfl, rfl⟩)⟩
    have hmade := h b hb c hc
    cases c with
    | ctor t i =>
      -- A binding names variants of other types only.
      obtain ⟨ht, d, hd, hdt, hi⟩ := hmade
      have hne : (d.id == id) = false := by
        rw [hdt]
        refine beq_false_of_ne fun heq => ?_
        exact hunused b hb _ hc i (by rw [heq])
      refine ⟨ht, d, Array.mem_map.mpr ⟨d, hd, ?_⟩, hdt, hi⟩
      rw [hne]
      rfl
    | _ => exact hmade
  exact hset.trans (bindVariants_retains _ (hset.keyed hk) hid tok)

theorem bindNative_retains (p : Program) {f : Native} (hf : (Native.object? f.name).isSome) :
    Retains n p (p.bindNative f) :=
  noted_retains (p.declareGlobal_retains f.name Token.blank) (Nat.le_refl _)
    (p.declareGlobal_isGlobal f.name Token.blank) (fun _ => rfl)
    (.inr (p.newSlot_plain f.name Token.blank).2) (fun _ _ h => .inr (Option.some.inj h ▸ hf))
    fun h => ((p.declareGlobal_retains (n := 0) f.name Token.blank).named h).modifyBinding _ fun _ => rfl

theorem initial_retains : Retains 0 { types := .ofList builtinTypes } initial := by
  let o : Program := { types := .ofList builtinTypes }
  let p := Native.globals.foldl bindNative o
  have hnative : Retains 0 o p := by
    have hall : ∀ f ∈ Native.globals, (Native.object? f.name).isSome := by decide
    exact .foldl (f := bindNative) (I := fun _ => True) _
      (fun p _ f hf => ⟨p.bindNative_retains (hall f hf), trivial⟩) o trivial
  have hroom : o.nextType ≤ p.nextType := hnative.nextType
  have hkeyed := hnative.keyed (.ofList builtinTypes)
  have hoption : Retains 0 p (p.bindVariants Ty.optionCon.id Token.blank) :=
    p.bindVariants_retains hkeyed (Nat.lt_of_lt_of_le (by decide) hroom) Token.blank
  have hresult : Retains 0 (p.bindVariants Ty.optionCon.id Token.blank)
      ((p.bindVariants Ty.optionCon.id Token.blank).bindVariants Ty.resultCon.id Token.blank) :=
    bindVariants_retains _ (hoption.keyed hkeyed) (Nat.lt_of_lt_of_le (by decide)
      (Nat.le_trans hroom hoption.nextType)) Token.blank
  exact hnative.trans (hoption.trans hresult)

theorem initial_queued : initial.Queued 0 ∧ initial.Named ∧ initial.Founded ∧ initial.Single ∧
    initial.Held := by
  have hnone : ({ types := .ofList builtinTypes } : Program).bindings.size = 0 := rfl
  refine ⟨initial_retains.queued ⟨fun b _ hg => ?_, fun b hb => ?_⟩,
    initial_retains.named fun name b hb => ?_, initial_retains.founded fun b hb => ?_,
    initial_retains.single fun b hb => ?_, initial_retains.held fun d hd b hb => ?_⟩
  · exact absurd hg.1 (hnone ▸ Nat.not_lt_zero b)
  · exact absurd hb (Array.not_mem_empty b)
  · simp [Scope.get?, Scope.top] at hb
  · exact absurd hb (hnone ▸ Nat.not_lt_zero b)
  · exact absurd hb (hnone ▸ Nat.not_lt_zero b)
  · have hall : ∀ d ∈ builtinTypes, d.binding = none := by decide
    rw [hall d (by simpa [TypeTable.ofList_defs] using Array.mem_toList_iff.mpr hd)] at hb
    cases hb

end Program

end Scripting
