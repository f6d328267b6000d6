import Mathlib.Data.List.Nodup
import Scripting.Proofs.Batch.Undone
import Scripting.Proofs.Scope.Naming

/-!
# A batch under way

`Follows o p` says that `p` came from `o`, and that taking back what its batch noted gives a program
alike to `o`. Every change of a program keeps this. `Follows.rollback` draws the conclusion: giving the
batch up restores the program that it began with, except for the slots and type numbers it took.
-/

namespace Scripting.Program

variable {o p q : Program}

/-- What is always true of the tables of a program: places are there, and the maps of the type table
lead to its types. -/
structure Tidy (p : Program) : Prop extends p.Rooted where
  indexed : p.Indexed
  methods : ∀ d ∈ p.types.defs, ∀ f ∈ d.methods, f < p.funs.size
  hostMethods : ∀ d ∈ p.types.defs, ∀ x ∈ d.hostMethods, x.2 < p.hosts.size
  extensionIds : ∀ h ∈ p.extensions, h < p.hosts.size

theorem Tidy.distinct (h : p.Tidy) {d e : TypeDef} (hd : d ∈ p.types.defs) (he : e ∈ p.types.defs)
    (heq : d.id = e.id) : d = e :=
  List.inj_on_of_nodup_map h.indexed.table.nodup_ids (by simpa using hd) (by simpa using he) heq

/-- A program whose tables have become longer. No function got an object. -/
structure Longer (p q : Program) : Prop where
  bindings : p.bindings.size ≤ q.bindings.size
  funs : p.funs.size ≤ q.funs.size
  hosts : p.hosts.size ≤ q.hosts.size
  pending : p.pending.size ≤ q.pending.size
  slots : p.slots.toList <+: q.slots.toList
  nextType : p.nextType ≤ q.nextType
  refs : ∀ i : FunId, (q.funs[i]?).bind (·.ref) = (p.funs[i]?).bind (·.ref)

theorem Longer.refl (p : Program) : p.Longer p :=
  ⟨Nat.le_refl _, Nat.le_refl _, Nat.le_refl _, Nat.le_refl _, List.prefix_rfl, Nat.le_refl _, fun _ => rfl⟩

theorem Longer.trans {r : Program} (h : p.Longer q) (k : q.Longer r) : p.Longer r :=
  ⟨Nat.le_trans h.bindings k.bindings, Nat.le_trans h.funs k.funs, Nat.le_trans h.hosts k.hosts,
    Nat.le_trans h.pending k.pending, h.slots.trans k.slots, Nat.le_trans h.nextType k.nextType,
    fun i => (k.refs i).trans (h.refs i)⟩

def Batch.Begins (b : Batch) (o : Program) : Prop :=
  b.bindings = o.bindings.size ∧ b.funs = o.funs.size ∧ b.hosts = o.hosts.size ∧
    b.pending = o.pending.size

structure Follows (o p : Program) : Prop where
  batch : p.batch.isSome = o.batch.isSome
  undone : ∀ b, p.batch = some b → b.Begins o ∧ Alike o (b.undo.foldl undo p) o
  longer : o.Longer p
  tidy : p.Tidy

theorem Tidy.begin (h : p.Tidy) : p.begin.Tidy :=
  ⟨⟨h.names, h.types, h.variants⟩, h.indexed.of_types rfl (Nat.le_refl _), h.methods, h.hostMethods,
    h.extensionIds⟩

theorem Follows.begin (h : o.Tidy) : Follows o.begin o.begin where
  batch := rfl
  undone b hb := by
    obtain rfl := Option.some.inj hb
    exact ⟨⟨rfl, rfl, rfl, rfl⟩, .refl _ _⟩
  longer := .refl _
  tidy := h.begin

theorem Follows.keep (h : Follows o p) (hq : Alike o q p) (hb : q.batch = p.batch)
    (hl : p.Longer q) (ht : q.Tidy) : Follows o q := by
  refine ⟨hb ▸ h.batch, fun b hqb => ?_, h.longer.trans hl, ht⟩
  obtain ⟨hbegins, hundone⟩ := h.undone b (hb ▸ hqb)
  exact ⟨hbegins, (hq.undoAll b.undo).trans hundone⟩

theorem Follows.note (h : Follows o p) {u : Undo} (hq : Alike o (q.undo u) p)
    (hb : q.batch = p.batch) (hl : p.Longer q) (ht : q.Tidy) : Follows o (q.record u) := by
  have hrecord := (Alike.record o q u).undo u
  refine ⟨?_, fun b hqb => ?_, h.longer.trans ⟨hl.bindings, hl.funs, hl.hosts, hl.pending, hl.slots,
    hl.nextType, hl.refs⟩, ⟨ht.toRooted.record u, ht.indexed.of_types rfl
      (Nat.le_refl _), ht.methods, ht.hostMethods,
      ht.extensionIds⟩⟩
  · rw [record, Option.isSome_map, hb]
    exact h.batch
  · obtain ⟨c, hc, rfl⟩ := Option.map_eq_some_iff.mp hqb
    obtain ⟨hbegins, hundone⟩ := h.undone c (hb ▸ hc)
    exact ⟨hbegins, ((hrecord.trans hq).undoAll c.undo).trans hundone⟩

theorem Tidy.grow (h : p.Tidy) (hg : p.Grows q) (hs : q.scope = p.scope) (ht : q.types = p.types)
    (hn : p.nextType ≤ q.nextType) (hh : p.hosts.size ≤ q.hosts.size)
    (he : q.extensions = p.extensions) : q.Tidy where
  toRooted := h.toRooted.grow hg hs ht
  indexed := h.indexed.of_types ht hn
  methods d hd f hf := Nat.lt_of_lt_of_le (h.methods d (ht ▸ hd) f hf) hg.funCount
  hostMethods d hd x hx := Nat.lt_of_lt_of_le (h.hostMethods d (ht ▸ hd) x hx) hh
  extensionIds x hx := Nat.lt_of_lt_of_le (h.extensionIds x (he ▸ hx)) hh

theorem Tidy.modifyType (h : p.Tidy) (id : TypeId) {f : TypeDef → TypeDef}
    (hr : (p.modifyType id f).Rooted) (hf : ∀ d, (f d).id = d.id ∧ (f d).name = d.name)
    (hm : ∀ d ∈ p.types.defs, ∀ i ∈ (f d).methods, i < p.funs.size)
    (hh : ∀ d ∈ p.types.defs, ∀ x ∈ (f d).hostMethods, x.2 < p.hosts.size) :
    (p.modifyType id f).Tidy := by
  refine ⟨hr, h.indexed.modifyType id hf, fun d hd i hi => ?_, fun d hd x hx => ?_, h.extensionIds⟩
  · obtain ⟨e, he, rfl⟩ := Array.mem_map.mp hd
    split at hi
    · exact hm e he i hi
    · exact h.methods e he i hi
  · obtain ⟨e, he, rfl⟩ := Array.mem_map.mp hd
    split at hx
    · exact hh e he x hx
    · exact h.hostMethods e he x hx

theorem getElem?_push_old {α : Type} {xs : Array α} {n : Nat} (h : n ≤ xs.size) (x : α) :
    ∀ i < n, (xs.push x)[i]? = xs[i]? := by
  intro i hi
  rw [Array.getElem?_push_lt (by omega), Array.getElem?_eq_getElem (by omega)]

theorem Follows.addBinding (h : Follows o p) (x : Binding) : Follows o (p.addBinding x).2 := by
  refine h.keep ⟨fun _ => rfl, Alike.of_types rfl, rfl, rfl, rfl, rfl, ?_, fun _ _ => rfl,
    fun _ _ => rfl, fun _ _ => rfl⟩ rfl ⟨by simp [Program.addBinding], Nat.le_refl _, Nat.le_refl _,
      Nat.le_refl _, List.prefix_rfl, Nat.le_refl _, fun _ => rfl⟩
    (h.tidy.grow (p.addBinding_grows x) rfl rfl (Nat.le_refl _) (Nat.le_refl _) rfl)
  exact getElem?_push_old h.longer.bindings x

theorem Follows.newSlot (h : Follows o p) (name : String) (tok : Token) :
    Follows o (p.newSlot name tok).2 := by
  have hadd := h.addBinding { name := name, index := p.slots.size, storage := .global, token := tok }
  refine hadd.keep ⟨fun _ => rfl, Alike.of_types rfl, rfl, rfl, rfl, rfl, fun _ _ => rfl,
    fun _ _ => rfl, fun _ _ => rfl, fun _ _ => rfl⟩ rfl ⟨Nat.le_refl _, Nat.le_refl _, Nat.le_refl _,
      Nat.le_refl _, ?_, Nat.le_refl _, fun _ => rfl⟩
    (hadd.tidy.grow (.of_eq rfl rfl id) rfl rfl (Nat.le_refl _) (Nat.le_refl _) rfl)
  simp [Program.newSlot, Program.addBinding]

theorem Follows.declareGlobal (h : Follows o p) (name : String) (tok : Token) :
    Follows o (p.declareGlobal name tok).2 := by
  have hslot := h.newSlot name tok
  have hrooted := declareGlobal_rooted h.tidy.toRooted name tok
  refine hslot.note ⟨fun other => ?_, Alike.of_types rfl, rfl, rfl, rfl, rfl, fun _ _ => rfl,
    fun _ _ => rfl, fun _ _ => rfl, fun _ _ => rfl⟩ rfl
    ⟨Nat.le_refl _, Nat.le_refl _, Nat.le_refl _, Nat.le_refl _, List.prefix_rfl, Nat.le_refl _, fun _ => rfl⟩
    ⟨⟨hrooted.names, hrooted.types, hrooted.variants⟩, hslot.tidy.indexed.of_types rfl (Nat.le_refl _),
      hslot.tidy.methods, hslot.tidy.hostMethods, hslot.tidy.extensionIds⟩
  have hscope : (p.newSlot name tok).2.scope = p.scope := rfl
  rw [Program.undo, get?_restore _ _ _ _ _ (by simp [get?_define])]
  split
  · rename_i hn
    rw [← hn, hscope]
  · rename_i hn
    rw [get?_define, if_neg hn]
    rfl

theorem Follows.modifyBinding (h : Follows o p) {b : BindingId} (hb : o.bindings.size ≤ b)
    {f : Binding → Binding} (hf : ∀ x, (f x).storage = x.storage ∧ (f x).index = x.index ∧
      (f x).depth = x.depth ∧ (x.captured = true → (f x).captured = true)) :
    Follows o (p.modifyBinding b f) :=
  h.keep (.ofNewBinding p hb f) rfl ⟨by simp [Program.modifyBinding], Nat.le_refl _, Nat.le_refl _,
      Nat.le_refl _, List.prefix_rfl, Nat.le_refl _, fun _ => rfl⟩
    (h.tidy.grow (p.modifyBinding_grows b f hf) rfl rfl (Nat.le_refl _) (Nat.le_refl _) rfl)

theorem Follows.addPending (h : Follows o p) (b : BindingId) : Follows o (p.addPending b) := by
  refine h.keep ⟨fun _ => rfl, Alike.of_types rfl, rfl, rfl, rfl, rfl, fun _ _ => rfl, fun _ _ => rfl,
    fun _ _ => rfl, ?_⟩ rfl ⟨Nat.le_refl _, Nat.le_refl _, Nat.le_refl _, by simp [Program.addPending],
      List.prefix_rfl, Nat.le_refl _, fun _ => rfl⟩
    (h.tidy.grow (.of_eq rfl rfl id) rfl rfl (Nat.le_refl _) (Nat.le_refl _) rfl)
  exact getElem?_push_old h.longer.pending b

theorem Follows.addFun (h : Follows o p) {f : UserFunction} (hf : f.ref = none) :
    Follows o (p.addFun f).2 := by
  refine h.keep ⟨fun _ => rfl, Alike.of_types rfl, rfl, rfl, rfl, rfl, fun _ _ => rfl, ?_,
    fun _ _ => rfl, fun _ _ => rfl⟩ rfl ⟨Nat.le_refl _, by simp [Program.addFun], Nat.le_refl _,
      Nat.le_refl _, List.prefix_rfl, Nat.le_refl _, fun i => ?_⟩
    (h.tidy.grow (p.addFun_grows f) rfl rfl (Nat.le_refl _) (Nat.le_refl _) rfl)
  · exact getElem?_push_old h.longer.funs f
  · rw [Program.addFun, Array.getElem?_push]
    split
    · rename_i hi
      rw [hi, Array.getElem?_eq_none (Nat.le_refl _), Option.bind_some, hf, Option.bind_none]
    · rfl

theorem modifyFun_refs (p : Program) (id : FunId) {f : UserFunction → UserFunction}
    (hf : ∀ x, (f x).ref = x.ref) (i : FunId) :
    ((p.modifyFun id f).funs[i]?).bind (·.ref) = (p.funs[i]?).bind (·.ref) := by
  rw [Program.modifyFun, Array.getElem?_modify]
  split
  · cases p.funs[i]? with
    | none => rfl
    | some x => exact hf x
  · rfl

theorem Follows.modifyFun (h : Follows o p) {id : FunId} (hid : o.funs.size ≤ id)
    {f : UserFunction → UserFunction} (hf : ∀ x, (f x).arity = x.arity ∧ (f x).ref = x.ref) :
    Follows o (p.modifyFun id f) :=
  h.keep (.ofNewFun p hid f) rfl ⟨Nat.le_refl _, by simp [Program.modifyFun], Nat.le_refl _,
      Nat.le_refl _, List.prefix_rfl, Nat.le_refl _, modifyFun_refs p id fun x => (hf x).2⟩
    (h.tidy.grow (p.modifyFun_grows id f fun x => (hf x).1) rfl rfl (Nat.le_refl _) (Nat.le_refl _)
      rfl)

theorem Follows.addFunction (h : Follows o p) (name : String) (id : FunId) :
    Follows o (p.addFunction name id) := by
  refine h.note ⟨fun _ => rfl, Alike.of_types rfl, ?_, rfl, rfl, rfl, fun _ _ => rfl, fun _ _ => rfl,
    fun _ _ => rfl, fun _ _ => rfl⟩ rfl ⟨Nat.le_refl _, Nat.le_refl _, Nat.le_refl _,
      Nat.le_refl _, List.prefix_rfl, Nat.le_refl _, fun _ => rfl⟩
    (h.tidy.grow (.of_eq rfl rfl fun h => h) rfl rfl (Nat.le_refl _) (Nat.le_refl _) rfl)
  simp [Program.undo]

theorem Alike.retype {id : TypeId} {f g : TypeDef → TypeDef} (hid : ∀ d, (f d).id = d.id)
    (h : ∀ d ∈ p.types.defs, d.id = id → g (f d) = d) :
    Alike o ((p.modifyType id f).modifyType id g) p := by
  refine ⟨fun _ => rfl, Alike.of_types (TypeTable.eq_of_maps ?_ rfl rfl rfl), rfl, rfl, rfl, rfl,
    fun _ _ => rfl, fun _ _ => rfl, fun _ _ => rfl, fun _ _ => rfl⟩
  rw [modifyType_defs, modifyType_defs, Array.map_map]
  refine (Array.map_congr_left fun d hd => ?_).trans (Array.map_id' p.types.defs)
  by_cases hdid : d.id = id
  · simp [hdid, hid, h d hd hdid]
  · simp [hdid]

theorem Longer.modifyType (p : Program) (id : TypeId) (f : TypeDef → TypeDef) :
    p.Longer (p.modifyType id f) :=
  ⟨Nat.le_refl _, Nat.le_refl _, Nat.le_refl _, Nat.le_refl _, List.prefix_rfl, Nat.le_refl _, fun _ => rfl⟩

theorem Follows.addMethod (h : Follows o p) (id : TypeId) {f : UserFunction} (hf : f.ref = none) :
    Follows o ((p.addFun f).2.addMethod id p.funs.size) := by
  have hadd := h.addFun hf
  have hsize : (p.addFun f).2.funs.size = p.funs.size + 1 := by simp [Program.addFun]
  refine hadd.note (Alike.retype (f := (·.addMethod _)) (fun _ => rfl) fun d hd _ => ?_) rfl
    (.modifyType _ _ _) (hadd.tidy.modifyType id ?_ (fun _ => ⟨rfl, rfl⟩) ?_ hadd.tidy.hostMethods)
  · exact TypeDef.removeMethod_addMethod fun hmem => Nat.lt_irrefl _ (h.tidy.methods d hd _ hmem)
  · exact (modifyType_loads _ id (·.addMethod _) (fun _ => ⟨rfl, rfl⟩) (fun _ => rfl) fun _ => rfl).rooted
      hadd.tidy.toRooted
  · intro d hd i hi
    rw [hsize]
    rcases List.mem_append.mp hi with hi | hi
    · exact Nat.lt_succ_of_lt (h.tidy.methods d hd i hi)
    · rw [List.mem_singleton.mp hi]
      exact Nat.lt_succ_self _

/-- A type that brings nothing of the program with it, and has no number yet. -/
structure Bare (d : TypeDef) : Prop where
  unbound : Unbound d
  number : d.id = 0
  methods : d.methods = []
  hostMethods : d.hostMethods = []

theorem Follows.addType {d : TypeDef} {id : TypeId} (h : Follows o p) (hd : Bare d)
    (hadd : p.addType d = .ok (id, q)) : Follows o q ∧ o.nextType ≤ id ∧ id < q.nextType := by
  have hrooted := (addType_loads hd.unbound hadd).rooted h.tidy.toRooted
  have hindexed := h.tidy.indexed.addType hd.number hadd
  obtain ⟨hname, rfl, rfl⟩ := addType_eq hd.number hadd
  refine ⟨h.note ⟨fun _ => rfl, Alike.of_types ?_, rfl, rfl, rfl, rfl, fun _ _ => rfl,
    fun _ _ => rfl, fun _ _ => rfl, fun _ _ => rfl⟩ rfl ⟨Nat.le_refl _, Nat.le_refl _, Nat.le_refl _,
      Nat.le_refl _, List.prefix_rfl, Nat.le_succ _, fun _ => rfl⟩ ⟨⟨hrooted.names, hrooted.types,
        hrooted.variants⟩, hindexed.of_types rfl (Nat.le_refl _), ?_, ?_, h.tidy.extensionIds⟩,
    h.longer.nextType, Nat.lt_succ_self _⟩
  · exact h.tidy.indexed.table.remove_add hname h.tidy.indexed.next_unused
  · intro e he i hi
    rcases Array.mem_push.mp he with he | rfl
    · exact h.tidy.methods e he i hi
    · simp [hd.methods] at hi
  · intro e he x hx
    rcases Array.mem_push.mp he with he | rfl
    · exact h.tidy.hostMethods e he x hx
    · simp [hd.hostMethods] at hx

theorem Follows.modifyType (h : Follows o p) {id : TypeId} (hid : o.nextType ≤ id)
    {f : TypeDef → TypeDef} (hname : ∀ d, (f d).name = d.name) (hnumber : ∀ d, (f d).id = d.id)
    (hm : ∀ d, (f d).methods = d.methods) (hh : ∀ d, (f d).hostMethods = d.hostMethods)
    (hr : (p.modifyType id f).Rooted) : Follows o (p.modifyType id f) := by
  refine h.keep (.ofNewType p hid hname hnumber) rfl (.modifyType p id f)
    (h.tidy.modifyType id hr (fun d => ⟨hnumber d, hname d⟩) ?_ ?_)
  · intro d hd i hi
    exact h.tidy.methods d hd i (by rwa [← hm])
  · intro d hd x hx
    exact h.tidy.hostMethods d hd x (by rwa [← hh])

theorem Follows.typeBinding (h : Follows o p) {d : TypeDef} (hd : d ∈ p.types.defs) (tok : Token) :
    Follows o (p.typeBinding d tok).2 := by
  have hrooted := Resolve.typeBinding_rooted h.tidy.toRooted d tok
  rw [Program.typeBinding] at hrooted ⊢
  split
  · exact h
  · rename_i hnone
    rw [hnone] at hrooted
    have hbase := ((h.newSlot ("$type:" ++ d.name) tok).modifyBinding (b := p.bindings.size)
      (f := fun x => { x with hidden := true, typeValue := d.type, type := .type d.type })
      h.longer.bindings fun _ => ⟨rfl, rfl, rfl, fun h => h⟩).addPending p.bindings.size
    refine hbase.note (Alike.retype (f := (·.heldBy _)) (fun _ => rfl) fun e he heq => ?_) rfl
      (.modifyType _ _ _) (hbase.tidy.modifyType d.id ⟨hrooted.names, hrooted.types, hrooted.variants⟩
        (fun _ => ⟨rfl, rfl⟩) hbase.tidy.methods hbase.tidy.hostMethods)
    obtain rfl := h.tidy.distinct he hd heq
    rw [← hnone]
    rfl

theorem Follows.registerKey (h : Follows o p) (key : String) (f : HostId) :
    Follows o (p.registerKey key f) := by
  rw [Program.registerKey]
  split
  · exact h
  · rename_i hnone
    refine h.note ⟨fun _ => rfl, Alike.of_types rfl, rfl, rfl, rfl, ?_, fun _ _ => rfl,
      fun _ _ => rfl, fun _ _ => rfl, fun _ _ => rfl⟩ rfl ⟨Nat.le_refl _, Nat.le_refl _, Nat.le_refl _,
        Nat.le_refl _, List.prefix_rfl, Nat.le_refl _, fun _ => rfl⟩
      (h.tidy.grow (.of_eq rfl rfl id) rfl rfl (Nat.le_refl _) (Nat.le_refl _) rfl)
    have hnew : ∀ x ∈ p.hostKeys, ¬ (x.1 == key) = true := by
      rw [Bool.not_eq_true, Option.isSome_eq_false_iff, Option.isNone_iff_eq_none,
        List.lookup_eq_none_iff] at hnone
      intro x hx heq
      exact absurd (hnone x hx) (by simp [eq_of_beq heq])
    simp only [Program.undo]
    rw [List.eraseP_append_right _ hnew]
    simp

theorem Follows.addHost (h : Follows o p) (f : HostFunction) : Follows o (p.addHost f).2 := by
  have hpush : Follows o { p with hosts := p.hosts.push f } := by
    refine h.keep ⟨fun _ => rfl, Alike.of_types rfl, rfl, rfl, rfl, rfl, fun _ _ => rfl,
      fun _ _ => rfl, ?_, fun _ _ => rfl⟩ rfl ⟨Nat.le_refl _, Nat.le_refl _, by simp, Nat.le_refl _,
        List.prefix_rfl, Nat.le_refl _, fun _ => rfl⟩
      (h.tidy.grow (.of_eq rfl rfl id) rfl rfl (Nat.le_refl _) (by simp) rfl)
    exact getElem?_push_old h.longer.hosts f
  exact hpush.registerKey f.key p.hosts.size

theorem addHost_hosts (p : Program) (f : HostFunction) :
    (p.addHost f).2.hosts.size = p.hosts.size + 1 := by
  simp only [Program.addHost, Program.registerKey]
  split <;> simp [record]

theorem addHost_types (p : Program) (f : HostFunction) : (p.addHost f).2.types = p.types := by
  simp only [Program.addHost, Program.registerKey]
  split <;> rfl

theorem addHost_extensions (p : Program) (f : HostFunction) :
    (p.addHost f).2.extensions = p.extensions := by
  simp only [Program.addHost, Program.registerKey]
  split <;> rfl

theorem Tidy.attachHost (h : p.Tidy) (id : TypeId) {f : HostFunction} (ht : (p.addHost f).2.Tidy) :
    (p.attachHost id f).2.Tidy := by
  refine Tidy.modifyType (f := (·.addHostMethod _ _)) ht id ?_ (fun _ => ⟨rfl, rfl⟩) ht.methods ?_
  · exact (modifyType_loads _ id (·.addHostMethod _ _) (fun _ => ⟨rfl, rfl⟩)
      (fun _ => rfl) fun _ => rfl).rooted ht.toRooted
  · intro d hd x hx
    rw [addHost_types] at hd
    rw [addHost_hosts]
    rcases List.mem_append.mp hx with hx | hx
    · exact Nat.lt_succ_of_lt (h.hostMethods d hd x hx)
    · rw [List.mem_singleton.mp hx]
      exact Nat.lt_succ_self _

theorem Follows.attachHost (h : Follows o p) {id : TypeId} (hid : o.nextType ≤ id)
    (f : HostFunction) : Follows o (p.attachHost id f).2 := by
  have hadd := h.addHost f
  exact hadd.keep (.ofNewType _ hid (fun _ => rfl) fun _ => rfl) rfl (.modifyType _ _ _)
    (h.tidy.attachHost id hadd.tidy)

theorem Follows.addHostMethod (h : Follows o p) (id : TypeId) (f : HostFunction) :
    Follows o (p.addHostMethod id f) := by
  have hadd := h.addHost f
  refine hadd.note (Alike.retype (f := (·.addHostMethod _ _)) (fun _ => rfl) fun d hd _ => ?_) rfl
    (.modifyType _ _ _) (h.tidy.attachHost id hadd.tidy)
  have hold : d ∈ p.types.defs := addHost_types p f ▸ hd
  exact TypeDef.removeHostMethod_addHostMethod fun hmem =>
    Nat.lt_irrefl _ (h.tidy.hostMethods d hold _ hmem)

theorem Follows.extend (h : Follows o p) {f : HostId} (hf : f < p.hosts.size)
    (hnew : f ∉ p.extensions) :
    Follows o ({ p with extensions := p.extensions ++ [f] }.record (.extension f)) := by
  refine h.note ⟨fun _ => rfl, Alike.of_types rfl, rfl, rfl, ?_, rfl, fun _ _ => rfl,
    fun _ _ => rfl, fun _ _ => rfl, fun _ _ => rfl⟩ rfl ⟨Nat.le_refl _, Nat.le_refl _, Nat.le_refl _,
      Nat.le_refl _, List.prefix_rfl, Nat.le_refl _, fun _ => rfl⟩
    ⟨⟨h.tidy.names, h.tidy.types, h.tidy.variants⟩, h.tidy.indexed.of_types rfl (Nat.le_refl _),
      h.tidy.methods, h.tidy.hostMethods, ?_⟩
  · simp [Program.undo, List.erase_append_right _ hnew]
  · intro x hx
    rcases List.mem_append.mp hx with hx | hx
    · exact h.tidy.extensionIds x hx
    · rwa [List.mem_singleton.mp hx]

theorem Follows.addExtension (h : Follows o p) (f : HostFunction) :
    Follows o (p.addExtension f) := by
  refine (h.addHost f).extend ?_ ?_
  · rw [addHost_hosts]
    exact Nat.lt_succ_self _
  · rw [addHost_extensions]
    exact fun hmem => Nat.lt_irrefl _ (h.tidy.extensionIds _ hmem)

theorem Follows.addModule (h : Follows o p) {name : String} (hnew : name ∉ p.modules) :
    Follows o (p.addModule name) := by
  refine h.note ⟨fun _ => rfl, Alike.of_types rfl, rfl, ?_, rfl, rfl, fun _ _ => rfl, fun _ _ => rfl,
    fun _ _ => rfl, fun _ _ => rfl⟩ rfl ⟨Nat.le_refl _, Nat.le_refl _, Nat.le_refl _, Nat.le_refl _,
      List.prefix_rfl, Nat.le_refl _, fun _ => rfl⟩
    (h.tidy.grow (.of_eq rfl rfl id) rfl rfl (Nat.le_refl _) (Nat.le_refl _) rfl)
  simp [Program.undo, List.erase_append_right _ hnew]

/-- A program after a batch that was given up: it is `o`, except that slots and type numbers may be
used up. -/
structure Restored (o p : Program) : Prop where
  names : ∀ name, p.scope.get? name = o.scope.get? name
  types : p.types = o.types
  functions : p.functions = o.functions
  modules : p.modules = o.modules
  extensions : p.extensions = o.extensions
  hostKeys : p.hostKeys = o.hostKeys
  bindings : p.bindings = o.bindings
  funs : p.funs = o.funs
  hosts : p.hosts = o.hosts
  pending : p.pending = o.pending
  slots : o.slots.toList <+: p.slots.toList
  nextType : o.nextType ≤ p.nextType

theorem Restored.refl (p : Program) : p.Restored p :=
  ⟨fun _ => rfl, rfl, rfl, rfl, rfl, rfl, rfl, rfl, rfl, rfl, List.prefix_rfl, Nat.le_refl _⟩

theorem undo_slots (p : Program) (u : Undo) : (p.undo u).slots = p.slots := by
  cases u <;> rfl

theorem undoAll_slots (us : List Undo) : (us.foldl undo p).slots = p.slots := by
  induction us generalizing p with
  | nil => rfl
  | cons u us ih => rw [List.foldl_cons, ih, undo_slots]

theorem undoAll_nextType (us : List Undo) : (us.foldl undo p).nextType = p.nextType := by
  induction us generalizing p with
  | nil => rfl
  | cons u us ih => rw [List.foldl_cons, ih, undo_nextType]

theorem take_eq_of_getElem? {α : Type} {xs ys : Array α}
    (h : ∀ i < ys.size, xs[i]? = ys[i]?) : xs.take ys.size = ys := by
  apply Array.ext_getElem?
  intro i
  rw [Array.take_eq_extract, Array.getElem?_extract]
  by_cases hi : i < ys.size
  · rw [← h i hi]
    by_cases hx : i < xs.size
    · rw [if_pos (by omega), Nat.zero_add]
    · rw [if_neg (by omega), Array.getElem?_eq_none (by omega)]
  · rw [if_neg (by omega), Array.getElem?_eq_none (by omega)]

theorem Alike.types_eq (h : Alike o p q) (hq : ∀ d ∈ q.types.defs, d.id < o.nextType) :
    p.types = q.types := by
  have hsame : ∀ {ds es : List TypeDef}, List.Forall₂ (TypeDef.Alike o) ds es →
      (∀ d ∈ es, d.id < o.nextType) → ds = es := by
    intro ds es hall
    induction hall with
    | nil => exact fun _ => rfl
    | cons hd _ ih =>
      intro hold
      rw [ih fun d hd => hold d (by simp [hd]), hd.old (hd.id ▸ hold _ (by simp))]
  exact TypeTable.eq_of_maps (Array.toList_inj.mp (hsame h.types.defs fun d hd => hq d (by simpa using hd)))
    h.types.names h.types.simpleNames h.types.ids

theorem Follows.rollback (ho : o.Tidy) (h : Follows o.begin p) : o.Restored p.rollback := by
  obtain ⟨b, hb⟩ : ∃ b, p.batch = some b := Option.isSome_iff_exists.mp (h.batch.trans rfl)
  obtain ⟨⟨hbindings, hfuns, hhosts, hpending⟩, hundone⟩ := h.undone b hb
  have hslots := undoAll_slots (p := p) b.undo
  have hnext := undoAll_nextType (p := p) b.undo
  rw [Program.rollback, hb]
  dsimp only [truncate]
  rw [hbindings, hfuns, hhosts, hpending]
  exact ⟨hundone.names, hundone.types_eq ho.indexed.given, hundone.functions, hundone.modules,
    hundone.extensions, hundone.hostKeys, take_eq_of_getElem? hundone.bindings,
    take_eq_of_getElem? hundone.funs, take_eq_of_getElem? hundone.hosts,
    take_eq_of_getElem? hundone.pending, hslots ▸ h.longer.slots, hnext ▸ h.longer.nextType⟩

end Scripting.Program
