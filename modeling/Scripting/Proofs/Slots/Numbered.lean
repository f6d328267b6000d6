import Scripting.Proofs.Scope.Loading

/-!
# How a program hands out global slots

`Program.Numbers o p` says what became of a program `o` when it has grown to `p`: the bindings of `o`
kept their marks, and the global ones among the new bindings took the next slots, one each and in the
order in which they were made. It holds of every change that a batch can make.
-/

namespace Scripting

/-- What never changes of a binding. -/
structure Mark where
  name : String
  storage : Storage
  index : Nat
  depth : Nat
deriving DecidableEq

def Binding.mark (x : Binding) : Mark := ⟨x.name, x.storage, x.index, x.depth⟩

def Mark.slot? (m : Mark) : Option (String × Nat) :=
  match m.storage with
  | .global => some (m.name, m.index)
  | .frame => none

namespace Program

variable {o p q : Program}

def marks (p : Program) : List Mark := p.bindings.toList.map Binding.mark

def Numbers (o p : Program) : Prop :=
  ∃ new : List Mark, p.marks = o.marks ++ new ∧
    p.slots.toList.zipIdx = o.slots.toList.zipIdx ++ new.filterMap Mark.slot?

theorem Numbers.of_eq (hb : p.marks = o.marks) (hs : p.slots = o.slots) : o.Numbers p :=
  ⟨[], by simp [hb], by simp [hs]⟩

theorem Numbers.refl (p : Program) : p.Numbers p := .of_eq rfl rfl

theorem Numbers.trans (h : o.Numbers p) (k : p.Numbers q) : o.Numbers q := by
  obtain ⟨new, hmarks, hslots⟩ := h
  obtain ⟨new', hmarks', hslots'⟩ := k
  refine ⟨new ++ new', ?_, ?_⟩
  · rw [hmarks', hmarks, List.append_assoc]
  · rw [hslots', hslots, List.filterMap_append, List.append_assoc]

theorem length_marks (p : Program) : p.marks.length = p.bindings.size := by simp [marks]

theorem getElem?_marks (p : Program) (b : BindingId) :
    p.marks[b]? = p.bindings[b]?.map Binding.mark := by simp [marks]

theorem Numbers.size (h : o.Numbers p) : o.bindings.size ≤ p.bindings.size := by
  obtain ⟨new, hmarks, -⟩ := h
  have hlength := congrArg List.length hmarks
  rw [List.length_append, length_marks, length_marks] at hlength
  omega

theorem Numbers.mark (h : o.Numbers p) {b : BindingId} (hb : b < o.bindings.size) :
    (p.binding b).mark = (o.binding b).mark := by
  obtain ⟨new, hmarks, -⟩ := id h
  have hold := o.getElem?_marks b
  have hnew := p.getElem?_marks b
  have hlt : b < o.marks.length := by rwa [length_marks]
  rw [hmarks, List.getElem?_append_left hlt, hold, Array.getElem?_eq_getElem hb,
    Array.getElem?_eq_getElem (Nat.lt_of_lt_of_le hb h.size)] at hnew
  simp only [binding, Array.getD_eq_getD_getElem?, Array.getElem?_eq_getElem hb,
    Array.getElem?_eq_getElem (Nat.lt_of_lt_of_le hb h.size), Option.getD_some]
  exact (Option.some.inj hnew).symm

theorem numbers_addBinding (p : Program) {x : Binding} (hx : x.storage = .frame) :
    p.Numbers (p.addBinding x).2 := by
  refine ⟨[x.mark], by simp [marks, addBinding], ?_⟩
  have hslot : x.mark.slot? = none := by simp [Mark.slot?, Binding.mark, hx]
  simp [addBinding, hslot]

theorem numbers_newSlot (p : Program) (name : String) (tok : Token) :
    p.Numbers (p.newSlot name tok).2 := by
  refine ⟨[⟨name, .global, p.slots.size, 0⟩], by simp [marks, newSlot, addBinding, Binding.mark], ?_⟩
  simp [newSlot, addBinding, Mark.slot?, List.zipIdx_append]

theorem numbers_declareGlobal (p : Program) (name : String) (tok : Token) :
    p.Numbers (p.declareGlobal name tok).2 :=
  (numbers_newSlot p name tok).trans (.of_eq rfl rfl)

theorem marks_modifyBinding (p : Program) (b : BindingId) {f : Binding → Binding}
    (hf : ∀ x, (f x).mark = x.mark) : (p.modifyBinding b f).marks = p.marks := by
  refine List.ext_getElem? fun i => ?_
  rw [getElem?_marks, getElem?_marks, modifyBinding, Array.getElem?_modify]
  split
  · cases p.bindings[i]? with
    | none => rfl
    | some x => exact congrArg some (hf x)
  · rfl

theorem numbers_modifyBinding (p : Program) (b : BindingId) {f : Binding → Binding}
    (hf : ∀ x, (f x).mark = x.mark) : p.Numbers (p.modifyBinding b f) :=
  .of_eq (p.marks_modifyBinding b hf) rfl

theorem numbers_typeBinding (p : Program) (d : TypeDef) (tok : Token) :
    p.Numbers (p.typeBinding d tok).2 := by
  unfold typeBinding
  split
  · exact .refl p
  · refine (numbers_newSlot p ("$type:" ++ d.name) tok).trans (.trans (numbers_modifyBinding _
      p.bindings.size (f := fun x => { x with
        hidden := true, typeValue := d.type, type := .type d.type }) fun _ => rfl) ?_)
    exact .of_eq rfl rfl

theorem numbers_foldl {α : Type} {f : Program → α → Program}
    (hf : ∀ (p : Program) x, p.Numbers (f p x)) :
    (xs : List α) → (p : Program) → p.Numbers (xs.foldl f p)
  | [], p => .refl p
  | x :: xs, p => (hf p x).trans (numbers_foldl hf xs (f p x))

theorem numbers_bindVariants (p : Program) (id : TypeId) (tok : Token) :
    p.Numbers (p.bindVariants id tok) := by
  unfold bindVariants
  split
  · exact .refl p
  · rename_i d _
    refine numbers_foldl (fun p i => ?_) _ p
    split
    · exact .refl p
    · rename_i v _
      refine (numbers_declareGlobal p v.tag tok).trans (.trans (numbers_modifyBinding _
        p.bindings.size (f := fun x => { x with
          callable := some (.ctor id i)
          type := if v.isNullary then d.type
            else .func (ctorSig d v).params (ctorSig d v).result (ctorSig d v).variadic })
        fun _ => rfl) ?_)
      exact .of_eq rfl rfl

/-- Whether the functions and the variants of a program are in another one too. -/
structure Contained (p q : Program) : Prop where
  funs : p.funs.size ≤ q.funs.size
  nextType : p.nextType ≤ q.nextType
  types : ∀ d ∈ p.types.defs, ∃ e ∈ q.types.defs, e.id = d.id ∧ d.variants.length ≤ e.variants.length
  keyed : p.types.Keyed → q.types.Keyed

theorem Contained.of_eq (ht : q.types = p.types) (hf : p.funs.size ≤ q.funs.size)
    (hn : q.nextType = p.nextType) : p.Contained q :=
  ⟨hf, Nat.le_of_eq hn.symm, fun d hd => ⟨d, ht ▸ hd, rfl, Nat.le_refl _⟩, fun h => ht ▸ h⟩

theorem Contained.refl (p : Program) : p.Contained p := .of_eq rfl (Nat.le_refl _) rfl

theorem Contained.trans (h : o.Contained p) (k : p.Contained q) : o.Contained q := by
  refine ⟨Nat.le_trans h.funs k.funs, Nat.le_trans h.nextType k.nextType, fun d hd => ?_,
    k.keyed ∘ h.keyed⟩
  obtain ⟨e, he, hid, hlen⟩ := h.types d hd
  obtain ⟨f, hf, hid', hlen'⟩ := k.types e he
  exact ⟨f, hf, hid'.trans hid, Nat.le_trans hlen hlen'⟩

theorem modifyType_contained (p : Program) (id : TypeId) {f : TypeDef → TypeDef}
    (hf : ∀ d, (f d).id = d.id ∧ (f d).name = d.name ∧ d.variants.length ≤ (f d).variants.length) :
    p.Contained (p.modifyType id f) := by
  refine ⟨Nat.le_refl _, Nat.le_refl _, fun d hd => ⟨_, Array.mem_map_of_mem hd, ?_⟩,
    fun h => h.of_sameKeys (p.modifyType_sameKeys id fun d => ⟨(hf d).1, (hf d).2.1⟩)⟩
  split
  · exact ⟨(hf d).1, (hf d).2.2⟩
  · exact ⟨rfl, Nat.le_refl _⟩

theorem Contained.push {d : TypeDef} (hn : p.nextType ≤ q.nextType)
    (hf : q.funs = p.funs) (ht : q.types = p.types.add d) : p.Contained q :=
  ⟨Nat.le_of_eq (by rw [hf]), hn, fun e he => ⟨e, by rw [ht]; exact Array.mem_push_of_mem d he, rfl,
    Nat.le_refl _⟩, fun h => ht ▸ h.add d⟩

/-- Whether programs differ at most in their types and in what comes from the host. -/
structure Alongside (p q : Program) : Prop where
  bindings : q.bindings = p.bindings
  scope : q.scope = p.scope
  slots : q.slots = p.slots
  funs : q.funs = p.funs
  functions : q.functions = p.functions
  pending : q.pending = p.pending
  contained : p.Contained q

theorem Alongside.refl (p : Program) : p.Alongside p := ⟨rfl, rfl, rfl, rfl, rfl, rfl, .refl p⟩

theorem Alongside.trans (h : o.Alongside p) (k : p.Alongside q) : o.Alongside q :=
  ⟨k.bindings.trans h.bindings, k.scope.trans h.scope, k.slots.trans h.slots, k.funs.trans h.funs,
    k.functions.trans h.functions, k.pending.trans h.pending, h.contained.trans k.contained⟩

theorem Alongside.numbers (h : p.Alongside q) : p.Numbers q :=
  .of_eq (congrArg (fun bs => bs.toList.map Binding.mark) h.bindings) h.slots

theorem Alongside.of_host {hs : Array HostFunction} {es : List HostId} {ks : List (String × HostId)}
    {ms : List String} {b : Option Batch} : p.Alongside { p with
      hosts := hs, extensions := es, hostKeys := ks, modules := ms, batch := b } :=
  ⟨rfl, rfl, rfl, rfl, rfl, rfl, .of_eq rfl (Nat.le_refl _) rfl⟩

theorem addType_alongside {d : TypeDef} {id : TypeId} (h : p.addType d = .ok (id, q)) :
    p.Alongside q := by
  unfold addType at h
  split at h
  · cases h
  · split at h
    · obtain ⟨-, rfl⟩ := Prod.mk.inj (Except.ok.inj h)
      exact ⟨rfl, rfl, rfl, rfl, rfl, rfl, Contained.push (Nat.le_succ _) rfl rfl⟩
    · obtain ⟨-, rfl⟩ := Prod.mk.inj (Except.ok.inj h)
      exact ⟨rfl, rfl, rfl, rfl, rfl, rfl, Contained.push (Nat.le_refl _) rfl rfl⟩

theorem addHost_alongside (p : Program) (f : HostFunction) : p.Alongside (p.addHost f).2 := by
  unfold addHost registerKey
  split <;> exact .of_host

theorem attachHost_alongside (p : Program) (id : TypeId) (f : HostFunction) :
    p.Alongside (p.attachHost id f).2 :=
  (addHost_alongside p f).trans ⟨rfl, rfl, rfl, rfl, rfl, rfl,
    modifyType_contained _ id fun _ => ⟨rfl, rfl, Nat.le_refl _⟩⟩

end Program

namespace Loading

open Program

def Leads (R : Program → Program → Prop) {α : Type} (m : Loading α) : Prop :=
  ∀ p : Program, R p (m.run.run p).2

/-- Whether a relation between programs can be followed step by step. -/
structure Walks (R : Program → Program → Prop) : Prop where
  refl : ∀ p, R p p
  trans : ∀ {o p q}, R o p → R p q → R o q

variable {R : Program → Program → Prop} {α β : Type}

theorem Walks.foldl (hR : Walks R) {f : Program → α → Program} (hf : ∀ (p : Program) x, R p (f p x)) :
    (xs : List α) → (p : Program) → R p (xs.foldl f p)
  | [], p => hR.refl p
  | x :: xs, p => hR.trans (hf p x) (foldl hR hf xs (f p x))

theorem Leads.bind (hR : Walks R) {m : Loading α} {f : α → Loading β} (hm : Leads R m)
    (hf : ∀ a, Leads R (f a)) : Leads R (m >>= f) := by
  intro p
  have hrun : ((m >>= f).run.run p) = ExceptT.bindCont f (m.run.run p).1 (m.run.run p).2 := rfl
  have h := hm p
  rw [hrun]
  cases hr : (m.run.run p).1 with
  | error e => exact h
  | ok a => exact hR.trans h (hf a _)

theorem Leads.ofGet {f : Program → Loading α} (hf : ∀ p, Leads R (f p)) :
    Leads R (get >>= f) := fun p => hf p p

theorem Leads.forM (hR : Walks R) {f : α → Loading Unit} : (xs : List α) →
    (∀ x ∈ xs, Leads R (f x)) → Leads R (xs.forM f)
  | [], _ => fun p => hR.refl p
  | x :: xs, hf => .bind hR (hf x (by simp)) fun _ => forM hR xs fun y hy => hf y (by simp [hy])

/-- Whether a relation allows every change that a module makes, adding types apart. -/
structure Hosts (R : Program → Program → Prop) : Prop extends Walks R where
  attach : ∀ (p : Program) id f, R p (p.attachHost id f).2
  host : ∀ (p : Program) f, R p (p.addHost f).2
  rest : ∀ {p : Program} {es : List HostId} {ms : List String} {u : Undo}, u.place? = none →
    R p ({ p with extensions := es, modules := ms }.record u)

theorem useModule_leads (hR : Hosts R) {load : String → Except LoadError HostModule} (name : String)
    (htype : ∀ m, load name = .ok m → ∀ x ∈ m.types, ∀ (p : Program) id q,
      p.addType { x.1 with module := m.name } = .ok (id, q) → R p q) :
    Leads R (useModule load name) := by
  refine .ofGet fun p => ?_
  dsimp only
  split
  · exact fun q => hR.refl q
  · split
    · exact fun q => hR.refl q
    · rename_i m hm
      refine .bind hR.toWalks (.forM hR.toWalks _ fun x hx p => ?_) fun _ =>
        .bind hR.toWalks (.forM hR.toWalks _ fun t _ p => ?_) fun _ =>
          .bind hR.toWalks (fun q => ?_) fun _ q => ?_
      · rw [addModuleType_run]
        split
        · exact hR.refl p
        · rename_i id q hq
          exact hR.trans (htype m hm x hx p id q hq) (hR.foldl (fun p f => hR.attach p id f) x.2 q)
      · rw [addModuleMethods_run]
        split
        · exact hR.refl p
        · exact hR.foldl (fun (p : Program) (x : String × HostFunction) =>
            hR.trans (hR.attach p _ x.2) (hR.rest rfl)) _ p
      · exact hR.foldl (fun p f => hR.trans (hR.host p f) (hR.rest rfl)) _ q
      · exact hR.rest rfl

/-- Whether a loading step touches only types and what comes from the host, also if it fails. -/
abbrev Alongside {α : Type} (m : Loading α) : Prop := Leads Program.Alongside m

theorem alongside_walks : Walks Program.Alongside := ⟨.refl, .trans⟩

theorem useModule_alongside (load : String → Except LoadError HostModule) (name : String) :
    Alongside (useModule load name) :=
  useModule_leads ⟨alongside_walks, attachHost_alongside, addHost_alongside, fun _ => .of_host⟩ name
    fun _ _ _ _ _ _ _ hq => addType_alongside hq

end Loading

end Scripting
