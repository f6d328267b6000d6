import Scripting.Proofs.Batch.Follows
import Scripting.Proofs.Scope.Hoisted

/-!
# Modules and unions in a batch

Loading a module and binding the variants of a union are made of changes that can be taken back, also
if they fail on the way.
-/

namespace Scripting

namespace Program

variable {o p q : Program}

theorem foldl_keeps {α : Type} {I : Program → Prop} {f : Program → α → Program}
    (hf : ∀ (p : Program) (a : α), I p → I (f p a)) :
    (xs : List α) → (p : Program) → I p → I (xs.foldl f p)
  | [], _, h => h
  | x :: xs, p, h => foldl_keeps hf xs (f p x) (hf p x h)

theorem bindVariants_follows (h : Follows o p) {id : TypeId} (hid : o.nextType ≤ id) (tok : Token) :
    Follows o (p.bindVariants id tok) := by
  rw [bindVariants]
  split
  · exact h
  · rename_i d _
    refine foldl_keeps (fun q i hq => ?_) _ p h
    split
    · exact hq
    · rename_i v _
      have hrooted := (q.bindVariant_loads id i v.tag tok (fun x => { x with
        callable := some (.ctor id i)
        type := if v.isNullary then d.type else
          .func (ctorSig d v).params (ctorSig d v).result (ctorSig d v).variadic })
        fun _ => ⟨rfl, rfl, rfl, fun h => h⟩).rooted hq.tidy.toRooted
      have hbound := (hq.declareGlobal v.tag tok).modifyBinding (b := q.bindings.size)
        (f := fun x => { x with
          callable := some (.ctor id i)
          type := if v.isNullary then d.type else
            .func (ctorSig d v).params (ctorSig d v).result (ctorSig d v).variadic })
        hq.longer.bindings fun _ => ⟨rfl, rfl, rfl, fun h => h⟩
      exact (hbound.modifyType hid (f := fun d => { d with variants := d.variants.modify i fun v =>
        { v with binding := some q.bindings.size } }) (fun _ => rfl) (fun _ => rfl) (fun _ => rfl)
          (fun _ => rfl) ⟨hrooted.names, hrooted.types, hrooted.variants⟩).addPending _

theorem addType_modules {d : TypeDef} {id : TypeId} (h : p.addType d = .ok (id, q)) :
    q.modules = p.modules := by
  rw [addType] at h
  split at h
  · cases h
  · split at h
    · obtain ⟨-, rfl⟩ := Prod.mk.inj (Except.ok.inj h)
      rfl
    · obtain ⟨-, rfl⟩ := Prod.mk.inj (Except.ok.inj h)
      rfl

theorem addHost_modules (p : Program) (f : HostFunction) : (p.addHost f).2.modules = p.modules := by
  simp only [addHost, registerKey]
  split <;> rfl

end Program

namespace Loading

open Program

variable {o : Program} {ms : List String}

def Holds (o : Program) (ms : List String) (p : Program) : Prop := Follows o p ∧ p.modules = ms

/-- Whether a loading step leads from `I` to `J`, and keeps the batch also if it fails. -/
def Stays (o : Program) (I J : Program → Prop) {α : Type} (m : Loading α) : Prop :=
  ∀ p, I p → match m.run.run p with
    | (.ok _, q) => J q
    | (.error _, q) => Follows o q

variable {I J K : Program → Prop}

theorem Stays.bind {α β : Type} {m : Loading α} {f : α → Loading β} (hm : Stays o I J m)
    (hf : ∀ a, Stays o J K (f a)) : Stays o I K (m >>= f) := by
  intro p hp
  have hrun : ((m >>= f).run.run p) = ExceptT.bindCont f (m.run.run p).1 (m.run.run p).2 := rfl
  have h := hm p hp
  rw [hrun]
  cases hr : m.run.run p with
  | mk r q =>
    rw [hr] at h
    cases r with
    | error e => exact h
    | ok a => exact hf a q h

theorem Stays.modify {f : Program → Program} (hf : ∀ p, I p → J (f p)) :
    Stays o I J (modify f : Loading Unit) := hf

theorem Stays.forM {α : Type} {f : α → Loading Unit} : {xs : List α} →
    (∀ x ∈ xs, Stays o I I (f x)) → Stays o I I (xs.forM f)
  | [], _ => fun _ hp => hp
  | x :: xs, hf => by
    have hcons : (x :: xs).forM f = (f x >>= fun _ => xs.forM f) := rfl
    rw [hcons]
    exact .bind (hf x (by simp)) fun _ => .forM fun y hy => hf y (by simp [hy])

theorem addModuleType_stays (module : String) {d : TypeDef} (hd : Bare d) (fs : List HostFunction) :
    Stays o (Holds o ms) (Holds o ms) (addModuleType module d fs) := by
  intro p hp
  rw [addModuleType_run]
  split
  · rename_i heq
    split at heq
    · cases heq
    · rename_i id q hq
      obtain ⟨-, rfl⟩ := Prod.mk.inj heq
      obtain ⟨hfollows, hid, -⟩ := hp.1.addType (d := { d with module })
        ⟨hd.unbound, hd.number, hd.methods, hd.hostMethods⟩ hq
      refine foldl_keeps (I := Holds o ms) (fun r f hr => ⟨hr.1.attachHost hid f, ?_⟩) fs q
        ⟨hfollows, (addType_modules hq).trans hp.2⟩
      exact (addHost_modules r f).trans hr.2
  · rename_i heq
    split at heq
    · obtain ⟨-, rfl⟩ := Prod.mk.inj heq
      exact hp.1
    · cases heq

theorem addModuleMethods_stays (m : HostModule) (type : String) :
    Stays o (Holds o ms) (Holds o ms) (addModuleMethods m type) := by
  intro p hp
  rw [addModuleMethods_run]
  cases p.type? type with
  | none => exact hp.1
  | some d =>
    refine foldl_keeps (I := Holds o ms) (fun r x hr => ⟨hr.1.addHostMethod _ x.2, ?_⟩) _ p hp
    exact (addHost_modules r x.2).trans hr.2

def BareLoader (load : String → Except LoadError HostModule) : Prop :=
  ∀ name m, load name = .ok m → ∀ x ∈ m.types, Bare x.1

def addLoaded (name : String) (m : HostModule) : Loading Unit := do
  m.types.forM fun (d, fs) => addModuleType m.name d fs
  ((m.methods.map Prod.fst).eraseDups.mergeSort fun a b => a ≤ b).forM (addModuleMethods m)
  modify fun p => m.extensions.foldl addExtension p
  modify fun p => p.addModule name

theorem addLoaded_stays {name : String} {m : HostModule} (hm : ∀ x ∈ m.types, Bare x.1)
    (hnew : name ∉ ms) : Stays o (Holds o ms) (Follows o) (addLoaded name m) := by
  refine .bind (.forM fun x hx => addModuleType_stays m.name (hm x hx) x.2) fun _ =>
    .bind (.forM fun t _ => addModuleMethods_stays m t) fun _ =>
      .bind (J := Holds o ms) (.modify fun q hq => ?_) fun _ => .modify fun q hq => ?_
  · refine foldl_keeps (I := Holds o ms) (fun r f hr => ⟨hr.1.addExtension f, ?_⟩) _ q hq
    exact (addHost_modules r f).trans hr.2
  · exact hq.1.addModule (hq.2 ▸ hnew)

theorem useModule_run (load : String → Except LoadError HostModule) (name : String) (p : Program) :
    (useModule load name).run.run p
      = (if p.modules.contains name then return else
        match load name with
        | .error e => throw e
        | .ok m => addLoaded name m : Loading Unit).run.run p := rfl

theorem useModule_stays {load : String → Except LoadError HostModule} (hload : BareLoader load)
    (name : String) : Stays o (Follows o) (Follows o) (useModule load name) := by
  intro p hp
  rw [useModule_run]
  by_cases hmem : p.modules.contains name
  · rw [if_pos hmem]
    exact hp
  · rw [if_neg hmem]
    cases hm : load name with
    | error e => exact hp
    | ok m => exact addLoaded_stays (hload name m hm) (by simpa using hmem) p ⟨hp, rfl⟩

theorem Stays.follows {α : Type} {m : Loading α} (hm : Stays o (Follows o) (Follows o) m) {p : Program}
    (h : Follows o p) : Follows o (m.run.run p).2 := by
  have hkeep := hm p h
  split at hkeep
  · rename_i heq
    rw [heq]
    exact hkeep
  · rename_i heq
    rw [heq]
    exact hkeep

theorem readTypeDecl_bare {implemented : String → Option Prim} {t : Manifest.TypeDecl}
    {x : TypeDef × List HostFunction} (h : Registry.readTypeDecl implemented t = .ok x) :
    Bare x.1 := by
  have hunbound := readTypeDecl_unbound h
  obtain ⟨bases, -, h⟩ := exists_of_bind_ok h
  obtain ⟨fs, -, h⟩ := exists_of_bind_ok h
  obtain rfl := Except.ok.inj h
  exact ⟨hunbound, rfl, rfl, rfl⟩

theorem loader_bare (r : Registry) : BareLoader (Engine.loader r) := by
  intro name m hm x hx
  obtain ⟨t, ht⟩ := loader_types hm x hx
  exact readTypeDecl_bare ht

end Loading

end Scripting
