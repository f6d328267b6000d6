import Scripting.Engine.Basic
import Scripting.Proofs.Scope.Growth

/-!
# Loading modules keeps what is at top level

Modules bring types and host functions, but no bindings and no functions of the program.
-/

namespace Scripting

namespace Program

/-- A change that adds no functions of the program, and keeps what is named at top level global. -/
structure Loads (p q : Program) : Prop where
  grows : p.Grows q
  funs : q.funs.size = p.funs.size
  rooted : p.Rooted → q.Rooted

theorem Loads.refl (p : Program) : p.Loads p := ⟨.refl p, rfl, id⟩

theorem Loads.trans {p q r : Program} (h : p.Loads q) (k : q.Loads r) : p.Loads r :=
  ⟨h.grows.trans k.grows, k.funs.trans h.funs, k.rooted ∘ h.rooted⟩

theorem Loads.of_grows {p q : Program} (hg : p.Grows q) (hf : q.funs.size = p.funs.size)
    (hs : q.scope = p.scope) (ht : q.types = p.types) : p.Loads q :=
  ⟨hg, hf, fun h => h.grow hg hs ht⟩

theorem record_loads (p : Program) (u : Undo) : p.Loads (p.record u) :=
  ⟨p.record_grows u, rfl, fun h => h.record u⟩

def Unbound (d : TypeDef) : Prop := d.binding = none ∧ ∀ v ∈ d.variants, v.binding = none

theorem modifyType_loads (p : Program) (id : TypeId) (f : TypeDef → TypeDef)
    (hf : ∀ d, (f d).id = d.id ∧ (f d).name = d.name) (hb : ∀ d, (f d).binding = d.binding)
    (hv : ∀ d, (f d).variants = d.variants) :
    p.Loads (p.modifyType id f) := by
  refine ⟨p.modifyType_grows id hf, rfl, fun h => modifyType_rooted h id f ?_ ?_⟩
  · intro d hd b hdb
    exact h.types d hd b (by rwa [← hb])
  · intro d hd v hdv b hvb
    exact h.variants d hd v (by rwa [← hv]) b hvb

theorem addMethod_loads (p : Program) (id : TypeId) (f : FunId) : p.Loads (p.addMethod id f) :=
  (modifyType_loads p id (·.addMethod f) (fun _ => ⟨rfl, rfl⟩) (fun _ => rfl) fun _ => rfl).trans
    (record_loads _ _)

theorem addType_loads {p q : Program} {d : TypeDef} {id : TypeId} (hd : Unbound d)
    (h : p.addType d = .ok (id, q)) : p.Loads q := by
  have hpush : ∀ (e : TypeDef) (n : TypeId), Unbound e →
      p.Loads { p with types := p.types.add e, nextType := n } := by
    intro e n he
    refine ⟨.of_eq rfl rfl fun hk => hk.add e, rfl, fun hr => ⟨hr.names, ?_, ?_⟩⟩
    · intro d' hd' b hb
      rcases Array.mem_push.mp hd' with hd' | rfl
      · exact hr.types d' hd' b hb
      · exact absurd (he.1.symm.trans hb) (by simp)
    · intro d' hd' v hv b hb
      rcases Array.mem_push.mp hd' with hd' | rfl
      · exact hr.variants d' hd' v hv b hb
      · exact absurd ((he.2 v hv).symm.trans hb) (by simp)
  rw [addType] at h
  split at h
  · cases h
  · split at h
    · obtain ⟨-, rfl⟩ := Prod.mk.inj (Except.ok.inj h)
      exact (hpush { d with id := p.nextType } _ ⟨hd.1, hd.2⟩).trans (record_loads _ _)
    · obtain ⟨-, rfl⟩ := Prod.mk.inj (Except.ok.inj h)
      exact (hpush d _ hd).trans (record_loads _ _)

theorem registerKey_loads (p : Program) (key : String) (h : HostId) :
    p.Loads (p.registerKey key h) := by
  rw [registerKey]
  split
  · exact .refl p
  · exact .of_grows (.of_eq rfl rfl id) rfl rfl rfl

theorem addHost_loads (p : Program) (f : HostFunction) : p.Loads (p.addHost f).2 :=
  have hpush : p.Loads { p with hosts := p.hosts.push f } := .of_grows (.of_eq rfl rfl id) rfl rfl rfl
  hpush.trans (registerKey_loads _ f.key p.hosts.size)

theorem attachHost_loads (p : Program) (id : TypeId) (f : HostFunction) :
    p.Loads (p.attachHost id f).2 :=
  (p.addHost_loads f).trans (modifyType_loads _ id (·.addHostMethod _ _)
    (fun _ => ⟨rfl, rfl⟩) (fun _ => rfl) fun _ => rfl)

theorem addHostMethod_loads (p : Program) (id : TypeId) (f : HostFunction) :
    p.Loads (p.addHostMethod id f) :=
  (p.attachHost_loads id f).trans (record_loads _ _)

theorem addExtension_loads (p : Program) (f : HostFunction) : p.Loads (p.addExtension f) :=
  (p.addHost_loads f).trans (.of_grows (.of_eq rfl rfl id) rfl rfl rfl)

theorem foldl_loads {α : Type} {f : Program → α → Program}
    (hf : ∀ (p : Program) (a : α), p.Loads (f p a)) :
    (xs : List α) → (p : Program) → p.Loads (xs.foldl f p)
  | [], p => .refl p
  | x :: xs, p => (hf p x).trans (foldl_loads hf xs (f p x))

end Program

namespace Loading

open Program

def Keeps {α : Type} (m : Loading α) : Prop := ∀ p : Program, p.Loads (m.run.run p).2

theorem Keeps.bind {α β : Type} {m : Loading α} {f : α → Loading β} (hm : Keeps m)
    (hf : ∀ a, Keeps (f a)) : Keeps (m >>= f) := by
  intro p
  have hrun : ((m >>= f).run.run p) = ExceptT.bindCont f (m.run.run p).1 (m.run.run p).2 := rfl
  have h := hm p
  rw [hrun]
  cases hr : (m.run.run p).1 with
  | error e => exact h
  | ok a => exact h.trans (hf a _)

theorem Keeps.pure {α : Type} (a : α) : Keeps (Pure.pure a : Loading α) :=
  fun p => .refl p

theorem Keeps.throw {α : Type} (e : LoadError) :
    Keeps (throw e : Loading α) := fun p => .refl p

theorem Keeps.modify {f : Program → Program} (hf : ∀ p : Program, p.Loads (f p)) :
    Keeps (modify f : Loading Unit) := hf

theorem Keeps.forM {α : Type} {f : α → Loading Unit} : {xs : List α} →
    (∀ x ∈ xs, Keeps (f x)) → Keeps (xs.forM f)
  | [], _ => .pure ()
  | x :: xs, hf => by
    have hcons : (x :: xs).forM f = (f x >>= fun _ => xs.forM f) := rfl
    rw [hcons]
    exact .bind (hf x (by simp)) fun _ => .forM fun y hy => hf y (by simp [hy])

theorem addModuleType_run (module : String) (d : TypeDef) (fs : List HostFunction) (p : Program) :
    (addModuleType module d fs).run.run p
      = match p.addType { d with module } with
        | .error msg => (.error ⟨"module " ++ module ++ ": " ++ msg, none⟩, p)
        | .ok (id, q) => (.ok (), fs.foldl (fun p f => (p.attachHost id f).2) q) := by
  have hrun : (addModuleType module d fs).run.run p = StateT.run (ExceptT.run
      (match p.addType { d with module } with
      | .error msg => (throw ⟨"module " ++ module ++ ": " ++ msg, none⟩ : Loading Unit)
      | .ok (id, q) => set (fs.foldl (fun p f => (p.attachHost id f).2) q))) p := rfl
  rw [hrun]
  split <;> rfl

theorem addModuleType_keeps (module : String) {d : TypeDef} (hd : Unbound d)
    (fs : List HostFunction) : Keeps (addModuleType module d fs) := by
  intro p
  rw [addModuleType_run]
  split
  · exact .refl p
  · rename_i id q hq
    have hadd : p.Loads q := addType_loads (d := { d with module }) hd hq
    exact hadd.trans (foldl_loads (fun p f => p.attachHost_loads id f) fs q)

theorem addModuleMethods_run (m : HostModule) (type : String) (p : Program) :
    (addModuleMethods m type).run.run p
      = match p.type? type with
        | none => (.error ⟨"module " ++ m.name ++ ": methods for unknown type " ++ type, none⟩, p)
        | some d => (.ok (), (m.methods.filter fun x => x.1 == type).foldl
            (fun p x => p.addHostMethod d.id x.2) p) := by
  have hrun : (addModuleMethods m type).run.run p = StateT.run (ExceptT.run
      (match p.type? type with
      | none => (throw ⟨"module " ++ m.name ++ ": methods for unknown type " ++ type, none⟩ :
          Loading Unit)
      | some d => set ((m.methods.filter fun x => x.1 == type).foldl
          (fun p x => p.addHostMethod d.id x.2) p))) p := rfl
  rw [hrun]
  split <;> rfl

theorem addModuleMethods_keeps (m : HostModule) (type : String) :
    Keeps (addModuleMethods m type) := by
  intro p
  have hset : ∀ d : TypeDef, p.Loads ((m.methods.filter fun x => x.1 == type).foldl
      (fun p x => p.addHostMethod d.id x.2) p) := fun d =>
    foldl_loads (fun (p : Program) (x : String × HostFunction) =>
      p.addHostMethod_loads d.id x.2) _ p
  rw [addModuleMethods_run]
  split
  · exact .refl p
  · exact hset _

def TidyLoader (load : String → Except LoadError HostModule) : Prop :=
  ∀ name m, load name = .ok m → ∀ x ∈ m.types, Unbound x.1

theorem Keeps.ofGet {α : Type} {f : Program → Loading α} (hf : ∀ p, Keeps (f p)) :
    Keeps (get >>= f) := fun p => hf p p

theorem useModule_keeps {load : String → Except LoadError HostModule} (hload : TidyLoader load)
    (name : String) : Keeps (useModule load name) := by
  refine .ofGet fun p => ?_
  dsimp only
  split
  · exact .pure ()
  · split
    · exact .throw _
    · rename_i m hm
      refine .bind (.forM fun x hx => ?_) fun _ => .bind (.forM fun t _ => ?_)
        fun _ => .bind (.modify fun q => ?_) fun _ => .modify fun q => ?_
      · exact addModuleType_keeps m.name (hload name m hm x hx) x.2
      · exact addModuleMethods_keeps m t
      · exact foldl_loads addExtension_loads _ q
      · exact .of_grows (.of_eq rfl rfl id) rfl rfl rfl

theorem exists_of_bind_ok {α β ε : Type} {x : Except ε α} {f : α → Except ε β} {b : β}
    (h : x >>= f = .ok b) : ∃ a, x = .ok a ∧ f a = .ok b := by
  cases x with
  | error e => cases h
  | ok a => exact ⟨a, rfl, h⟩

theorem eq_ok_of_mapError {α ε δ : Type} {f : ε → δ} {x : Except ε α} {a : α}
    (h : x.mapError f = .ok a) : x = .ok a := by
  cases x with
  | error e => cases h
  | ok b => exact congrArg Except.ok (Except.ok.inj h)

theorem exists_of_mem_mapM {α β ε : Type} {f : α → Except ε β} {xs : List α} {ys : List β}
    (h : xs.mapM f = .ok ys) : ∀ y ∈ ys, ∃ x ∈ xs, f x = .ok y := by
  induction xs generalizing ys with
  | nil =>
    obtain rfl : [] = ys := Except.ok.inj h
    simp
  | cons x xs ih =>
    rw [List.mapM_cons] at h
    obtain ⟨z, hz, h⟩ := exists_of_bind_ok h
    obtain ⟨zs, hzs, h⟩ := exists_of_bind_ok h
    obtain rfl : z :: zs = ys := Except.ok.inj h
    intro y hy
    rcases List.mem_cons.mp hy with rfl | hy
    · exact ⟨x, by simp, hz⟩
    · obtain ⟨w, hw, hwy⟩ := ih hzs y hy
      exact ⟨w, by simp [hw], hwy⟩

theorem readTypeDecl_unbound {implemented : String → Option Prim} {t : Manifest.TypeDecl}
    {x : TypeDef × List HostFunction} (h : Registry.readTypeDecl implemented t = .ok x) :
    Unbound x.1 := by
  obtain ⟨bases, -, h⟩ := exists_of_bind_ok h
  obtain ⟨fs, -, h⟩ := exists_of_bind_ok h
  obtain rfl := Except.ok.inj h
  exact ⟨rfl, by simp⟩

theorem loader_types {r : Registry} {name : String} {m : HostModule}
    (hm : Engine.loader r name = .ok m) : ∀ x ∈ m.types, ∃ t,
      Registry.readTypeDecl Library.implementation? t = .ok x := by
  intro x hx
  rw [Engine.loader, Registry.load] at hm
  split at hm
  · cases hm
  · obtain ⟨types, htypes, hm⟩ := exists_of_bind_ok (eq_ok_of_mapError hm)
    obtain ⟨methods, -, hm⟩ := exists_of_bind_ok hm
    obtain ⟨extensions, -, hm⟩ := exists_of_bind_ok hm
    obtain rfl := Except.ok.inj hm
    obtain ⟨t, -, ht⟩ := exists_of_mem_mapM htypes x hx
    exact ⟨t, ht⟩

theorem loader_tidy (r : Registry) : TidyLoader (Engine.loader r) := by
  intro name m hm x hx
  obtain ⟨t, ht⟩ := loader_types hm x hx
  exact readTypeDecl_unbound ht

end Loading

end Scripting
