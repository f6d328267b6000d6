import Scripting.Proofs.Scope.Loading
import Scripting.Proofs.Scope.Resolved

/-!
# Batches

The declarations of a batch are made before its bodies are resolved, and number its functions first.
`Source.resolve_scoped` collects what is known of a batch that was resolved.
-/

namespace Scripting

namespace Program

theorem declareGlobal_loads (p : Program) (name : String) (tok : Token) :
    p.Loads (p.declareGlobal name tok).2 :=
  ⟨p.declareGlobal_grows name tok, rfl, fun h => declareGlobal_rooted h name tok⟩

theorem modifyBinding_loads (p : Program) (b : BindingId) (f : Binding → Binding)
    (hf : ∀ x, (f x).storage = x.storage ∧ (f x).index = x.index ∧ (f x).depth = x.depth ∧
      (x.captured = true → (f x).captured = true)) : p.Loads (p.modifyBinding b f) :=
  .of_grows (p.modifyBinding_grows b f hf) rfl rfl rfl

theorem bindVariant_loads (p : Program) (id : TypeId) (i : Nat) (name : String) (tok : Token)
    (f : Binding → Binding) (hf : ∀ x, (f x).storage = x.storage ∧ (f x).index = x.index ∧
      (f x).depth = x.depth ∧ (x.captured = true → (f x).captured = true)) :
    p.Loads ((((p.declareGlobal name tok).2.modifyBinding (p.declareGlobal name tok).1 f).modifyType id
      fun d => { d with variants := d.variants.modify i fun v =>
        { v with binding := some (p.declareGlobal name tok).1 } }).addPending
          (p.declareGlobal name tok).1) := by
  have hdecl := p.declareGlobal_loads name tok
  have hmod := modifyBinding_loads (p.declareGlobal name tok).2 (p.declareGlobal name tok).1 f hf
  have hb := hmod.grows.isGlobal (p.declareGlobal_isGlobal name tok)
  have hall := hdecl.trans hmod
  refine ⟨hall.grows.trans (.of_eq rfl rfl fun h => h.of_sameKeys (modifyType_sameKeys _ id
    fun _ => ⟨rfl, rfl⟩)), hall.funs, fun h => ?_⟩
  have hr := hall.rooted h
  refine (modifyType_rooted hr id (fun d => { d with variants := d.variants.modify i fun v =>
    { v with binding := some (p.declareGlobal name tok).1 } }) hr.types ?_).grow
    (.of_eq rfl rfl fun h => h) rfl rfl
  intro d hd v hv b hvb
  obtain ⟨j, hj, rfl⟩ := List.mem_iff_getElem.mp hv
  rw [List.length_modify] at hj
  rw [List.getElem_modify] at hvb
  split at hvb
  · obtain rfl := Option.some.inj hvb
    exact hb
  · exact hr.variants d hd _ (List.getElem_mem hj) b hvb

theorem bindVariants_loads (p : Program) (id : TypeId) (tok : Token) :
    p.Loads (p.bindVariants id tok) := by
  rw [bindVariants]
  split
  · exact .refl p
  · rename_i d _
    refine foldl_loads (fun q i => ?_) _ p
    dsimp only
    split
    · exact .refl q
    · exact q.bindVariant_loads id i _ tok _ fun _ => ⟨rfl, rfl, rfl, fun h => h⟩

end Program

namespace Resolve

theorem onProgram_loads {α : Type} {f : Program → α × Program}
    (hf : ∀ q : Program, q.Loads (f q).2) : Gives (onProgram f) fun _ _ k _ l => l = k := by
  refine fun s => ⟨⟨(hf _).grows, growsAll_refl _, id⟩, ?_⟩
  intro p _ _ k hk
  exact ⟨k, hk.withProgram (hf _).grows ((hf _).rooted hk.rooted) (hf _).funs, .refl k,
    fun _ _ => rfl⟩

theorem useModule_gives {load : String → Except LoadError HostModule}
    (hload : Loading.TidyLoader load) (tok : Token) (path : List String) :
    Gives (useModule load tok path) fun _ _ k _ l => l = k := by
  rw [useModule]
  refine ((onProgram_loads fun q => Loading.useModule_keeps hload _ q).bind
    (Q := fun _ _ _ k _ l => l = k) fun r => ?_).mono ?_
  · cases r with
    | ok u => exact (Gives.pure ()).mono fun _ _ _ _ _ h => h.2
    | error e => exact (Gives.report _ _ _).mono fun _ _ _ _ _ h => h.elim
  · rintro p R k a l ⟨_, i, rfl, rfl⟩
    rfl

theorem declareType_gives (name : Name) (kind : TypeDef.Kind) :
    Gives (declareType name kind) fun _ _ k _ l => l = k := by
  intro s
  apply GivesAt.ofGet
  split
  · exact Gives.ofFailure none _ s
  · rename_i id q hq
    have hloads : s.program.Loads q := Program.addType_loads ⟨rfl, by simp⟩ hq
    refine ⟨⟨hloads.grows, growsAll_refl _, fun h => h⟩, ?_⟩
    intro p _ _ k hk
    exact ⟨k, hk.withProgram hloads.grows (hloads.rooted hk.rooted) hloads.funs, .refl k,
      fun _ _ => rfl⟩

theorem fields_gives : (fs : List FieldDecl) → (seen : List String) →
    Gives (fields seen fs) fun _ _ k _ l => l = k
  | [], seen => (Gives.pure []).mono fun _ _ _ _ _ h => h.2
  | f :: fs, seen => by
    rw [fields]
    split
    · refine ((Gives.report _ _ _).bind fun _ => fields_gives fs seen).mono ?_
      rintro p R k a l ⟨_, i, h, -⟩
      exact h.elim
    · intro s
      apply GivesAt.ofGet
      split
      · refine (((fields_gives fs (f.name :: seen)).bind fun rest => Gives.pure _) s).mono ?_
        rintro p R k a l ⟨_, i, rfl, -, rfl⟩
        rfl
      · refine (((Gives.failed _).bind fun _ => fields_gives fs (f.name :: seen)) s).mono ?_
        rintro p R k a l ⟨_, i, h, -⟩
        exact h.elim

theorem variants_gives (union : String) : (vs : List VariantDecl) → (seen : List String) →
    Gives (variants union seen vs) fun _ _ k _ l => l = k
  | [], seen => (Gives.pure _).mono fun _ _ _ _ _ h => h.2
  | v :: vs, seen => by
    rw [variants]
    split
    · exact .ofFailure none _
    · refine ((fields_gives v.fields []).bind fun fs => (variants_gives union vs _).bind fun rest =>
        Gives.pure _).mono ?_
      rintro p R k a l ⟨fs, i, rfl, rest, j, rfl, -, rfl⟩
      rfl

theorem variants_unbound (union : String) : (vs : List VariantDecl) → (seen : List String) →
    (s : State) → ∀ ws, ((variants union seen vs).run s).1 = some ws → ∀ w ∈ ws, w.binding = none
  | [], seen, s, ws, h => by
    obtain rfl : [] = ws := Option.some.inj h
    simp
  | v :: vs, seen, s, ws, h => by
    rw [variants] at h
    split at h
    · cases h
    · obtain ⟨us, hus, rfl⟩ := Option.map_eq_some_iff.mp h
      intro w hw
      rcases List.mem_cons.mp hw with rfl | hw
      · rfl
      · exact variants_unbound union vs _ _ us hus w hw

theorem defineRecord_gives (id : TypeId) (decls : List FieldDecl) :
    Gives (defineRecord id decls) fun _ _ k _ l => l = k := by
  refine ((fields_gives decls []).bind fun fs => onProgram_loads fun q => ?_).mono ?_
  · exact Program.modifyType_loads q id _ (fun _ => ⟨rfl, rfl⟩) (fun _ => rfl) fun _ => rfl
  · rintro p R k a l ⟨_, i, rfl, rfl⟩
    rfl

theorem defineVariants_loads (q : Program) (id : TypeId) (tok : Token) {vs : List Variant}
    (hvs : ∀ v ∈ vs, v.binding = none) :
    q.Loads ((q.modifyType id fun d => { d with variants := vs }).bindVariants id tok) := by
  have hmod : q.Loads (q.modifyType id fun d => { d with variants := vs }) := by
    refine ⟨q.modifyType_grows id fun _ => ⟨rfl, rfl⟩, rfl, fun h =>
      Program.modifyType_rooted h id _ h.types ?_⟩
    intro d _ v hv b hb
    exact absurd ((hvs v hv).symm.trans hb) (by simp)
  exact hmod.trans (Program.bindVariants_loads _ id tok)

theorem defineUnion_gives (id : TypeId) (name : Name) (decls : List VariantDecl) :
    Gives (defineUnion id name decls) fun _ _ k _ l => l = k := by
  intro s
  refine (((variants_gives name.text decls []) s).bind (Q := fun _ _ _ k _ l => l = k) ?_).mono ?_
  · cases hvs : ((variants name.text [] decls).run s).1 with
    | none => exact ((Gives.pure ()).mono fun _ _ _ _ _ h => h.2) _
    | some vs =>
      exact onProgram_loads (fun q => defineVariants_loads q id name.token
        (variants_unbound name.text decls [] s vs hvs)) _
  · rintro p R k a l ⟨_, i, rfl, rfl⟩
    rfl

/-- Whether the table of functions has a declared function, with its number of arguments. -/
def Listed (p : Program) (id : FunId) (d : FunDecl .parsed) : Prop :=
  ∃ f, p.funs[id]? = some f ∧ f.arity = (userFunction d).arity

theorem addMethod_gives (d : TypeDef) (m : FunDecl .parsed) :
    Gives (addMethod d m) fun p _ k id l => Numbers m p k id l := by
  refine ((addFun_gives m { userFunction m with owner := some d.type } rfl).bind fun id =>
    (onProgram_loads fun q => Program.addMethod_loads q d.id id).bind fun _ => Gives.pure id).mono ?_
  rintro p R k a l ⟨id, i, hnum, -, j, rfl, rfl, rfl⟩
  exact hnum

theorem addMethods_gives (d : TypeDef) : (ms : List (FunDecl .parsed)) →
    Gives (addMethods d ms) fun p _ k ids l => List.Forall₂ (Listed p) ids ms ∧
      ids = List.range' k.count ms.length ∧ l.count = k.count + ms.length
  | [] => by
    rw [addMethods, List.mapM_nil]
    refine (Gives.pure []).mono ?_
    rintro p R k a l ⟨rfl, rfl⟩
    exact ⟨.nil, rfl, rfl⟩
  | m :: ms => by
    rw [addMethods, List.mapM_cons]
    refine ((addMethod_gives d m).bind fun id => (addMethods_gives d ms).bind fun ids =>
      Gives.pure (id :: ids)).mono ?_
    rintro p R k a l ⟨id, i, hid, ids, j, ⟨hlisted, rfl, hj⟩, rfl, rfl⟩
    refine ⟨.cons hid.listed hlisted, ?_, ?_⟩
    · rw [hid.number, hid.count, List.length_cons, List.range'_succ]
    · rw [hj, hid.count, List.length_cons]
      omega

def Hoisted.ids : Hoisted → List FunId
  | .nothing => []
  | .func id _ => [id]
  | .impl ids => ids

def Given (p : Program) : Stmt .parsed → Hoisted → Prop
  | .func d, .func id b => Listed p id d ∧ (p.binding b).storage = .global
  | .impl _ _ ms, .impl ids => List.Forall₂ (Listed p) ids ms
  | _, .nothing => True
  | _, _ => False

/-- What declaring a statement in advance leaves behind: functions are numbered in order. -/
def Hoists (t : Stmt .parsed) (p : Program) (_ : Region) (k : Known) (h : Hoisted) (l : Known) :
    Prop :=
  Given p t h ∧ ∃ n, h.ids = List.range' k.count n ∧ l.count = k.count + n

theorem given_nothing (p : Program) (t : Stmt .parsed) : Given p t .nothing := by
  cases t <;> trivial

theorem hoists_nothing (t : Stmt .parsed) : Gives (pure .nothing) (Hoists t) := by
  refine (Gives.pure Hoisted.nothing).mono ?_
  rintro p R k h l ⟨rfl, rfl⟩
  exact ⟨given_nothing p t, 0, rfl, rfl⟩

theorem declareImpl_gives (tok : Token) (name : Name) (ms : List (FunDecl .parsed)) :
    Gives (declareImpl name ms) (Hoists (.impl tok name ms)) := by
  intro s
  apply GivesAt.ofGet
  split
  · exact .ofFailure _ _
  · exact .ofFailure _ _
  · rename_i d _
    split
    · refine (((addMethods_gives d ms).bind fun ids => Gives.pure (Hoisted.impl ids)) s).mono ?_
      rintro p R k h l ⟨ids, i, ⟨hlisted, hids, hcount⟩, rfl, rfl⟩
      exact ⟨hlisted, ms.length, hids, hcount⟩
    · exact .ofFailure _ _

theorem declareFunction_gives (d : FunDecl .parsed) :
    Gives (declareFunction d) (Hoists (.func d)) := by
  refine ((declareGlobal_gives d.name.text d.name.token).bind fun b => (bindFunction_gives d b).bind
    fun id => (onProgram_loads fun q => ?_).bind fun _ => Gives.pure (Hoisted.func id b)).mono ?_
  · exact .of_grows (.of_eq rfl rfl fun h => h) rfl rfl rfl
  · rintro p R k h l ⟨b, i, ⟨rfl, hb⟩, id, j, hid, -, m, rfl, rfl, rfl⟩
    exact ⟨⟨hid.listed, hb⟩, 1, by rw [Hoisted.ids, hid.number]; rfl, hid.count⟩

theorem forM_gives {α : Type} {f : α → Resolve Unit}
    (hf : ∀ a, Gives (f a) fun _ _ k _ l => l = k) : (as : List α) →
    Gives (as.forM f) fun _ _ k _ l => l = k
  | [] => (Gives.pure ()).mono fun _ _ _ _ _ h => h.2
  | a :: as => by
    refine ((hf a).bind fun _ => forM_gives hf as).mono ?_
    rintro p R k u l ⟨_, i, rfl, rfl⟩
    rfl

theorem mapM_gives {α β : Type} {f : α → Resolve β}
    (hf : ∀ a, Gives (f a) fun _ _ k _ l => l = k) : (as : List α) →
    Gives (as.mapM f) fun _ _ k _ l => l = k
  | [] => (Gives.pure []).mono fun _ _ _ _ _ h => h.2
  | a :: as => by
    rw [List.mapM_cons]
    refine ((hf a).bind fun _ => (mapM_gives hf as).bind fun _ => Gives.pure _).mono ?_
    rintro p R k u l ⟨_, i, rfl, _, j, rfl, -, rfl⟩
    rfl

def HoistsAll (ts : List (Stmt .parsed)) (p : Program) (_ : Region) (k : Known) (hs : List Hoisted)
    (l : Known) : Prop :=
  List.Forall₂ (Given p) ts hs ∧
    ∃ n, hs.flatMap Hoisted.ids = List.range' k.count n ∧ l.count = k.count + n

theorem mapM_hoists {f : Stmt .parsed → Resolve Hoisted} (hf : ∀ t, Gives (f t) (Hoists t))
    (ts : List (Stmt .parsed)) : Gives (ts.mapM f) (HoistsAll ts) := by
  induction ts with
  | nil =>
    rw [List.mapM_nil]
    refine (Gives.pure []).mono ?_
    rintro p R k a l ⟨rfl, rfl⟩
    exact ⟨.nil, 0, rfl, rfl⟩
  | cons t ts ih =>
    rw [List.mapM_cons]
    refine ((hf t).bind fun h => ih.bind fun hs => Gives.pure (h :: hs)).mono ?_
    rintro p R k a l ⟨h, i, ⟨hgiven, n, hids, hcount⟩, hs, j, ⟨hgivens, m, hids', hcount'⟩, rfl, rfl⟩
    refine ⟨.cons hgiven hgivens, n + m, ?_, by omega⟩
    rw [List.flatMap_cons, hids, hids', hcount, List.range'_append_1]

theorem hoist_gives {load : String → Except LoadError HostModule} (hload : Loading.TidyLoader load)
    (ts : List (Stmt .parsed)) : Gives (hoist load ts) (HoistsAll ts) := by
  rw [hoist]
  refine ((forM_gives (fun t => ?_) ts).bind fun _ => (mapM_gives (fun t => ?_) ts).bind fun ids =>
    (forM_gives (fun x => ?_) _).bind fun _ => mapM_hoists (fun t => ?_) ts).mono ?_
  · split
    · exact useModule_gives hload _ _
    · exact (Gives.pure ()).mono fun _ _ _ _ _ h => h.2
  · split
    · exact declareType_gives _ _
    · exact declareType_gives _ _
    · exact (Gives.pure none).mono fun _ _ _ _ _ h => h.2
  · split
    · exact defineRecord_gives _ _
    · exact defineUnion_gives _ _ _
    · exact (Gives.pure ()).mono fun _ _ _ _ _ h => h.2
  · split
    · exact declareImpl_gives _ _ _
    · exact declareFunction_gives _
    · exact hoists_nothing _
  · rintro p R k hs l ⟨-, i, rfl, -, j, rfl, -, m, rfl, h⟩
    exact h

/-- What resolving a statement at top level leaves behind. Functions that were not numbered in advance
are numbered now. -/
def KeepsTop (h : Hoisted) (p : Program) (R : Region) (k : Known) (t : Stmt .resolved)
    (l : Known) : Prop :=
  l.top = k.top.afterStmt p t ∧ Scoped.stmt p R k.top t ∧ ∃ ds, Ids k.count l.count ds ∧
    ((Decls.stmt t).map (·.info.id)).Perm (h.ids ++ ds.map (·.info.id))

theorem KeepsStmt.keepsTop {p : Program} {R : Region} {k l : Known} {t : Stmt .resolved}
    (h : KeepsStmt p R k t l) : KeepsTop .nothing p R k t l :=
  ⟨h.1, h.2.1, _, h.2.2, .refl _⟩

theorem Gives.plain {m : Resolve (Stmt .resolved)} (h : Gives m KeepsStmt) (t : Stmt .parsed)
    (g : Hoisted) (hg : ∀ p, Given p t g → g = .nothing) :
    Gives m fun p R k u l => Given p t g → k.slots = [] → KeepsTop g p R k u l := by
  refine h.mono ?_
  intro p R k u l hu hgiven _
  rw [hg p hgiven]
  exact hu.keepsTop

theorem funcs_gives : (ms : List (FunDecl .parsed)) → (ids : List FunId) →
    Gives (funcs ids ms) fun p _ k ts l => List.Forall₂ (Listed p) ids ms → k.slots = [] →
      l.slots = k.slots ∧ Scoped.funcs p ts ∧ ∃ ds, Ids k.count l.count ds ∧
        ((Decls.funcs ts).map (·.info.id)).Perm (ids ++ ds.map (·.info.id))
  | [], ids => by
    rw [funcs.eq_def]
    split
    · rename_i heq
      cases heq
    · refine (Gives.pure []).mono ?_
      rintro p R k a l ⟨rfl, rfl⟩ hlisted _
      cases hlisted
      exact ⟨rfl, trivial, [], .nil (Nat.le_refl _), .refl _⟩
  | m :: ms, [] => by
    rw [funcs.eq_def]
    refine (Gives.pure []).mono ?_
    rintro p R k a l ⟨rfl, rfl⟩ hlisted _
    cases hlisted
  | .mk tok nm u hasSelf ps r (.mk u' bt ss close) :: ms, id :: ids => by
    rw [funcs]
    refine ((func_gives id none (stmts_gives ss)).bind fun d => (funcs_gives ms ids).bind fun ds =>
      Gives.pure (d :: ds)).mono ?_
    rintro p R k a l ⟨d, i, hd, ds, j, hds, rfl, rfl⟩ hlisted hk
    cases hlisted with
    | cons hm hms =>
      have hi : i.slots = [] := hd.slots.trans hk
      obtain ⟨hslots, hscoped, es, hes, hperm⟩ := hds hms hi
      refine ⟨hslots.trans hd.slots, ⟨⟨hd.outside hk, hd.body hm⟩, hscoped⟩,
        Decls.block d.body ++ es, hd.ids.append hes, ?_⟩
      have hfront : ∀ B F E : List FunId, F.Perm (ids ++ E) →
          (id :: (B ++ F)).Perm (id :: (ids ++ (B ++ E))) := by
        intro B F E hF
        have hswap : (B ++ (ids ++ E)).Perm (ids ++ (B ++ E)) := by
          rw [← List.append_assoc, ← List.append_assoc]
          exact List.perm_append_comm.append_right E
        exact ((hF.append_left B).trans hswap).cons id
      rw [Decls.funcs, Decls.func_eq, List.map_append, List.map_cons, List.map_append, hd.number]
      exact hfront _ _ _ hperm

theorem topFunc_gives (id : FunId) (b : BindingId) (d : FunDecl .parsed) :
    Gives (do return Stmt.func (← func id (some b) d)) fun p R k t l =>
      Given p (.func d) (.func id b) → k.slots = [] → KeepsTop (.func id b) p R k t l := by
  obtain ⟨tok, nm, u, hasSelf, ps, r, ⟨u', bt, ss, close⟩⟩ := d
  refine ((func_gives id (some b) (stmts_gives ss)).bind fun d =>
    Gives.pure (Stmt.func d : Stmt .resolved)).mono ?_
  rintro p R k t l ⟨d, i, hd, rfl, rfl⟩ ⟨hlisted, hb⟩ hk
  refine ⟨?_, ⟨?_, hd.body hlisted⟩, _, hd.ids, ?_⟩
  · rw [top_eq hd.slots, Slots.afterStmt, hd.binding]
    exact (add_of_global hb).symm
  · rw [Slots.Names, hd.binding, hd.outside hk]
    exact ⟨fun hframe => absurd (hframe.symm.trans hb) (by decide), fun _ => rfl, by simp⟩
  · rw [Decls.stmt, Decls.func_eq, List.map_cons, hd.number]
    exact .refl _

theorem topImpl_gives (tok : Token) (nm : Name) (ids : List FunId) (ms : List (FunDecl .parsed)) :
    Gives (do return Stmt.impl tok nm (← funcs ids ms)) fun p R k t l =>
      Given p (.impl tok nm ms) (.impl ids) → k.slots = [] → KeepsTop (.impl ids) p R k t l := by
  refine ((funcs_gives ms ids).bind fun ds =>
    Gives.pure (Stmt.impl tok nm ds : Stmt .resolved)).mono ?_
  rintro p R k t l ⟨ds, i, hds, rfl, rfl⟩ hlisted hk
  obtain ⟨hslots, hscoped, es, hes, hperm⟩ := hds hlisted hk
  exact ⟨top_eq hslots, hscoped, es, hes, hperm⟩

theorem Given.eq_nothing {p : Program} {t : Stmt .parsed} {h : Hoisted} (hg : Given p t h)
    (hfunc : ∀ d, t ≠ .func d) (himpl : ∀ tok nm ms, t ≠ .impl tok nm ms) : h = .nothing := by
  cases t with
  | func d => exact absurd rfl (hfunc d)
  | impl tok nm ms => exact absurd rfl (himpl tok nm ms)
  | _ =>
    cases h with
    | nothing => rfl
    | func id b => exact hg.elim
    | impl ids => exact hg.elim

theorem topStmt_gives (h : Hoisted) (t : Stmt .parsed) :
    Gives (topStmt h t) fun p R k u l => Given p t h → k.slots = [] → KeepsTop h p R k u l := by
  have hnothing : ∀ u : Stmt .resolved, Decls.stmt u = [] →
      (∀ p R σ, Scoped.stmt p R σ u ∧ σ.afterStmt p u = σ) →
      (∀ d, t ≠ .func d) → (∀ tok nm ms, t ≠ .impl tok nm ms) → Gives (pure u) fun p R k v l =>
        Given p t h → k.slots = [] → KeepsTop h p R k v l := by
    intro u hdecls hu hfunc himpl
    refine Gives.plain ((Gives.pure u).mono ?_) t h fun p hp => hp.eq_nothing hfunc himpl
    rintro p R k v l ⟨rfl, rfl⟩
    exact ⟨(hu p R _).2.symm, (hu p R _).1, hdecls ▸ .nil (Nat.le_refl _)⟩
  cases t with
  | func d =>
    cases h with
    | func id b => exact topFunc_gives id b d
    | nothing => exact (stmt_gives _).plain _ _ fun _ _ => rfl
    | impl ids => exact (stmt_gives _).plain _ _ fun _ h => h.elim
  | impl tok nm ms =>
    cases h with
    | impl ids => exact topImpl_gives tok nm ids ms
    | nothing => exact (stmt_gives _).plain _ _ fun _ _ => rfl
    | func id b => exact (stmt_gives _).plain _ _ fun _ h => h.elim
  | record | union | use =>
    exact hnothing _ rfl (fun _ _ _ => ⟨trivial, rfl⟩) (fun _ => nofun) fun _ _ _ => nofun
  | _ =>
    exact (stmt_gives _).plain _ _ fun p hp => hp.eq_nothing (fun _ => nofun) fun _ _ _ => nofun

theorem Gives.slots {α : Type} {m : Resolve α} {P : Program → Region → Known → α → Known → Prop}
    (h : Gives m P) :
    Gives m fun p R k a l => P p R k a l ∧ (k.slots = [] → l.slots = []) := by
  refine fun s => ⟨(h s).1, ?_⟩
  intro p hp he k hk
  obtain ⟨l, hl, hext, hpost⟩ := (h s).2 p hp he k hk
  refine ⟨l, hl, hext, fun R hR => ⟨hpost R hR, fun hnil => ?_⟩⟩
  apply List.eq_nil_of_length_eq_zero
  rw [hext.length, hnil]
  rfl

theorem topStmts_gives : (xs : List (Hoisted × Stmt .parsed)) →
    Gives (xs.mapM fun (h, t) => topStmt h t) fun p R k ts l =>
      (∀ x ∈ xs, Given p x.2 x.1) → k.slots = [] → Scoped.stmts p R k.top ts ∧
        ∃ ds, Ids k.count l.count ds ∧ ((Decls.stmts ts).map (·.info.id)).Perm
          (xs.flatMap (·.1.ids) ++ ds.map (·.info.id))
  | [] => by
    rw [List.mapM_nil]
    refine (Gives.pure []).mono ?_
    rintro p R k a l ⟨rfl, rfl⟩ _ _
    exact ⟨trivial, [], .nil (Nat.le_refl _), .refl _⟩
  | (h, t) :: xs => by
    rw [List.mapM_cons]
    refine ((topStmt_gives h t).slots.bind fun u => (topStmts_gives xs).bind fun us =>
      Gives.pure (u :: us)).mono ?_
    rintro p R k a l ⟨u, i, ⟨hu, hi⟩, us, j, hus, rfl, rfl⟩ hgiven hk
    obtain ⟨htop, hscoped, ds, hds, hperm⟩ := hu (hgiven (h, t) (by simp)) hk
    obtain ⟨hscoped', es, hes, hperm'⟩ := hus (fun x hx => hgiven x (by simp [hx])) (hi hk)
    rw [htop] at hscoped'
    refine ⟨⟨hscoped, hscoped'⟩, ds ++ es, hds.append hes, ?_⟩
    have hmid : ∀ A B C D : List FunId, (A ++ B ++ (C ++ D)).Perm (A ++ C ++ (B ++ D)) := by
      intro A B C D
      rw [List.append_assoc, List.append_assoc, ← List.append_assoc B, ← List.append_assoc C]
      exact (List.perm_append_comm.append_right D).append_left A
    rw [Decls.stmts, List.map_append, List.flatMap_cons, List.map_append]
    exact (hperm.append hperm').trans (hmid _ _ _ _)

def KeepsBatch (p : Program) (R : Region) (k : Known) (ts : List (Stmt .resolved)) (l : Known) :
    Prop :=
  k.slots = [] → Scoped.stmts p R k.top ts ∧ Ids k.count l.count (Decls.stmts ts)

theorem given_of_mem_zip {p : Program} {ts : List (Stmt .parsed)} {hs : List Hoisted}
    (h : List.Forall₂ (Given p) ts hs) : ∀ x ∈ hs.zip ts, Given p x.2 x.1 := by
  induction h with
  | nil => simp
  | cons hg _ ih =>
    intro x hx
    rcases List.mem_cons.mp hx with rfl | hx
    · exact hg
    · exact ih x hx

theorem zip_ids {p : Program} {ts : List (Stmt .parsed)} {hs : List Hoisted}
    (h : List.Forall₂ (Given p) ts hs) :
    (hs.zip ts).flatMap (·.1.ids) = hs.flatMap Hoisted.ids := by
  induction h with
  | nil => rfl
  | cons _ _ ih => rw [List.zip_cons_cons, List.flatMap_cons, List.flatMap_cons, ih]

theorem Ids.of_perm {lo n hi : Nat} {es ds : List (FunDecl .resolved)} (hds : Ids (lo + n) hi ds)
    (h : (es.map (·.info.id)).Perm (List.range' lo n ++ ds.map (·.info.id))) : Ids lo hi es := by
  obtain ⟨hle, hnodup, hbound⟩ := hds
  refine ⟨Nat.le_trans (Nat.le_add_right lo n) hle, h.nodup_iff.mpr ?_, ?_⟩
  · refine List.nodup_append.mpr ⟨List.nodup_range', hnodup, ?_⟩
    rintro i hi j hj rfl
    obtain ⟨d, hd, heq⟩ := List.mem_map.mp hj
    have hlow : lo + n ≤ i := heq ▸ (hbound d hd).1
    have hhigh := (List.mem_range'_1.mp hi).2
    exact absurd hlow (Nat.not_le_of_lt hhigh)
  · intro e he
    have hmem := h.mem_iff.mp (List.mem_map.mpr ⟨e, he, rfl⟩)
    rcases List.mem_append.mp hmem with hmem | hmem
    · obtain ⟨hlow, hhigh⟩ := List.mem_range'_1.mp hmem
      exact ⟨hlow, Nat.lt_of_lt_of_le hhigh hle⟩
    · obtain ⟨d, hd, heq⟩ := List.mem_map.mp hmem
      rw [← heq]
      exact ⟨Nat.le_trans (Nat.le_add_right lo n) (hbound d hd).1, (hbound d hd).2⟩

theorem batch_gives {load : String → Except LoadError HostModule} (hload : Loading.TidyLoader load)
    (ts : List (Stmt .parsed)) : Gives (batch load ts) KeepsBatch := by
  have htops : ∀ hs : List Hoisted, Gives (do
      if (← get).errors.isEmpty then (hs.zip ts).mapM fun (h, s) => topStmt h s
      else return []) fun p R k us l => List.Forall₂ (Given p) ts hs → k.slots = [] →
        Scoped.stmts p R k.top us ∧ ∃ ds, Ids k.count l.count ds ∧
          ((Decls.stmts us).map (·.info.id)).Perm
            (hs.flatMap Hoisted.ids ++ ds.map (·.info.id)) := by
    intro hs s
    apply GivesAt.ofGet
    split
    · refine (topStmts_gives (hs.zip ts) s).mono ?_
      intro p R k us l hus hgiven hk
      rw [← zip_ids hgiven]
      exact hus (given_of_mem_zip hgiven) hk
    · rename_i herr
      refine ⟨.refl s, fun p _ he => absurd ?_ herr⟩
      exact Array.isEmpty_iff.mpr he
  refine ((hoist_gives hload ts).slots.bind htops).mono ?_
  rintro p R k us l ⟨hs, i, ⟨⟨hgiven, n, hids, hcount⟩, hi⟩, hus⟩ hk
  obtain ⟨hscoped, ds, hds, hperm⟩ := hus hgiven (hi hk)
  have htop : i.top = k.top := by rw [Known.top, hi hk, Known.top, hk]
  rw [htop] at hscoped
  rw [hids] at hperm
  rw [hcount] at hds
  exact ⟨hscoped, .of_perm hds hperm⟩

end Resolve

/-- What is known of a batch that was resolved: names are used after they were declared, and its
functions have numbers of their own. Both stay true when the program grows. -/
theorem Source.resolve_scoped {load : String → Except LoadError HostModule}
    (hload : Loading.TidyLoader load) {p q : Program} (hp : p.Rooted) {src : Source .parsed}
    {out : Source .resolved} (h : src.resolve load p = (.ok out, q)) :
    p.Grows q ∧ q.Rooted ∧ Resolve.Ids p.funs.size q.funs.size (Decls.stmts out.stmts) ∧
      ∀ r, q.Grows r → Scoped.stmts r .top (fun _ => none) out.stmts := by
  obtain ⟨hlater, hsees⟩ := Resolve.batch_gives hload src.stmts { program := p }
  generalize hrun : (Resolve.batch load src.stmts).run { program := p } = run at hlater hsees
  obtain ⟨ts, s⟩ := run
  rw [Source.resolve, hrun] at h
  obtain ⟨hout, rfl⟩ := Prod.mk.inj h
  split at hout
  case isFalse => cases hout
  case isTrue herr =>
    obtain rfl := Except.ok.inj hout
    have hk : ∀ r, Resolve.State.Sees r { program := p } ⟨[], [], p.funs.size, 0⟩ := fun r =>
      ⟨trivial, by simp, fun _ => rfl, rfl, hp, rfl, rfl⟩
    have hframes : s.frames = [] := List.forall₂_nil_left_iff.mp hlater.frames
    have hpost : ∀ r, s.program.Grows r → s.program.Rooted ∧
        Resolve.Ids p.funs.size s.program.funs.size (Decls.stmts ts) ∧
          Scoped.stmts r .top (fun _ => none) ts := by
      intro r hr
      obtain ⟨l, hl, -, hpost⟩ := hsees r hr (Array.isEmpty_iff.mp herr) _ (hk r)
      obtain ⟨hscoped, hids⟩ := hpost .top (by rw [hframes]; trivial) rfl
      exact ⟨hl.rooted, hl.count ▸ hids, hscoped⟩
    obtain ⟨hrooted, hids, -⟩ := hpost _ (.refl _)
    exact ⟨hlater.program, hrooted, hids, fun r hr => (hpost r hr).2.2⟩

end Scripting
