import Scripting.Proofs.Scope.Hoisted
import Scripting.Proofs.Scope.Meaning

/-!
# What a batch declares in advance

`Program.Declares names bs p q` says that a program grew by new bindings `bs` of some top-level names,
one after the other. Loading modules and adding types declares no names, a union its variants, and a
function its name; `hoist_announces` puts this together. `Source.resolve_finds` then says what the
names of a batch mean, and which variables it marks as captured.
-/

namespace Scripting

namespace Program

def declared (f : Names) (xs : List (String × BindingId)) : Names :=
  xs.foldl (fun f x => f.bind x.1 x.2) f

def HasType (p : Program) (id : TypeId) : Prop := ∃ d, p.typeById? id = some d ∧ d.id = id

/-- Declaring names at top level. -/
structure Declares (names : List String) (bs : List BindingId) (p q : Program) : Prop where
  size : p.bindings.size ≤ q.bindings.size
  kept : ∀ b < p.bindings.size, (q.binding b).name = (p.binding b).name
  marked : ∀ b, (q.binding b).captured = true → (p.binding b).captured = true
  scope : q.scope.get? = declared p.scope.get? (names.zip bs)
  new : List.Forall₂ (fun name b => p.bindings.size ≤ b ∧ b < q.bindings.size ∧
    (q.binding b).name = name) names bs
  types : ∀ id, p.HasType id → q.HasType id

namespace Declares

variable {p q r : Program} {ns ms : List String} {bs cs : List BindingId}

theorem refl (p : Program) : Declares [] [] p p :=
  ⟨Nat.le_refl _, fun _ _ => rfl, fun _ => id, rfl, .nil, fun _ => id⟩

theorem trans (h : Declares ns bs p q) (k : Declares ms cs q r) :
    Declares (ns ++ ms) (bs ++ cs) p r where
  size := Nat.le_trans h.size k.size
  kept b hb := (k.kept b (Nat.lt_of_lt_of_le hb h.size)).trans (h.kept b hb)
  marked b hb := h.marked b (k.marked b hb)
  scope := by
    rw [k.scope, h.scope, List.zip_append h.new.length_eq, declared, declared, declared,
      List.foldl_append]
  new := by
    refine List.rel_append ?_ ?_
    · exact h.new.imp fun name b ⟨hp, hq, hname⟩ =>
        ⟨hp, Nat.lt_of_lt_of_le hq k.size, (k.kept b hq).trans hname⟩
    · exact k.new.imp fun name b ⟨hq, hr, hname⟩ => ⟨Nat.le_trans h.size hq, hr, hname⟩
  types id hid := k.types id (h.types id hid)

theorem of_eq (hb : q.bindings = p.bindings) (hs : q.scope = p.scope)
    (ht : ∀ id, p.HasType id → q.HasType id) : Declares [] [] p q := by
  have hsame : ∀ b, q.binding b = p.binding b := fun b => by rw [binding, hb, binding]
  exact ⟨Nat.le_of_eq (by rw [hb]), fun b _ => by rw [hsame], fun b h => by rwa [hsame] at h,
    by rw [hs]; rfl, .nil, ht⟩

theorem foldl {α : Type} {f : Program → α → Program} (hf : ∀ p a, Declares [] [] p (f p a)) :
    (xs : List α) → (p : Program) → Declares [] [] p (xs.foldl f p)
  | [], p => .refl p
  | x :: xs, p => (hf p x).trans (foldl hf xs (f p x))

end Declares

theorem typeById?_modifyType (p : Program) (id : TypeId) (f : TypeDef → TypeDef) (other : TypeId) :
    (p.modifyType id f).typeById? other
      = (p.typeById? other).map fun d => if d.id == id then f d else d := by
  simp only [typeById?, TypeTable.byId?, modifyType, TypeTable.map, Array.getElem?_map]
  cases p.types.ids[other]? <;> rfl

theorem modifyType_declares (p : Program) (id : TypeId) {f : TypeDef → TypeDef}
    (hf : ∀ d, (f d).id = d.id) : Declares [] [] p (p.modifyType id f) := by
  refine .of_eq rfl rfl fun other ⟨d, hd, hid⟩ => ⟨if d.id == id then f d else d, ?_, ?_⟩
  · rw [typeById?_modifyType, hd, Option.map_some]
  · split
    · exact (hf d).trans hid
    · exact hid

theorem hasType_add {p q : Program} {d : TypeDef} (h : q.types = p.types.add d) (id : TypeId)
    (hid : d.id = id ∨ p.HasType id) : q.HasType id := by
  rw [HasType, typeById?, h, TypeTable.byId?, TypeTable.add_ids, TypeTable.add_defs]
  by_cases hd : d.id = id
  · exact ⟨d, by rw [if_pos hd, Option.bind_some, Array.getElem?_push_size], hd⟩
  · obtain ⟨e, he, heid⟩ := hid.resolve_left hd
    obtain ⟨i, hi, hei⟩ := Option.bind_eq_some_iff.mp he
    have hlt := (Array.getElem?_eq_some_iff.mp hei).1
    exact ⟨e, by rw [if_neg hd, hi, Option.bind_some, Array.getElem?_push_lt hlt, ← hei,
      Array.getElem?_eq_getElem hlt], heid⟩

theorem addType_declares {p q : Program} {d : TypeDef} {id : TypeId} (h : p.addType d = .ok (id, q)) :
    Declares [] [] p q ∧ q.HasType id := by
  rw [addType] at h
  split at h
  · cases h
  · split at h
    all_goals
      obtain ⟨rfl, rfl⟩ := Prod.mk.inj (Except.ok.inj h)
      exact ⟨.of_eq rfl rfl fun other ho => hasType_add rfl other (.inr ho), hasType_add rfl _ (.inl rfl)⟩

theorem registerKey_declares (p : Program) (key : String) (h : HostId) :
    Declares [] [] p (p.registerKey key h) := by
  rw [registerKey]
  split
  · exact .refl p
  · exact .of_eq rfl rfl fun _ => id

theorem addHost_declares (p : Program) (f : HostFunction) : Declares [] [] p (p.addHost f).2 :=
  have hhost : Declares [] [] p { p with hosts := p.hosts.push f } := .of_eq rfl rfl fun _ h => h
  hhost.trans (registerKey_declares _ f.key p.hosts.size)

theorem attachHost_declares (p : Program) (id : TypeId) (f : HostFunction) :
    Declares [] [] p (p.attachHost id f).2 :=
  (p.addHost_declares f).trans (modifyType_declares _ id fun _ => rfl)

theorem addHostMethod_declares (p : Program) (id : TypeId) (f : HostFunction) :
    Declares [] [] p (p.addHostMethod id f) :=
  (p.attachHost_declares id f).trans (.of_eq rfl rfl fun _ h => h)

theorem addExtension_declares (p : Program) (f : HostFunction) :
    Declares [] [] p (p.addExtension f) :=
  (p.addHost_declares f).trans (.of_eq rfl rfl fun _ => id)

end Program

namespace Program

theorem declareGlobal_declares (p : Program) (name : String) (tok : Token) :
    Declares [name] [p.bindings.size] p (p.declareGlobal name tok).2 where
  size := (p.declareGlobal_grows name tok).size
  kept := (Resolve.declareGlobal_quiet p name tok).1
  marked := (Resolve.declareGlobal_quiet p name tok).2
  scope := Resolve.define_names p.scope name p.bindings.size
  new := .cons ⟨Nat.le_refl _, (p.declareGlobal_isGlobal name tok).1,
    congrArg Binding.name (p.binding_push_size _)⟩ .nil
  types _ h := h

theorem modifyBinding_declares (p : Program) (c : BindingId) {f : Binding → Binding}
    (hname : ∀ x, (f x).name = x.name) (hcap : ∀ x, (f x).captured = x.captured) :
    Declares [] [] p (p.modifyBinding c f) where
  size := by simp [modifyBinding]
  kept := (Resolve.modifyBinding_quiet p c hname hcap).names
  marked := (Resolve.modifyBinding_quiet p c hname hcap).marked
  scope := rfl
  new := .nil
  types _ h := h

theorem bindVariant_declares (p : Program) (id : TypeId) (name : String) (tok : Token)
    {f : Binding → Binding} (hname : ∀ x, (f x).name = x.name)
    (hcap : ∀ x, (f x).captured = x.captured) {g : TypeDef → TypeDef} (hg : ∀ d, (g d).id = d.id) :
    Declares [name] [p.bindings.size] p
      ((((p.declareGlobal name tok).2.modifyBinding (p.declareGlobal name tok).1 f).modifyType id g).addPending
        (p.declareGlobal name tok).1) :=
  (((p.declareGlobal_declares name tok).trans (modifyBinding_declares _ _ hname hcap)).trans
    (modifyType_declares _ id hg)).trans (.of_eq rfl rfl fun _ h => h)

theorem filterMap_getElem? {α β : Type} (g : α → β) : (xs : List α) →
    (List.range xs.length).filterMap (fun i => (xs[i]?).map g) = xs.map g
  | [] => rfl
  | x :: xs => by
    rw [List.length_cons, List.range_succ_eq_map, List.filterMap_cons]
    simp only [List.getElem?_cons_zero, Option.map_some, List.filterMap_map, List.map_cons]
    exact congrArg _ (filterMap_getElem? g xs)

theorem bindVariants_declares {p : Program} {id : TypeId} {d : TypeDef} (hd : p.typeById? id = some d)
    (tok : Token) : ∃ bs, Declares (d.variants.map (·.tag)) bs p (p.bindVariants id tok) := by
  rw [bindVariants, hd]
  dsimp only
  generalize hfun : (fun (q : Program) (i : Nat) => _) = step
  have hstep : ∀ i q, ∃ bs, Declares ((d.variants[i]?).map (·.tag)).toList bs q (step q i) := by
    intro i q
    rw [← hfun]
    dsimp only
    cases d.variants[i]? with
    | none => exact ⟨[], .refl q⟩
    | some v =>
      refine ⟨_, q.bindVariant_declares id v.tag tok ?_ ?_ ?_⟩
      all_goals exact fun _ => rfl
  have hall : ∀ (is : List Nat) (q : Program), ∃ bs,
      Declares (is.filterMap fun i => (d.variants[i]?).map (·.tag)) bs q (is.foldl step q) := by
    intro is
    induction is with
    | nil => exact fun q => ⟨[], .refl q⟩
    | cons i is ih =>
      intro q
      obtain ⟨bs, hone⟩ := hstep i q
      obtain ⟨cs, hrest⟩ := ih (step q i)
      refine ⟨bs ++ cs, ?_⟩
      have hcons : (i :: is).filterMap (fun i => (d.variants[i]?).map (·.tag))
          = ((d.variants[i]?).map (·.tag)).toList ++ is.filterMap fun i => (d.variants[i]?).map (·.tag) := by
        rw [List.filterMap_cons]
        cases (d.variants[i]?).map (·.tag) <;> rfl
      rw [hcons]
      exact hone.trans hrest
  rw [← filterMap_getElem? (·.tag) d.variants]
  exact hall _ p

end Program

namespace Loading

open Program

def Silent {α : Type} (m : Loading α) : Prop := ∀ p : Program, Declares [] [] p (m.run.run p).2

theorem Silent.bind {α β : Type} {m : Loading α} {f : α → Loading β} (hm : Silent m)
    (hf : ∀ a, Silent (f a)) : Silent (m >>= f) := by
  intro p
  have hrun : ((m >>= f).run.run p) = ExceptT.bindCont f (m.run.run p).1 (m.run.run p).2 := rfl
  have h := hm p
  rw [hrun]
  cases hr : (m.run.run p).1 with
  | error e => exact h
  | ok a => exact h.trans (hf a _)

theorem Silent.ofGet {α : Type} {f : Program → Loading α} (hf : ∀ p, Silent (f p)) :
    Silent (get >>= f) := fun p => hf p p

theorem Silent.forM {α : Type} {f : α → Loading Unit} (hf : ∀ x, Silent (f x)) :
    (xs : List α) → Silent (xs.forM f)
  | [] => fun p => .refl p
  | x :: xs => (hf x).bind fun _ => .forM hf xs

theorem addModuleType_silent (module : String) (d : TypeDef) (fs : List HostFunction) :
    Silent (addModuleType module d fs) := by
  intro p
  rw [addModuleType_run]
  split
  · exact .refl p
  · rename_i id q hq
    exact (addType_declares hq).1.trans (.foldl (fun p f => p.attachHost_declares id f) fs q)

theorem addModuleMethods_silent (m : HostModule) (type : String) : Silent (addModuleMethods m type) := by
  intro p
  rw [addModuleMethods_run]
  split
  · exact .refl p
  · exact .foldl (fun (p : Program) (x : String × HostFunction) => p.addHostMethod_declares _ x.2) _ p

theorem useModule_silent (load : String → Except LoadError HostModule) (name : String) :
    Silent (useModule load name) := by
  refine .ofGet fun p => ?_
  dsimp only
  split
  · exact fun q => .refl q
  · split
    · exact fun q => .refl q
    · rename_i m hm
      refine .bind (.forM (fun x => ?_) _) fun _ => .bind (.forM (fun t => ?_) _)
        fun _ => .bind (fun q => ?_) fun _ q => ?_
      · exact addModuleType_silent m.name x.1 x.2
      · exact addModuleMethods_silent m t
      · exact .foldl addExtension_declares _ q
      · exact .of_eq rfl rfl fun _ h => h

end Loading

namespace Resolve

def AnnouncesAt {α : Type} (s : State) (m : Resolve α)
    (Post : α → Program → List String → List BindingId → Prop) : Prop :=
  s.Later (m.run s).2 ∧ ((m.run s).2.errors = #[] → ∃ ns bs,
    Program.Declares ns bs s.program (m.run s).2.program ∧ (m.run s).2.scopes = s.scopes ∧
      (m.run s).2.frames = s.frames ∧ Post (m.run s).1 (m.run s).2.program ns bs)

def Announces {α : Type} (m : Resolve α)
    (Post : α → Program → List String → List BindingId → Prop) : Prop := ∀ s, AnnouncesAt s m Post

abbrev Silent {α : Type} (_ : α) (_ : Program) (ns : List String) (bs : List BindingId) : Prop :=
  ns = [] ∧ bs = []

section

variable {α β : Type} {m : Resolve α} {s : State}
  {P Q : α → Program → List String → List BindingId → Prop}

theorem AnnouncesAt.mono (h : AnnouncesAt s m P) (hPQ : ∀ a q ns bs, P a q ns bs → Q a q ns bs) :
    AnnouncesAt s m Q := by
  refine ⟨h.1, fun he => ?_⟩
  obtain ⟨ns, bs, hdecl, hscopes, hframes, hP⟩ := h.2 he
  exact ⟨ns, bs, hdecl, hscopes, hframes, hPQ _ _ _ _ hP⟩

theorem Announces.mono (h : Announces m P) (hPQ : ∀ a q ns bs, P a q ns bs → Q a q ns bs) :
    Announces m Q := fun s => (h s).mono hPQ

theorem Announces.pure (a : α) : Announces (Pure.pure a : Resolve α) fun b _ ns bs =>
    b = a ∧ ns = [] ∧ bs = [] :=
  fun s => ⟨.refl s, fun _ => ⟨[], [], .refl _, rfl, rfl, rfl, rfl, rfl⟩⟩

theorem AnnouncesAt.bindIf {f : α → Resolve β}
    {R : α → β → Program → List String → List BindingId → Prop} (hm : AnnouncesAt s m P)
    (hlater' : (m.run s).2.Later ((f (m.run s).1).run (m.run s).2).2)
    (hf : ∀ ns bs, P (m.run s).1 (m.run s).2.program ns bs →
      AnnouncesAt (m.run s).2 (f (m.run s).1) (R (m.run s).1)) :
    AnnouncesAt s (m >>= f) fun b r ns bs => ∃ a q ns₁ bs₁ ns₂ bs₂, P a q ns₁ bs₁ ∧
      Program.Declares ns₂ bs₂ q r ∧ R a b r ns₂ bs₂ ∧ ns = ns₁ ++ ns₂ ∧ bs = bs₁ ++ bs₂ := by
  obtain ⟨hlater, hpost⟩ := hm
  refine ⟨hlater.trans hlater', fun he => ?_⟩
  obtain ⟨ns₁, bs₁, hdecl, hscopes, hframes, hP⟩ := hpost (hlater'.errors he)
  obtain ⟨ns₂, bs₂, hdecl', hscopes', hframes', hR⟩ := (hf ns₁ bs₁ hP).2 he
  exact ⟨_, _, hdecl.trans hdecl', hscopes'.trans hscopes, hframes'.trans hframes, _, _, ns₁, bs₁, ns₂,
    bs₂, hP, hdecl', hR, rfl, rfl⟩

theorem Announces.bind {f : α → Resolve β} {R : α → β → Program → List String → List BindingId → Prop}
    (hm : Announces m P) (hf : ∀ a, Announces (f a) (R a)) :
    Announces (m >>= f) fun b r ns bs => ∃ a q ns₁ bs₁ ns₂ bs₂, P a q ns₁ bs₁ ∧
      Program.Declares ns₂ bs₂ q r ∧ R a b r ns₂ bs₂ ∧ ns = ns₁ ++ ns₂ ∧ bs = bs₁ ++ bs₂ :=
  fun s => (hm s).bindIf (hf _ _).1 fun _ _ _ => hf _ _

theorem AnnouncesAt.ofGet {s : State} {f : State → Resolve α}
    {R : α → Program → List String → List BindingId → Prop} (h : AnnouncesAt s (f s) R) :
    AnnouncesAt s (get >>= f) R := h

theorem AnnouncesAt.ofFailure {code : Diagnostic.Code} {tok : Token} {msg : String} (a : α) :
    AnnouncesAt s (do report code tok msg; return a) P := by
  have herr : s.errors.push (.report code tok msg) ≠ #[] := Array.push_ne_empty
  exact ⟨⟨.refl _, growsAll_refl _, fun h => absurd h herr⟩, fun h => absurd h herr⟩

theorem Announces.failed (d : Diagnostic) :
    Announces (modify fun s => { s with errors := s.errors.push d } : Resolve Unit)
      fun _ _ _ _ => False := fun s =>
  have herr : s.errors.push d ≠ #[] := Array.push_ne_empty
  ⟨⟨.refl _, growsAll_refl _, fun h => absurd h herr⟩, fun h => absurd h herr⟩

theorem onProgram_announces {f : Program → α × Program} (hg : ∀ q : Program, q.Grows (f q).2)
    (hf : ∀ q, Program.Declares [] [] q (f q).2) : Announces (onProgram f) Silent := fun s =>
  ⟨⟨hg s.program, growsAll_refl _, id⟩, fun _ => ⟨[], [], hf s.program, rfl, rfl, rfl, rfl⟩⟩

end

theorem useModule_announces {load : String → Except LoadError HostModule}
    (hload : Loading.TidyLoader load) (tok : Token) (path : List String) :
    Announces (useModule load tok path) Silent := by
  rw [useModule]
  refine ((onProgram_announces (fun q => (Loading.useModule_keeps hload _ q).grows)
    fun q => Loading.useModule_silent load _ q).bind (R := fun _ => Silent) fun r => ?_).mono ?_
  · cases r with
    | ok u => exact (Announces.pure ()).mono fun _ _ _ _ h => h.2
    | error e => exact fun s => .ofFailure ()
  · rintro a r ns bs ⟨_, _, _, _, _, _, ⟨rfl, rfl⟩, -, ⟨rfl, rfl⟩, rfl, rfl⟩
    exact ⟨rfl, rfl⟩

theorem declareType_announces (name : Name) (kind : TypeDef.Kind) :
    Announces (declareType name kind) fun a q ns bs =>
      (∃ id, a = some id ∧ q.HasType id) ∧ ns = [] ∧ bs = [] := by
  intro s
  rw [declareType]
  apply AnnouncesAt.ofGet
  cases hadd : s.program.addType { name := name.text, kind := kind } with
  | error msg => exact .ofFailure _
  | ok x =>
    obtain ⟨hdecl, hfound⟩ := Program.addType_declares hadd
    have hloads : s.program.Loads x.2 := Program.addType_loads ⟨rfl, by simp⟩ hadd
    refine ⟨⟨hloads.grows, growsAll_refl _, id⟩, fun _ => ?_⟩
    exact ⟨[], [], hdecl, rfl, rfl, ⟨x.1, rfl, hfound⟩, rfl, rfl⟩

theorem fields_announces : (fs : List FieldDecl) → (seen : List String) →
    Announces (fields seen fs) Silent
  | [], seen => (Announces.pure []).mono fun _ _ _ _ h => h.2
  | f :: fs, seen => by
    rw [fields]
    split
    · refine ((Announces.failed _).bind fun _ => fields_announces fs seen).mono ?_
      rintro a r ns bs ⟨_, _, _, _, _, _, h, -⟩
      exact h.elim
    · intro s
      apply AnnouncesAt.ofGet
      split
      · refine (((fields_announces fs _).bind fun gs => Announces.pure _) s).mono ?_
        rintro a r ns bs ⟨_, _, _, _, _, _, ⟨rfl, rfl⟩, -, ⟨rfl, rfl, rfl⟩, rfl, rfl⟩
        exact ⟨rfl, rfl⟩
      · refine (((Announces.failed _).bind fun _ => fields_announces fs _) s).mono ?_
        rintro a r ns bs ⟨_, _, _, _, _, _, h, -⟩
        exact h.elim

theorem variants_announces (union : String) : (vs : List VariantDecl) → (seen : List String) →
    Announces (variants union seen vs) fun a _ ns bs =>
      (∃ ws, a = some ws ∧ ws.map (·.tag) = vs.map (·.name)) ∧ ns = [] ∧ bs = []
  | [], seen => (Announces.pure _).mono fun _ _ _ _ h => ⟨⟨[], h.1, rfl⟩, h.2⟩
  | v :: vs, seen => by
    rw [variants]
    split
    · exact fun s => .ofFailure none
    · refine ((fields_announces v.fields []).bind fun fs => (variants_announces union vs _).bind
        fun rest => Announces.pure _).mono ?_
      rintro a r ns bs ⟨fs, _, _, _, _, _, ⟨rfl, rfl⟩, -, ⟨rest, _, _, _, _, _, ⟨⟨ws, rfl, hws⟩, rfl, rfl⟩,
        -, ⟨rfl, rfl, rfl⟩, rfl, rfl⟩, rfl, rfl⟩
      exact ⟨⟨_, rfl, by simp [hws]⟩, rfl, rfl⟩

theorem defineRecord_announces (id : TypeId) (decls : List FieldDecl) :
    Announces (defineRecord id decls) Silent := by
  refine ((fields_announces decls []).bind fun fs => onProgram_announces (fun q => ?_) fun q =>
    q.modifyType_declares id ?_).mono ?_
  · exact q.modifyType_grows id fun _ => ⟨rfl, rfl⟩
  · exact fun _ => rfl
  · rintro a r ns bs ⟨_, _, _, _, _, _, ⟨rfl, rfl⟩, -, ⟨rfl, rfl⟩, rfl, rfl⟩
    exact ⟨rfl, rfl⟩

def settle (id : TypeId) (tok : Token) : Option (List Variant) → Resolve Unit
  | none => return
  | some vs => onProgram fun p =>
      ((), (p.modifyType id fun d => { d with variants := vs }).bindVariants id tok)

theorem defineUnion_run (id : TypeId) (name : Name) (decls : List VariantDecl) (s : State) :
    (defineUnion id name decls).run s = (settle id name.token ((variants name.text [] decls).run s).1).run
      ((variants name.text [] decls).run s).2 := by
  show StateT.run (match ((variants name.text [] decls).run s).1 with
    | none => return
    | some vs => onProgram fun p =>
        ((), (p.modifyType id fun d => { d with variants := vs }).bindVariants id name.token))
          ((variants name.text [] decls).run s).2 = _
  cases ((variants name.text [] decls).run s).1 <;> rfl

theorem defineUnion_announces {s : State} {id : TypeId} (hid : s.program.HasType id)
    (name : Name) (decls : List VariantDecl) :
    AnnouncesAt s (defineUnion id name decls) fun _ _ ns _ => ns = decls.map (·.name) := by
  obtain ⟨-, hpost⟩ := variants_announces name.text decls [] s
  refine ⟨(defineUnion_gives id name decls s).1, ?_⟩
  rw [defineUnion_run]
  generalize (variants name.text [] decls).run s = x at hpost
  obtain ⟨r, t⟩ := x
  have herrors : ((settle id name.token r).run t).2.errors = t.errors := by cases r <;> rfl
  intro he
  obtain ⟨ns, bs, hdecl, hscopes, hframes, ⟨ws, hr, hws⟩, rfl, rfl⟩ := hpost (herrors.symm.trans he)
  obtain rfl : r = some ws := hr
  -- The type was added before, and now has the variants that were read.
  obtain ⟨d, hd, hnumber⟩ := hdecl.types id hid
  have hset : (t.program.modifyType id fun d => { d with variants := ws }).typeById? id
      = some { d with variants := ws } := by
    rw [Program.typeById?_modifyType, show t.program.typeById? id = some d from hd, Option.map_some,
      if_pos (beq_iff_eq.mpr hnumber)]
  obtain ⟨cs, hbound⟩ := Program.bindVariants_declares hset name.token
  have hmodify : Program.Declares [] [] t.program
      (t.program.modifyType id fun d => { d with variants := ws }) :=
    t.program.modifyType_declares id fun _ => rfl
  exact ⟨_, cs, hdecl.trans (hmodify.trans hbound), hscopes, hframes, hws⟩

/-- The binding of a function that was declared in advance. -/
def Hoisted.bindings : Hoisted → List BindingId
  | .func _ b => [b]
  | _ => []

def Belongs : Stmt .parsed → Hoisted → Prop
  | .func _, .func _ _ => True
  | .impl _ _ ms, .impl ids => ids.length = ms.length
  | .func _, _ | .impl .., _ => False
  | _, h => h = .nothing

def Announced (t : Stmt .parsed) (h : Hoisted) (_ : Program) (ns : List String)
    (bs : List BindingId) : Prop :=
  Belongs t h ∧ ns = Lexical.functionName t ∧ bs = h.bindings

theorem addMethods_announces (d : TypeDef) : (ms : List (FunDecl .parsed)) →
    Announces (addMethods d ms) fun ids _ ns bs => ids.length = ms.length ∧ ns = [] ∧ bs = []
  | [] => by
    rw [addMethods, List.mapM_nil]
    refine (Announces.pure []).mono ?_
    rintro a r ns bs ⟨rfl, rfl, rfl⟩
    exact ⟨rfl, rfl, rfl⟩
  | m :: ms => by
    rw [addMethods, List.mapM_cons]
    have hone : Announces (addMethod d m) Silent := by
      refine ((onProgram_announces (fun q => q.addFun_grows _) fun q => .of_eq rfl rfl fun _ h => h).bind
        fun id => (onProgram_announces (fun q => (q.addMethod_loads d.id id).grows) fun q =>
          (q.modifyType_declares d.id (f := fun d => d.addMethod id) fun _ => rfl).trans
            (.of_eq rfl rfl fun _ h => h)).bind fun _ => Announces.pure id).mono ?_
      rintro a r ns bs ⟨_, _, _, _, _, _, ⟨rfl, rfl⟩, -, ⟨_, _, _, _, _, _, ⟨rfl, rfl⟩, -, ⟨-, rfl, rfl⟩,
        rfl, rfl⟩, rfl, rfl⟩
      exact ⟨rfl, rfl⟩
    refine (hone.bind fun id => (addMethods_announces d ms).bind fun ids =>
      Announces.pure (id :: ids)).mono ?_
    rintro a r ns bs ⟨_, _, _, _, _, _, ⟨rfl, rfl⟩, -, ⟨ids, _, _, _, _, _, ⟨hlength, rfl, rfl⟩, -,
      ⟨rfl, rfl, rfl⟩, rfl, rfl⟩, rfl, rfl⟩
    exact ⟨by simp [hlength], rfl, rfl⟩

theorem declareImpl_announces (tok : Token) (name : Name) (ms : List (FunDecl .parsed)) :
    Announces (declareImpl name ms) (Announced (.impl tok name ms)) := by
  intro s
  rw [declareImpl]
  apply AnnouncesAt.ofGet
  split
  · exact .ofFailure _
  · exact .ofFailure _
  · split
    · refine (((addMethods_announces _ ms).bind fun ids => Announces.pure (Hoisted.impl ids)) s).mono ?_
      rintro a r ns bs ⟨ids, _, _, _, _, _, ⟨hlength, rfl, rfl⟩, -, ⟨rfl, rfl, rfl⟩, rfl, rfl⟩
      exact ⟨hlength, rfl, rfl⟩
    · exact .ofFailure _

theorem declareFunction_announces (d : FunDecl .parsed) :
    Announces (declareFunction d) (Announced (.func d)) := by
  have hglobal : Announces (onProgram fun p => p.declareGlobal d.name.text d.name.token)
      fun b _ ns bs => ns = [d.name.text] ∧ bs = [b] := fun s =>
    ⟨⟨s.program.declareGlobal_grows _ _, growsAll_refl _, id⟩, fun _ =>
      ⟨_, _, s.program.declareGlobal_declares _ _, rfl, rfl, rfl, rfl⟩⟩
  have hbind : ∀ b, Announces (bindFunction d b) Silent := by
    intro b
    refine ((onProgram_announces (fun q => q.addFun_grows _) fun q => .of_eq rfl rfl fun _ h => h).bind
      fun id => (onProgram_announces (fun q => ?_) fun q => q.modifyBinding_declares b ?_ ?_).bind
        fun _ => Announces.pure id).mono ?_
    · exact q.modifyBinding_grows b _ fun _ => ⟨rfl, rfl, rfl, fun h => h⟩
    · exact fun _ => rfl
    · exact fun _ => rfl
    · rintro a r ns bs ⟨_, _, _, _, _, _, ⟨rfl, rfl⟩, -, ⟨_, _, _, _, _, _, ⟨rfl, rfl⟩, -, ⟨-, rfl, rfl⟩,
        rfl, rfl⟩, rfl, rfl⟩
      exact ⟨rfl, rfl⟩
  refine (hglobal.bind fun b => (hbind b).bind fun id => (onProgram_announces (fun q => ?_)
    fun q => ?_).bind fun _ => Announces.pure (Hoisted.func id b)).mono ?_
  · exact .of_eq rfl rfl fun h => h
  · exact .of_eq rfl rfl fun _ h => h
  · rintro a r ns bs ⟨b, _, _, _, _, _, ⟨rfl, rfl⟩, -, ⟨id, _, _, _, _, _, ⟨rfl, rfl⟩, -,
      ⟨_, _, _, _, _, _, ⟨rfl, rfl⟩, -, ⟨rfl, rfl, rfl⟩, rfl, rfl⟩, rfl, rfl⟩, rfl, rfl⟩
    exact ⟨trivial, rfl, rfl⟩

def TypeGiven (q : Program) : Stmt .parsed → Option TypeId → Prop
  | .record .., a | .union .., a => ∃ id, a = some id ∧ q.HasType id
  | _, _ => True

theorem TypeGiven.later {q r : Program} (h : ∀ id, q.HasType id → r.HasType id)
    {t : Stmt .parsed} {a : Option TypeId} (ht : TypeGiven q t a) : TypeGiven r t a := by
  cases t with
  | record | union =>
    obtain ⟨id, ha, hid⟩ := ht
    exact ⟨id, ha, h id hid⟩
  | _ => trivial

def useFor (load : String → Except LoadError HostModule) : Stmt .parsed → Resolve Unit
  | .use tok path => useModule load tok path
  | _ => return

theorem modules_announces {load : String → Except LoadError HostModule}
    (hload : Loading.TidyLoader load) (ts : List (Stmt .parsed)) :
    Announces (ts.forM (useFor load)) Silent := by
  induction ts with
  | nil => exact (Announces.pure ()).mono fun _ _ _ _ h => h.2
  | cons t ts ih =>
    have hone : Announces (useFor load t) Silent := by
      cases t with
      | use tok path => exact useModule_announces hload tok path
      | _ => exact (Announces.pure ()).mono fun _ _ _ _ h => h.2
    refine (hone.bind fun _ => ih).mono ?_
    rintro a r ns bs ⟨_, _, _, _, _, _, ⟨rfl, rfl⟩, -, ⟨rfl, rfl⟩, rfl, rfl⟩
    exact ⟨rfl, rfl⟩

def typeFor : Stmt .parsed → Resolve (Option TypeId)
  | .record _ name _ => declareType name .record
  | .union _ name _ => declareType name .union
  | _ => return none

theorem types_announces (ts : List (Stmt .parsed)) : Announces (ts.mapM typeFor)
    fun as q ns bs => List.Forall₂ (TypeGiven q) ts as ∧ ns = [] ∧ bs = [] := by
  induction ts with
  | nil =>
    rw [List.mapM_nil]
    refine (Announces.pure []).mono ?_
    rintro a r ns bs ⟨rfl, rfl, rfl⟩
    exact ⟨.nil, rfl, rfl⟩
  | cons t ts ih =>
    have hone : Announces (typeFor t) fun a q ns bs => TypeGiven q t a ∧ ns = [] ∧ bs = [] := by
      cases t with
      | record | union => exact declareType_announces _ _
      | _ => exact (Announces.pure none).mono fun _ _ _ _ h => ⟨trivial, h.2⟩
    rw [List.mapM_cons]
    refine (hone.bind fun a => ih.bind fun as => Announces.pure (a :: as)).mono ?_
    rintro x r ns bs ⟨a, q, _, _, _, _, ⟨ha, rfl, rfl⟩, hdecl, ⟨as, _, _, _, _, _, ⟨has, rfl, rfl⟩, hdecl',
      ⟨rfl, rfl, rfl⟩, rfl, rfl⟩, rfl, rfl⟩
    exact ⟨.cons (ha.later hdecl.types) (has.imp fun _ _ => .later hdecl'.types), rfl, rfl⟩

def define : Stmt .parsed × Option TypeId → Resolve Unit
  | (.record _ _ decls, some id) => defineRecord id decls
  | (.union _ name decls, some id) => defineUnion id name decls
  | _ => return

theorem define_announces {s : State} {t : Stmt .parsed} {a : Option TypeId}
    (h : TypeGiven s.program t a) :
    AnnouncesAt s (define (t, a)) fun _ _ ns _ => ns = Lexical.variantNames t := by
  cases t with
  | record tok name decls =>
    obtain ⟨id, rfl, -⟩ := h
    exact (defineRecord_announces id decls s).mono fun _ _ _ _ h => h.1
  | union tok name decls =>
    obtain ⟨id, rfl, hid⟩ := h
    exact defineUnion_announces hid name decls
  | _ => exact ((Announces.pure ()) s).mono fun _ _ _ _ h => h.2.1

theorem define_later (x : Stmt .parsed × Option TypeId) (s : State) :
    s.Later ((define x).run s).2 := by
  rw [define.eq_def]
  split
  · exact (defineRecord_gives _ _ s).1
  · exact (defineUnion_gives _ _ _ s).1
  · exact .refl s

theorem defines_later : (xs : List (Stmt .parsed × Option TypeId)) → (s : State) →
    s.Later ((xs.forM define).run s).2
  | [], s => .refl s
  | x :: xs, s => (define_later x s).trans (defines_later xs _)

theorem defines_announces : {ts : List (Stmt .parsed)} → {as : List (Option TypeId)} → {s : State} →
    List.Forall₂ (TypeGiven s.program) ts as →
    AnnouncesAt s ((ts.zip as).forM define) fun _ _ ns _ => ns = ts.flatMap Lexical.variantNames
  | [], [], s, _ => ((Announces.pure ()) s).mono fun _ _ _ _ h => h.2.1
  | t :: ts, a :: as, s, .cons ht hts => by
    -- What was added stays added while the fields and variants of the first type are settled.
    refine ⟨defines_later _ s, fun he => ?_⟩
    have hmid := (defines_later (ts.zip as) ((define (t, a)).run s).2).errors he
    obtain ⟨ns, bs, hdecl, hscopes, hframes, rfl⟩ := (define_announces ht).2 hmid
    have hts' := hts.imp fun _ _ h => TypeGiven.later hdecl.types h
    obtain ⟨ms, cs, hdecl', hscopes', hframes', rfl⟩ := (defines_announces hts').2 he
    exact ⟨_, _, hdecl.trans hdecl', hscopes'.trans hscopes, hframes'.trans hframes, rfl⟩

def announce : Stmt .parsed → Resolve Hoisted
  | .impl _ name methods => declareImpl name methods
  | .func d => declareFunction d
  | _ => return .nothing

def AnnouncedAll (ts : List (Stmt .parsed)) (hs : List Hoisted) (_ : Program) (ns : List String)
    (bs : List BindingId) : Prop :=
  List.Forall₂ Belongs ts hs ∧ ns = ts.flatMap Lexical.functionName ∧ bs = hs.flatMap Hoisted.bindings

theorem announce_announces (ts : List (Stmt .parsed)) :
    Announces (ts.mapM announce) (AnnouncedAll ts) := by
  induction ts with
  | nil =>
    rw [List.mapM_nil]
    refine (Announces.pure []).mono ?_
    rintro a r ns bs ⟨rfl, rfl, rfl⟩
    exact ⟨.nil, rfl, rfl⟩
  | cons t ts ih =>
    have hone : Announces (announce t) (Announced t) := by
      cases t with
      | impl tok name ms => exact declareImpl_announces tok name ms
      | func d => exact declareFunction_announces d
      | _ =>
        refine (Announces.pure Hoisted.nothing).mono ?_
        rintro a r ns bs ⟨rfl, rfl, rfl⟩
        exact ⟨rfl, rfl, rfl⟩
    rw [List.mapM_cons]
    refine (hone.bind fun a => ih.bind fun as => Announces.pure (a :: as)).mono ?_
    rintro x r ns bs ⟨a, q, _, _, _, _, ⟨ha, rfl, rfl⟩, -, ⟨as, _, _, _, _, _, ⟨has, rfl, rfl⟩, -,
      ⟨rfl, rfl, rfl⟩, rfl, rfl⟩, rfl, rfl⟩
    exact ⟨.cons ha has, by simp, by simp⟩

def HoistedAll (ts : List (Stmt .parsed)) (hs : List Hoisted) (_ : Program) (ns : List String)
    (bs : List BindingId) : Prop :=
  List.Forall₂ Belongs ts hs ∧
    ns = ts.flatMap Lexical.variantNames ++ ts.flatMap Lexical.functionName ∧
      ∃ vs, bs = vs ++ hs.flatMap Hoisted.bindings

theorem hoist_announces {load : String → Except LoadError HostModule}
    (hload : Loading.TidyLoader load) (ts : List (Stmt .parsed)) :
    Announces (hoist load ts) (HoistedAll ts) := by
  have hdefine : ∀ {s : State} {as : List (Option TypeId)}, List.Forall₂ (TypeGiven s.program) ts as →
      AnnouncesAt s ((ts.zip as).forM define >>= fun _ => ts.mapM announce) (HoistedAll ts) := by
    intro s as has
    refine ((defines_announces has).bindIf (R := fun _ => AnnouncedAll ts) (announce_announces ts _).1
      fun _ _ _ => announce_announces ts _).mono ?_
    rintro hs r ns bs ⟨_, _, _, vs, _, _, rfl, -, ⟨hbelong, rfl, rfl⟩, rfl, rfl⟩
    exact ⟨hbelong, rfl, vs, rfl⟩
  have htypes : Announces (ts.mapM typeFor >>= fun as => (ts.zip as).forM define >>= fun _ =>
      ts.mapM announce) (HoistedAll ts) := by
    intro s
    refine ((types_announces ts s).bindIf (R := fun _ => HoistedAll ts)
      ((defines_later _ _).trans (announce_announces ts _).1) fun _ _ h => hdefine h.1).mono ?_
    rintro hs r ns bs ⟨_, _, _, _, _, _, ⟨-, rfl, rfl⟩, -, hpost, rfl, rfl⟩
    exact hpost
  refine Announces.mono (m := hoist load ts) ((modules_announces hload ts).bind fun _ => htypes) ?_
  rintro hs r ns bs ⟨_, _, _, _, _, _, ⟨rfl, rfl⟩, -, hpost, rfl, rfl⟩
  exact hpost

theorem funcs_finds : (ms : List (FunDecl .parsed)) → (ids : List FunId) → ids.length = ms.length →
    Finds (funcs ids ms) (Stands (fun Γ => Lexical.funcs Γ ms) Decls.funcs)
  | [], [], _ => by
    rw [funcs]
    · exact .leaf _ fun _ => .nil
    · simp
  | .mk t nm u hasSelf ps r (.mk v bt ss close) :: ms, id :: ids, hlength => by
    rw [funcs]
    refine ((func_finds id none (stmts_finds ss)).bind fun d =>
      (funcs_finds ms ids (by simpa using hlength)).bind fun ds => Finds.pure (d :: ds)).mono ?_
    rintro Γ a Δ ds ⟨d, _, _, _, ⟨rfl, hd, -, hds⟩, ⟨es, _, _, _, ⟨rfl, hes, hds'⟩, ⟨rfl, rfl, rfl⟩, rfl⟩,
      rfl⟩
    refine ⟨rfl, .cons hd hes, ?_⟩
    rw [Decls.funcs, List.append_nil]
    exact append_subset hds hds'

/-- What resolving a statement at top level does, if what was made in advance belongs to it. -/
def StandsTop (h : Hoisted) (t : Stmt .parsed) (Γ : Chain) (t' : Stmt .resolved) (Δ : Chain)
    (ds : List (FunDecl .resolved)) : Prop :=
  Lexical.top Γ t t' Δ ∧ Lexical.functionBinding t' = h.bindings ∧ ds ⊆ Decls.stmt t'

theorem Belongs.eq_nothing {t : Stmt .parsed} {h : Hoisted} (hbelongs : Belongs t h)
    (hfunc : ∀ d, t ≠ .func d) (himpl : ∀ tok nm ms, t ≠ .impl tok nm ms) : h = .nothing := by
  cases t with
  | func d => exact absurd rfl (hfunc d)
  | impl tok nm ms => exact absurd rfl (himpl tok nm ms)
  | _ => exact hbelongs

theorem functionBinding_of_stmt {Γ Δ : Chain} {t : Stmt .parsed} {t' : Stmt .resolved}
    (hfunc : ∀ d, t ≠ .func d) (h : Lexical.stmt Γ t t' Δ) : Lexical.functionBinding t' = [] := by
  cases h with
  | func => exact absurd rfl (hfunc _)
  | _ => rfl

theorem topStmt_finds {h : Hoisted} {t : Stmt .parsed} (hbelongs : Belongs t h) :
    Finds (topStmt h t) (StandsTop h t) := by
  have hleaf : ∀ t' : Stmt .resolved, (∀ Γ, Lexical.top Γ t t' Γ) →
      Lexical.functionBinding t' = h.bindings → Finds (pure t') (StandsTop h t) := by
    intro t' htop hbinding
    refine (Finds.pure t').mono ?_
    rintro Γ a Δ ds ⟨rfl, rfl, rfl⟩
    exact ⟨htop _, hbinding, List.nil_subset _⟩
  have hother : (∀ d, t ≠ .func d) → (∀ tok nm ms, t ≠ .impl tok nm ms) →
      Finds (stmt t) (StandsTop h t) := by
    intro hfunc himpl
    obtain rfl := hbelongs.eq_nothing hfunc himpl
    refine (stmt_finds t).mono ?_
    rintro Γ t' Δ ds ⟨hcode, hds⟩
    exact ⟨.other hfunc hcode, functionBinding_of_stmt hfunc hcode, hds⟩
  cases t with
  | func d =>
    cases h with
    | func id b =>
      obtain ⟨tok, nm, u, hasSelf, ps, r, ⟨v, bt, ss, close⟩⟩ := d
      refine ((func_finds id (some b) (stmts_finds ss)).bind fun d =>
        Finds.pure (Stmt.func d : Stmt .resolved)).mono ?_
      rintro Γ t' Δ ds ⟨d, _, _, _, ⟨rfl, hd, hbinding, hds⟩, ⟨rfl, rfl, rfl⟩, rfl⟩
      refine ⟨.func hd, ?_, by simpa [Decls.stmt] using hds⟩
      rw [Lexical.functionBinding, hbinding]
      rfl
    | nothing | impl => exact hbelongs.elim
  | impl tok nm ms =>
    cases h with
    | impl ids =>
      refine ((funcs_finds ms ids hbelongs).bind fun ds =>
        Finds.pure (Stmt.impl tok nm ds : Stmt .resolved)).mono ?_
      rintro Γ t' Δ ds ⟨es, _, _, _, ⟨rfl, hes, hds⟩, ⟨rfl, rfl, rfl⟩, rfl⟩
      exact ⟨.impl hes, rfl, by simpa [Decls.stmt] using hds⟩
    | nothing | func => exact hbelongs.elim
  | record => exact hleaf _ (fun _ => .record) (hbelongs.symm ▸ rfl)
  | union => exact hleaf _ (fun _ => .union) (hbelongs.symm ▸ rfl)
  | use => exact hleaf _ (fun _ => .use) (hbelongs.symm ▸ rfl)
  | _ => exact hother (fun _ => nofun) fun _ _ _ => nofun

theorem topStmts_finds : {ts : List (Stmt .parsed)} → {hs : List Hoisted} →
    List.Forall₂ Belongs ts hs → Finds ((hs.zip ts).mapM fun (h, t) => topStmt h t)
      fun Γ ts' Δ ds => Lexical.tops Γ ts ts' Δ ∧
        ts'.flatMap Lexical.functionBinding = hs.flatMap Hoisted.bindings ∧ ds ⊆ Decls.stmts ts'
  | [], [], _ => by
    rw [List.zip_nil_left, List.mapM_nil]
    refine (Finds.pure []).mono ?_
    rintro Γ a Δ ds ⟨rfl, rfl, rfl⟩
    exact ⟨.nil, rfl, List.nil_subset _⟩
  | t :: ts, h :: hs, .cons ht hts => by
    rw [List.zip_cons_cons, List.mapM_cons]
    refine ((topStmt_finds ht).bind fun u => (topStmts_finds hts).bind fun us =>
      Finds.pure (u :: us)).mono ?_
    rintro Γ a Δ ds ⟨u, _, _, _, ⟨hu, hb, hds⟩, ⟨us, _, _, _, ⟨hus, hbs, hds'⟩, ⟨rfl, rfl, rfl⟩, rfl⟩, rfl⟩
    refine ⟨.cons hu hus, ?_, ?_⟩
    · rw [List.flatMap_cons, List.flatMap_cons, hb, hbs]
    · rw [Decls.stmts, List.append_nil]
      exact append_subset hds hds'

theorem declareAll_root (f : Names) (xs : List (String × BindingId)) :
    Chain.declareAll [f] xs = [Program.declared f xs] := by
  induction xs generalizing f with
  | nil => rfl
  | cons x xs ih => exact ih (f.bind x.1 x.2)

theorem batch_run (load : String → Except LoadError HostModule) (ts : List (Stmt .parsed))
    (s : State) : (batch load ts).run s
      = if ((hoist load ts).run s).2.errors.isEmpty then
          ((((hoist load ts).run s).1.zip ts).mapM fun (h, t) => topStmt h t).run
            ((hoist load ts).run s).2
        else ([], ((hoist load ts).run s).2) := by
  show (if ((hoist load ts).run s).2.errors.isEmpty then
      (((hoist load ts).run s).1.zip ts).mapM fun (h, t) => topStmt h t
    else pure [] : Resolve (List (Stmt .resolved))).run ((hoist load ts).run s).2 = _
  split <;> rfl

theorem batch_finds {load : String → Except LoadError HostModule} (hload : Loading.TidyLoader load)
    {p : Program} (hk : p.types.Keyed) {ts : List (Stmt .parsed)} {ts' : List (Stmt .resolved)}
    {t : State} (hrun : (batch load ts).run { program := p } = (ts', t)) (herr : t.errors = #[]) :
    Lexical.batch p t.program ts ts' ∧ ∀ b, (t.program.binding b).captured = true →
      (p.binding b).captured = true ∨ Lists (Decls.stmts ts') b := by
  rw [batch_run] at hrun
  have hhoist := hoist_announces hload ts { program := p }
  rw [AnnouncesAt] at hhoist
  generalize (hoist load ts).run { program := p } = x at hrun hhoist
  obtain ⟨hs, s⟩ := x
  split at hrun
  case isFalse hfailed =>
    obtain ⟨-, rfl⟩ := Prod.mk.inj hrun
    exact absurd (Array.isEmpty_iff.mpr herr) hfailed
  case isTrue hempty =>
    obtain ⟨ns, bs, hdecl, hscopes, hframes, hbelong, hns, vs, hbs⟩ :=
      hhoist.2 (Array.isEmpty_iff.mp hempty)
    have hfinds := topStmts_finds hbelong s
    dsimp only at hrun hfinds
    rw [FindsAt, hrun] at hfinds
    obtain ⟨hlater, hpost⟩ := hfinds
    obtain ⟨ds, hsteps, htops, hbindings, hds⟩ := hpost (hhoist.1.program.keyed hk) herr
    dsimp only at hscopes hframes hdecl
    have hchain : s.chain = Chain.declareAll [p.scope.get?] (ns.zip bs) := by
      rw [State.chain, hscopes, hdecl.scope, declareAll_root]
      rfl
    rw [hchain] at htops
    subst hns hbs
    rw [← hbindings] at htops hdecl
    refine ⟨⟨vs, _, ?_, htops⟩, fun b hb => ?_⟩
    · refine hdecl.new.imp ?_
      rintro name b ⟨hold, hnew, hname⟩
      exact ⟨hold, (hsteps.names b hnew).trans hname⟩
    · rcases hsteps.marked b hb with hb | hb | ⟨f, hf, -⟩
      · exact .inl (hdecl.marked b hb)
      · exact .inr (hb.mono hds)
      · -- No function is open behind the batch.
        have hnone : t.frames = [] := by
          have hgrow := hlater.frames
          rw [hframes] at hgrow
          exact List.forall₂_nil_left_iff.mp hgrow
        rw [hnone] at hf
        cases hf

end Resolve

theorem Source.resolve_finds {load : String → Except LoadError HostModule}
    (hload : Loading.TidyLoader load) {p q : Program} (hk : p.types.Keyed) {src : Source .parsed}
    {out : Source .resolved} (h : src.resolve load p = (.ok out, q)) :
    Lexical.batch p q src.stmts out.stmts ∧ ∀ b, (q.binding b).captured = true →
      (p.binding b).captured = true ∨ Resolve.Lists (Decls.stmts out.stmts) b := by
  rw [Source.resolve] at h
  generalize hrun : (Resolve.batch load src.stmts).run { program := p } = run at h
  obtain ⟨ts, s⟩ := run
  obtain ⟨hout, rfl⟩ := Prod.mk.inj h
  split at hout
  case isFalse => cases hout
  case isTrue herr =>
    obtain rfl := Except.ok.inj hout
    exact Resolve.batch_finds hload hk hrun (Array.isEmpty_iff.mp herr)

end Scripting
