import Scripting.Proofs.Scope.Lexical
import Scripting.Proofs.Scope.Resolved

/-!
# Names find their declarations

`Finds m Post` says what a step of name resolution does to the chain of scopes, and which functions it
settles. On the way `Steps` keeps account of the variables that are marked as captured: each is listed
by a function that is settled, or by one that is still open.
-/

namespace Scripting.Resolve

/-- What the open scopes have declared. -/
def State.chain (s : State) : Chain := s.scopes.map (fun sc => sc.get?) ++ [s.program.scope.get?]

def Lists (ds : List (FunDecl .resolved)) (b : BindingId) : Prop :=
  ∃ d ∈ ds, ∃ v ∈ d.info.free, v.binding = b

def Opens (fs : List Frame) (b : BindingId) : Prop :=
  ∃ f ∈ fs, ∃ v ∈ f.free.toList, v.binding = b

/-- What a step that settles functions does: bindings keep their names, a variable is marked only if it
is listed, and inside a scope the top level stays. -/
structure Steps (ds : List (FunDecl .resolved)) (s t : State) : Prop where
  names : ∀ b < s.program.bindings.size, (t.program.binding b).name = (s.program.binding b).name
  marked : ∀ b, (t.program.binding b).captured = true →
    (s.program.binding b).captured = true ∨ Lists ds b ∨ Opens t.frames b
  root : s.scopes ≠ [] → t.scopes ≠ [] ∧ t.program.scope = s.program.scope

def FindsAt {α : Type} (s : State) (m : Resolve α)
    (Post : Chain → α → Chain → List (FunDecl .resolved) → Prop) : Prop :=
  s.Later (m.run s).2 ∧ (s.program.types.Keyed → (m.run s).2.errors = #[] → ∃ ds,
    Steps ds s (m.run s).2 ∧ Post s.chain (m.run s).1 (m.run s).2.chain ds)

/-- What a step does to the chain, if no failure was reported, and which functions it settles. -/
def Finds {α : Type} (m : Resolve α)
    (Post : Chain → α → Chain → List (FunDecl .resolved) → Prop) : Prop := ∀ s, FindsAt s m Post

/-- A step that leaves the chain as it is and gives a tree that settles its functions. -/
def Stands {α : Type} (L : Chain → α → Prop) (D : α → List (FunDecl .resolved)) (Γ : Chain) (a : α)
    (Δ : Chain) (ds : List (FunDecl .resolved)) : Prop :=
  Δ = Γ ∧ L Γ a ∧ ds ⊆ D a

theorem Lists.mono {ds es : List (FunDecl .resolved)} {b : BindingId} (h : Lists ds b) (hs : ds ⊆ es) :
    Lists es b := by
  obtain ⟨d, hd, hv⟩ := h
  exact ⟨d, hs hd, hv⟩

theorem Opens.grow {fs gs : List Frame} {b : BindingId} (h : Opens fs b)
    (hg : List.Forall₂ Frame.Grows fs gs) : Opens gs b := by
  obtain ⟨f, hf, v, hv, hb⟩ := h
  induction hg with
  | nil => cases hf
  | cons hfg _ ih =>
    rcases List.mem_cons.mp hf with rfl | hf
    · exact ⟨_, List.mem_cons_self, v, hfg.free.subset hv, hb⟩
    · obtain ⟨g, hg, hopen⟩ := ih hf
      exact ⟨g, List.mem_cons_of_mem _ hg, hopen⟩

namespace Steps

variable {s t u : State} {ds es : List (FunDecl .resolved)}

theorem refl (s : State) : Steps [] s s :=
  ⟨fun _ _ => rfl, fun _ h => .inl h, fun h => ⟨h, rfl⟩⟩

theorem trans (hst : s.Later t) (htu : t.Later u) (h : Steps ds s t) (k : Steps es t u) :
    Steps (ds ++ es) s u where
  names b hb := (k.names b (Nat.lt_of_lt_of_le hb hst.program.size)).trans (h.names b hb)
  marked b hb := by
    rcases k.marked b hb with hb | hb | hb
    · rcases h.marked b hb with hb | hb | hb
      · exact .inl hb
      · exact .inr (.inl (hb.mono (List.subset_append_left _ _)))
      · exact .inr (.inr (hb.grow htu.frames))
    · exact .inr (.inl (hb.mono (List.subset_append_right _ _)))
    · exact .inr (.inr hb)
  root hs :=
    have hs' := h.root hs
    have hs'' := k.root hs'.1
    ⟨hs''.1, hs''.2.trans hs'.2⟩

theorem of_eq (hb : t.program.bindings = s.program.bindings) (hsc : t.program.scope = s.program.scope)
    (hs : t.scopes = s.scopes) : Steps [] s t := by
  have hsame : ∀ b, t.program.binding b = s.program.binding b := fun b => by
    rw [Program.binding, hb, Program.binding]
  refine ⟨fun b _ => by rw [hsame], fun b h => .inl (by rwa [hsame] at h), fun h => ⟨?_, hsc⟩⟩
  rwa [hs]

end Steps

section

variable {α β γ : Type} {m : Resolve α} {s : State}
  {P Q : Chain → α → Chain → List (FunDecl .resolved) → Prop}

theorem FindsAt.mono (h : FindsAt s m P) (hPQ : ∀ Γ a Δ ds, P Γ a Δ ds → Q Γ a Δ ds) :
    FindsAt s m Q := by
  refine ⟨h.1, fun hk he => ?_⟩
  obtain ⟨ds, hsteps, hP⟩ := h.2 hk he
  exact ⟨ds, hsteps, hPQ _ _ _ _ hP⟩

theorem FindsAt.ofGet {f : State → Resolve α} (h : FindsAt s (f s) P) : FindsAt s (get >>= f) P := h

theorem FindsAt.bind {f : α → Resolve β}
    {R : α → Chain → β → Chain → List (FunDecl .resolved) → Prop} (hm : FindsAt s m P)
    (hf : FindsAt (m.run s).2 (f (m.run s).1) (R (m.run s).1)) :
    FindsAt s (m >>= f) fun Γ b Δ ds => ∃ a Θ ds₁ ds₂, P Γ a Θ ds₁ ∧ R a Θ b Δ ds₂ ∧ ds = ds₁ ++ ds₂ := by
  obtain ⟨hlater, hpost⟩ := hm
  obtain ⟨hlater', hpost'⟩ := hf
  refine ⟨hlater.trans hlater', fun hk he => ?_⟩
  obtain ⟨ds₂, hsteps', hR⟩ := hpost' (hlater.program.keyed hk) he
  obtain ⟨ds₁, hsteps, hP⟩ := hpost hk (hlater'.errors he)
  exact ⟨ds₁ ++ ds₂, hsteps.trans hlater hlater' hsteps', _, _, ds₁, ds₂, hP, hR, rfl⟩

theorem Finds.mono (h : Finds m P) (hPQ : ∀ Γ a Δ ds, P Γ a Δ ds → Q Γ a Δ ds) : Finds m Q :=
  fun s => (h s).mono hPQ

theorem FindsAt.after {f : α → Resolve β}
    {R : α → Chain → β → Chain → List (FunDecl .resolved) → Prop} (hm : FindsAt s m P)
    (hf : ∀ a, Finds (f a) (R a)) :
    FindsAt s (m >>= f) fun Γ b Δ ds => ∃ a Θ ds₁ ds₂, P Γ a Θ ds₁ ∧ R a Θ b Δ ds₂ ∧ ds = ds₁ ++ ds₂ :=
  hm.bind (hf _ _)

theorem Finds.bind {f : α → Resolve β}
    {R : α → Chain → β → Chain → List (FunDecl .resolved) → Prop} (hm : Finds m P)
    (hf : ∀ a, Finds (f a) (R a)) :
    Finds (m >>= f) fun Γ b Δ ds => ∃ a Θ ds₁ ds₂, P Γ a Θ ds₁ ∧ R a Θ b Δ ds₂ ∧ ds = ds₁ ++ ds₂ :=
  fun s => (hm s).after hf

theorem Finds.pure (a : α) : Finds (Pure.pure a : Resolve α) fun Γ b Δ ds => b = a ∧ Δ = Γ ∧ ds = [] :=
  fun s => ⟨.refl s, fun _ _ => ⟨[], .refl s, rfl, rfl, rfl⟩⟩

theorem FindsAt.ofFailure {code : Diagnostic.Code} {tok : Token} {msg : String} (a : α) :
    FindsAt s (do report code tok msg; return a) P := by
  have herr : s.errors.push (.report code tok msg) ≠ #[] := Array.push_ne_empty
  exact ⟨⟨.refl _, growsAll_refl _, fun h => absurd h herr⟩, fun _ h => absurd h herr⟩

end

/-- A change of the program that touches no names. -/
structure Quiet (q r : Program) : Prop where
  names : ∀ b < q.bindings.size, (r.binding b).name = (q.binding b).name
  marked : ∀ b, (r.binding b).captured = true → (q.binding b).captured = true
  scope : r.scope = q.scope

theorem Quiet.refl (q : Program) : Quiet q q := ⟨fun _ _ => rfl, fun _ => id, rfl⟩

theorem Quiet.trans {q r u : Program} (h : Quiet q r) (k : Quiet r u)
    (hsize : q.bindings.size ≤ r.bindings.size) : Quiet q u where
  names b hb := (k.names b (Nat.lt_of_lt_of_le hb hsize)).trans (h.names b hb)
  marked b hb := h.marked b (k.marked b hb)
  scope := k.scope.trans h.scope

theorem Quiet.of_eq {q r : Program} (hb : r.bindings = q.bindings) (hs : r.scope = q.scope) :
    Quiet q r := by
  have hsame : ∀ b, r.binding b = q.binding b := fun b => by
    rw [Program.binding, hb, Program.binding]
  exact ⟨fun b _ => by rw [hsame], fun b h => by rwa [hsame] at h, hs⟩

theorem binding_of_ge {q : Program} {b : BindingId} (hb : q.bindings.size ≤ b) :
    (q.binding b).captured = false := by
  rw [Program.binding, Array.getD_eq_getD_getElem?, Array.getElem?_eq_none hb]
  rfl

theorem addBinding_quiet (q : Program) {x : Binding} (hx : x.captured = false) :
    Quiet q (q.addBinding x).2 := by
  refine ⟨fun b hb => ?_, fun b h => ?_, rfl⟩
  · exact congrArg Binding.name (Program.binding_push_lt hb)
  · rcases Nat.lt_trichotomy b q.bindings.size with hlt | rfl | hgt
    · exact (congrArg Binding.captured (Program.binding_push_lt hlt)).symm.trans h
    · have hcap := congrArg Binding.captured (q.binding_push_size x)
      exact absurd (hcap.symm.trans h) (by simp [hx])
    · have hcap : ((q.addBinding x).2.binding b).captured = false :=
        binding_of_ge (by simpa [Program.addBinding] using Nat.succ_le_of_lt hgt)
      exact absurd h (by simp [hcap])

theorem modifyBinding_quiet (q : Program) (c : BindingId) {f : Binding → Binding}
    (hname : ∀ x, (f x).name = x.name) (hcap : ∀ x, (f x).captured = x.captured) :
    Quiet q (q.modifyBinding c f) := by
  refine ⟨fun b hb => ?_, fun b h => ?_, rfl⟩
  · rw [Program.binding_modify hb]
    split
    · exact hname _
    · rfl
  · by_cases hb : b < q.bindings.size
    · rw [Program.binding_modify hb] at h
      split at h
      · rwa [hcap] at h
      · exact h
    · have hcap : ((q.modifyBinding c f).binding b).captured = false :=
        binding_of_ge (by simpa [Program.modifyBinding] using hb)
      exact absurd h (by simp [hcap])

theorem Steps.ofQuiet {s : State} {r : Program} (h : Quiet s.program r) :
    Steps [] s { s with program := r } :=
  ⟨h.names, fun b hb => .inl (h.marked b hb), fun hs => ⟨hs, h.scope⟩⟩

theorem onProgram_finds {α : Type} {f : Program → α × Program} (hg : ∀ q : Program, q.Grows (f q).2)
    (hq : ∀ q, Quiet q (f q).2) :
    Finds (onProgram f) fun Γ _ Δ ds => Δ = Γ ∧ ds = [] := fun s =>
  ⟨⟨hg s.program, growsAll_refl _, id⟩, fun _ _ => ⟨[], .ofQuiet (hq s.program), by
    refine ⟨?_, rfl⟩
    show s.scopes.map (fun sc => sc.get?) ++ [(f s.program).2.scope.get?] = s.chain
    rw [(hq s.program).scope]
    rfl⟩⟩

theorem find_chain (s : State) (name : String) : s.chain.find name = found s name := by
  have hscopes : ∀ (scs : List Scope) (f : Names),
      Chain.find (scs.map (fun sc => sc.get?) ++ [f]) name = (Scope.lookup name scs).or (f name) := by
    intro scs f
    induction scs with
    | nil => simp [Chain.find, Scope.lookup]
    | cons sc scs ih =>
      rw [List.map_cons, List.cons_append, Chain.find, ih, Scope.lookup]
      cases sc.get? name <;> rfl
  rw [State.chain, hscopes, found]
  cases Scope.lookup name s.scopes <;> rfl

theorem opens_of_findIdx? {f : Frame} {fs : List Frame} {b : BindingId} {i : Nat}
    (hi : f.free.findIdx? (fun v => v.binding == b) = some i) : Opens (f :: fs) b := by
  obtain ⟨hlt, hbeq, -⟩ := Array.findIdx?_eq_some_iff_getElem.mp hi
  exact ⟨f, List.mem_cons_self, f.free[i], by simp, eq_of_beq hbeq⟩

theorem opens_push {f : Frame} {fs : List Frame} (v : FreeVar) :
    Opens ({ f with free := f.free.push v } :: fs) v.binding :=
  ⟨_, List.mem_cons_self, v, by simp, rfl⟩

theorem capture_opens (b : BindingId) (depth index : Nat) (f : Frame) : (fs : List Frame) →
    Opens (capture b depth index (f :: fs)).2 b
  | [] => by
    simp only [capture]
    split
    case h_1 i hi => exact opens_of_findIdx? hi
    case h_2 => exact opens_push ⟨b, true, index⟩
  | g :: fs => by
    rw [capture]
    split
    case h_1 i hi => exact opens_of_findIdx? hi
    case h_2 =>
      dsimp only
      split
      · exact opens_push ⟨b, true, index⟩
      · exact opens_push ⟨b, false, _⟩

theorem captured_steps {s : State} {b : BindingId} {f : Frame} {fs : List Frame}
    (hf : s.frames = f :: fs) : Steps [] s (captured b s) := by
  refine ⟨fun c hc => ?_, fun c hc => ?_, fun hs => ⟨hs, rfl⟩⟩
  · rw [captured, Program.binding_modify hc]
    split <;> rfl
  · by_cases hcb : c = b
    · subst hcb
      refine .inr (.inr ?_)
      rw [captured, hf]
      exact capture_opens c _ _ f fs
    · refine .inl ?_
      by_cases hlt : c < s.program.bindings.size
      · rw [captured, Program.binding_modify hlt, if_neg (Ne.symm hcb)] at hc
        exact hc
      · have hcap : ((captured b s).program.binding c).captured = false :=
          binding_of_ge (by simpa [captured, Program.modifyBinding] using hlt)
        exact absurd hc (by simp [hcap])

theorem slotFor_finds (b : BindingId) :
    Finds (slotFor b) fun Γ slot Δ ds => slot.binding = b ∧ Δ = Γ ∧ ds = [] := by
  intro s
  refine ⟨slotFor_later b s, fun _ _ => ⟨[], ?_⟩⟩
  rw [slotFor_run]
  split
  · exact ⟨.refl s, rfl, rfl, rfl⟩
  · exact ⟨.refl s, rfl, rfl, rfl⟩
  case h_3 f fs _ hf =>
    split
    · exact ⟨.refl s, rfl, rfl, rfl⟩
    · exact ⟨captured_steps hf, rfl, rfl, rfl⟩

theorem typeBinding_quiet (q : Program) (d : TypeDef) (tok : Token) :
    Quiet q (q.typeBinding d tok).2 := by
  rw [Program.typeBinding]
  split
  · exact .refl q
  · have hslot : Quiet q (q.newSlot ("$type:" ++ d.name) tok).2 := by
      have hadd := addBinding_quiet q
        (x := { name := "$type:" ++ d.name, index := q.slots.size, storage := .global, token := tok }) rfl
      exact ⟨hadd.names, hadd.marked, hadd.scope⟩
    have hset := modifyBinding_quiet (q.newSlot ("$type:" ++ d.name) tok).2 q.bindings.size
      (f := fun x => { x with hidden := true, typeValue := d.type, type := .type d.type })
      (fun _ => rfl) (fun _ => rfl)
    have hsize : q.bindings.size ≤ (q.newSlot ("$type:" ++ d.name) tok).2.bindings.size :=
      (q.newSlot_grows _ tok).size
    exact (hslot.trans hset hsize).trans (.of_eq rfl rfl) (by simpa [Program.modifyBinding] using hsize)

theorem named_finds {s : State} (b : BindingId) (tok : Token) (text : String)
    {L : Chain → Expr .resolved → Prop}
    (hL : ∀ slot : Slot, slot.binding = b → L s.chain (.name () tok text slot)) :
    FindsAt s (do return .name () tok text (← slotFor b)) (Stands L Decls.expr) := by
  have hall := (slotFor_finds b s).after fun slot =>
    Finds.pure (Expr.name () tok text slot : Expr .resolved)
  refine ⟨hall.1, fun hk he => ?_⟩
  obtain ⟨ds, hsteps, slot, Θ, ds₁, ds₂, ⟨hb, hΘ, rfl⟩, ⟨hname, hΔ, rfl⟩, rfl⟩ := hall.2 hk he
  exact ⟨_, hsteps, hΔ.trans hΘ, hname ▸ hL slot hb, by simp⟩

theorem readType_finds {s : State} (d : TypeDef) (tok : Token) {L : Chain → Expr .resolved → Prop}
    (hL : ∀ slot, L s.chain (.name () tok d.name slot)) :
    FindsAt s (readType d tok) (Stands L Decls.expr) := by
  have hbind := onProgram_finds (fun q => typeBinding_grows q d tok) (fun q => typeBinding_quiet q d tok) s
  have hchain : ((onProgram fun p => p.typeBinding d tok).run s).2.chain = s.chain :=
    congrArg (fun sc : Scope => s.scopes.map (fun sc => sc.get?) ++ [sc.get?])
      (typeBinding_quiet s.program d tok).scope
  refine (hbind.bind (R := fun _ => Stands L Decls.expr) (named_finds _ tok d.name
    fun slot _ => hchain.symm ▸ hL slot)).mono ?_
  rintro Γ e Δ ds ⟨b, Θ, ds₁, ds₂, ⟨rfl, rfl⟩, hstands, rfl⟩
  exact hstands

theorem FindsAt.ofLookup {α : Type} {s : State} {name : String} {f : Option BindingId → Resolve α}
    {P : Chain → α → Chain → List (FunDecl .resolved) → Prop} (h : FindsAt s (f (found s name)) P) :
    FindsAt s (lookup name >>= f) P := by
  have hrun : (lookup name >>= f).run s = (f (found s name)).run s := by
    show (f ((lookup name).run s).1).run ((lookup name).run s).2 = _
    rw [lookup_run]
  rw [FindsAt, hrun]
  exact h

theorem readName_finds (tok : Token) (name : String) (u v : Unit) :
    Finds (readName tok name) (Stands (fun Γ => Lexical.expr Γ (.name u tok name v)) Decls.expr) := by
  intro s
  apply FindsAt.ofLookup
  cases hb : found s name with
  | some b =>
    refine FindsAt.ofGet (named_finds b tok _ fun slot hslot => .variable ?_)
    rw [find_chain, hb, hslot]
  | none =>
    apply FindsAt.ofGet
    split
    case h_1 => exact .ofFailure _
    case h_2 d _ => exact readType_finds d tok fun slot => .type (by rw [find_chain, hb])
    case h_3 => exact .ofFailure _

theorem assignName_finds (tok : Token) (name : String) (u v : Unit) :
    Finds (assignName tok name) (Stands (fun Γ => Lexical.expr Γ (.name u tok name v)) Decls.expr) := by
  intro s
  apply FindsAt.ofLookup
  cases hb : found s name with
  | none => exact .ofFailure _
  | some b =>
    apply FindsAt.ofGet
    dsimp only
    split
    · exact .ofFailure _
    · refine named_finds b tok _ fun slot hslot => .variable ?_
      rw [find_chain, hb, hslot]

theorem define_names (sc : Scope) (name : String) (b : BindingId) :
    (sc.define name b).get? = Names.bind sc.get? name b :=
  funext fun other => Program.get?_define sc name other b

theorem newLocal_steps (name : String) (tok : Token) (s : State) :
    Steps [] s ((newLocal name tok).run s).2 ∧ ((newLocal name tok).run s).2.scopes = s.scopes ∧
      ((newLocal name tok).run s).2.program.scope = s.program.scope := by
  obtain ⟨q, scs, fs, errs⟩ := s
  cases fs with
  | nil =>
    have hq := addBinding_quiet q
      (x := { name := name, index := q.slots.size, storage := .global, token := tok }) rfl
    exact ⟨⟨hq.names, fun b hb => .inl (hq.marked b hb), fun hs => ⟨hs, rfl⟩⟩, rfl, rfl⟩
  | cons f fs =>
    have hq := addBinding_quiet q
      (x := { name := name, index := f.nextSlot, storage := .frame, depth := f.depth, token := tok }) rfl
    exact ⟨⟨hq.names, fun b hb => .inl (hq.marked b hb), fun hs => ⟨hs, rfl⟩⟩, rfl, rfl⟩

theorem newLocal_finds (name : String) (tok : Token) :
    Finds (newLocal name tok) fun Γ _ Δ ds => Δ = Γ ∧ ds = [] := by
  intro s
  obtain ⟨hsteps, hscopes, hscope⟩ := newLocal_steps name tok s
  refine ⟨newLocal_later name tok s, fun _ _ => ⟨[], hsteps, ?_, rfl⟩⟩
  rw [State.chain, hscopes, hscope, State.chain]

theorem declareHidden_finds (name : String) (tok : Token) :
    Finds (declareHidden name tok) fun Γ _ Δ ds => Δ = Γ ∧ ds = [] := by
  refine ((newLocal_finds name tok).bind fun b => (onProgram_finds (fun q => ?_) fun q => ?_).bind
    fun _ => Finds.pure b).mono ?_
  · exact q.modifyBinding_grows b _ fun _ => ⟨rfl, rfl, rfl, id⟩
  · exact modifyBinding_quiet q b (fun _ => rfl) fun _ => rfl
  · rintro Γ b Δ ds ⟨_, Θ, ds₁, ds₂, ⟨rfl, rfl⟩, ⟨-, _, _, _, ⟨rfl, rfl⟩, ⟨-, rfl, rfl⟩, rfl⟩, rfl⟩
    exact ⟨rfl, rfl⟩

theorem declareGlobal_quiet (q : Program) (name : String) (tok : Token) :
    (∀ b < q.bindings.size, ((q.declareGlobal name tok).2.binding b).name = (q.binding b).name) ∧
      ∀ b, ((q.declareGlobal name tok).2.binding b).captured = true → (q.binding b).captured = true :=
  have hq := addBinding_quiet q
    (x := { name := name, index := q.slots.size, storage := .global, token := tok }) rfl
  ⟨hq.names, hq.marked⟩

theorem declare_finds (name : String) (tok : Token) :
    Finds (declare name tok) fun Γ b Δ ds => Δ = Γ.declare name b ∧ ds = [] := by
  intro s
  refine ⟨(declare_gives name tok s).1, fun _ _ => ⟨[], ?_⟩⟩
  obtain ⟨q, scs, fs, errs⟩ := s
  cases scs with
  | nil =>
    have hq := declareGlobal_quiet q name tok
    refine ⟨⟨hq.1, fun b hb => .inl (hq.2 b hb), fun hs => absurd rfl hs⟩, ?_, rfl⟩
    exact congrArg (fun f : Names => [f]) (define_names q.scope name q.bindings.size)
  | cons sc scs =>
    have hnew := newLocal_steps name tok ⟨q, sc :: scs, fs, errs⟩
    cases fs with
    | nil =>
      refine ⟨⟨hnew.1.names, hnew.1.marked, fun _ => ⟨List.cons_ne_nil _ _, rfl⟩⟩, ?_, rfl⟩
      exact congrArg (fun f : Names => f :: (scs.map (fun sc => sc.get?) ++ [q.scope.get?]))
        (define_names sc name q.bindings.size)
    | cons f fs =>
      refine ⟨⟨hnew.1.names, hnew.1.marked, fun _ => ⟨List.cons_ne_nil _ _, rfl⟩⟩, ?_, rfl⟩
      exact congrArg (fun f : Names => f :: (scs.map (fun sc => sc.get?) ++ [q.scope.get?]))
        (define_names sc name q.bindings.size)

theorem bindFunction_finds {P : Phase} (d : FunDecl P) (b : BindingId) :
    Finds (bindFunction d b) fun Γ _ Δ ds => Δ = Γ ∧ ds = [] := by
  refine ((onProgram_finds (fun q => q.addFun_grows _) fun q => .of_eq rfl rfl).bind fun id =>
    (onProgram_finds (fun q => ?_) fun q => ?_).bind fun _ => Finds.pure id).mono ?_
  · exact q.modifyBinding_grows b _ fun _ => ⟨rfl, rfl, rfl, fun h => h⟩
  · exact modifyBinding_quiet q b (fun _ => rfl) fun _ => rfl
  · rintro Γ b Δ ds ⟨_, Θ, ds₁, ds₂, ⟨rfl, rfl⟩, ⟨-, _, _, _, ⟨rfl, rfl⟩, ⟨-, rfl, rfl⟩, rfl⟩, rfl⟩
    exact ⟨rfl, rfl⟩

theorem declareNested_finds {P : Phase} (d : FunDecl P) :
    Finds (declareNested d) fun Γ a Δ ds => Δ = Γ.declare d.name.text a.2 ∧ ds = [] := by
  have hpending : ∀ (id : FunId) (b : BindingId), Finds (do
      if ((← get).program.binding b).storage == .global then
        onProgram fun p => ((), p.addPending b)
      return (id, b)) fun Γ a Δ ds => a = (id, b) ∧ Δ = Γ ∧ ds = [] := by
    intro id b s
    apply FindsAt.ofGet
    dsimp only
    split
    · refine (((onProgram_finds (fun q => .of_eq rfl rfl fun h => h) fun q => .of_eq rfl rfl).bind fun _ =>
        Finds.pure (id, b)) s).mono ?_
      rintro Γ a Δ ds ⟨-, _, _, _, ⟨rfl, rfl⟩, ⟨rfl, rfl, rfl⟩, rfl⟩
      exact ⟨rfl, rfl, rfl⟩
    · exact Finds.pure (id, b) s
  refine ((declare_finds d.name.text d.name.token).bind fun b => (bindFunction_finds d b).bind
    fun id => hpending id b).mono ?_
  rintro Γ a Δ ds ⟨b, _, _, _, ⟨rfl, rfl⟩, ⟨id, _, _, _, ⟨rfl, rfl⟩, ⟨rfl, rfl, rfl⟩, rfl⟩, rfl⟩
  exact ⟨rfl, rfl⟩

theorem declareParams_finds : (ps : List (Param .parsed)) →
    Finds (declareParams ps) fun Γ qs Δ ds => ds = [] ∧ qs.map (·.name) = ps.map (·.name) ∧
      Δ = Γ.declareAll (qs.map fun q => (q.name.text, q.decl))
  | [] => (Finds.pure []).mono fun _ _ _ _ ⟨ha, hΔ, hds⟩ => by
    subst ha
    exact ⟨hds, rfl, hΔ⟩
  | p :: ps => by
    refine ((declare_finds p.name.text p.name.token).bind fun b => (declareParams_finds ps).bind
      fun qs => Finds.pure ((⟨p.name, b, p.type⟩ : Param .resolved) :: qs)).mono ?_
    rintro Γ a Δ ds ⟨b, _, _, _, ⟨rfl, rfl⟩, ⟨qs, _, _, _, ⟨rfl, hnames, rfl⟩, ⟨rfl, rfl, rfl⟩, rfl⟩,
      rfl⟩
    exact ⟨rfl, by simp [hnames], rfl⟩

theorem withScope_finds {α : Type} {act : Resolve α}
    {P : Chain → α → Chain → List (FunDecl .resolved) → Prop} (kind : Scope.Kind) (h : Finds act P) :
    Finds (withScope kind act) fun Γ a Δ ds => Δ = Γ ∧ ∃ Θ, P Γ.inner a Θ ds := by
  intro s
  let t : State := { s with scopes := ((s.scopes.headD s.program.scope).inside kind) :: s.scopes }
  have hrun : (withScope kind act).run s
      = ((act.run t).1, { (act.run t).2 with scopes := s.scopes }) := rfl
  have hchain : t.chain = s.chain.inner :=
    congrArg (fun f : Names => f :: s.chain) (funext fun name => get?_empty rfl name)
  obtain ⟨hlater, hpost⟩ := h t
  rw [FindsAt, hrun]
  refine ⟨⟨hlater.program, hlater.frames, hlater.errors⟩, fun hk he => ?_⟩
  obtain ⟨ds, hsteps, hP⟩ := hpost hk he
  have hroot := (hsteps.root (List.cons_ne_nil _ _)).2
  refine ⟨ds, ⟨hsteps.names, hsteps.marked, fun hs => ⟨hs, hroot⟩⟩, ?_, _, hchain ▸ hP⟩
  show s.scopes.map (fun sc => sc.get?) ++ [(act.run t).2.program.scope.get?] = s.chain
  rw [hroot]
  rfl

theorem inner_chain (s : State) : (inner s).chain = s.chain.inner :=
  congrArg (fun f : Names => f :: s.chain) (funext fun name => get?_empty rfl name)

theorem withFrame_finds {α : Type} {act : Resolve α} {s : State}
    {P : Chain → α → Chain → List (FunDecl .resolved) → Prop} (h : FindsAt (inner s) act P) :
    s.Later ((withFrame act).run s).2 ∧ (s.program.types.Keyed →
      ((withFrame act).run s).2.errors = #[] → ∃ ds Θ,
      (∀ d : FunDecl .resolved, d.info.free = ((withFrame act).run s).1.2.free.toList →
        Steps (d :: ds) s ((withFrame act).run s).2) ∧ ((withFrame act).run s).2.chain = s.chain ∧
          P s.chain.inner ((withFrame act).run s).1.1 Θ ds) := by
  obtain ⟨hlater, hpost⟩ := h
  rw [withFrame_run]
  cases hframes : (act.run (inner s)).2.frames with
  | nil =>
    have hfs := hlater.frames
    rw [hframes] at hfs
    cases hfs
  | cons f fs =>
    have hfs : List.Forall₂ Frame.Grows s.frames fs := by
      have hfs := hlater.frames
      rw [hframes] at hfs
      exact (List.forall₂_cons.mp hfs).2
    refine ⟨⟨hlater.program, hfs, hlater.errors⟩, fun hk he => ?_⟩
    obtain ⟨ds, hsteps, hP⟩ := hpost hk he
    have hroot := (hsteps.root (List.cons_ne_nil _ _)).2
    refine ⟨ds, _, fun d hd => ⟨hsteps.names, fun b hb => ?_, fun hs => ⟨hs, hroot⟩⟩, ?_,
      inner_chain s ▸ hP⟩
    · rcases hsteps.marked b hb with hb | hb | ⟨g, hg, v, hv, hvb⟩
      · exact .inl hb
      · exact .inr (.inl (hb.mono (List.subset_cons_self _ _)))
      · rw [hframes] at hg
        rcases List.mem_cons.mp hg with rfl | hg
        · exact .inr (.inl ⟨d, List.mem_cons_self, v, by rwa [hd], hvb⟩)
        · exact .inr (.inr ⟨g, hg, v, hv, hvb⟩)
    · show s.scopes.map (fun sc => sc.get?) ++ [(act.run (inner s)).2.program.scope.get?] = s.chain
      rw [hroot]
      rfl

end Scripting.Resolve
