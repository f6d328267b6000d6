import Scripting.Proofs.Scope.Known

/-!
# Reading and declaring names

What each way to use a name or to take a slot leaves behind: a name that is read finds its variable,
and a binding that is declared takes a fresh slot.
-/

namespace Scripting.Resolve

variable {p : Program} {n : Nat}

theorem get?_of_isPrefix {α : Type} {xs ys : List α} (h : xs <+: ys) {i : Nat} {a : α}
    (hi : xs[i]? = some a) : ys[i]? = some a := by
  obtain ⟨zs, rfl⟩ := h
  rw [List.getElem?_append_left (List.getElem?_eq_some_iff.mp hi).1, hi]

theorem captures_of_isPrefix {σ : Slots} {R S : Region} {v : FreeVar} (h : σ.Captures p R v)
    (hp : R.free <+: S.free) : σ.Captures p S v := by
  obtain ⟨hs, hc, hv⟩ := h
  refine ⟨hs, hc, ?_⟩
  split at hv
  · simp [*]
  · simpa [*] using get?_of_isPrefix hp hv

theorem freeOf_isPrefix {fs gs : List Frame} (h : List.Forall₂ Frame.Grows fs gs) :
    freeOf fs <+: freeOf gs := by
  cases h with
  | nil => exact List.prefix_rfl
  | cons hf _ => exact hf.free.map _

theorem Frame.Holds.around {f : Frame} {σ : Slots} {fs gs : List Frame} {σs : List Slots}
    (h : f.Holds p n σ fs σs) (hg : List.Forall₂ Frame.Grows fs gs) : f.Holds p n σ gs σs where
  depth := by rw [h.depth, hg.length_eq]
  held := h.held
  free v hv := ⟨(h.free v hv).1, (h.free v hv).2.1,
    captures_of_isPrefix (h.free v hv).2.2 (freeOf_isPrefix hg)⟩
  distinct := h.distinct

theorem Frame.Holds.capture {f : Frame} {σ : Slots} {fs : List Frame} {σs : List Slots} {v : FreeVar}
    (h : f.Holds p n σ fs σs) (hnew : ∀ w ∈ f.free, w.binding ≠ v.binding) (hv : v.binding < n)
    (hd : (p.binding v.binding).depth < f.depth)
    (hc : (σs.headD fun _ => none).Captures p ⟨freeOf fs, 0⟩ v) :
    ({ f with free := f.free.push v } : Frame).Holds p n σ fs σs where
  depth := h.depth
  held := h.held
  free w hw := by
    rw [Array.toList_push, List.mem_append, List.mem_singleton] at hw
    rcases hw with hw | rfl
    · exact h.free w hw
    · exact ⟨hv, hd, hc⟩
  distinct := by
    rw [Array.toList_push, List.map_append, List.map_singleton, List.nodup_append]
    refine ⟨h.distinct, by simp, ?_⟩
    rintro a ha c hc' rfl
    obtain ⟨w, hw, rfl⟩ := List.mem_map.mp ha
    exact hnew w (by simpa using hw) (by simpa using hc')

theorem Frame.grows_push (f : Frame) (v : FreeVar) :
    f.Grows { f with free := f.free.push v } :=
  ⟨rfl, Nat.le_refl _, by simp⟩

theorem capture_grows (b : BindingId) (depth index : Nat) : (fs : List Frame) →
    List.Forall₂ Frame.Grows fs (capture b depth index fs).2
  | [] => .nil
  | [f] => by
    simp only [capture]
    split
    · exact growsAll_refl _
    · exact .cons (f.grows_push _) (growsAll_refl _)
  | f :: g :: outer => by
    rw [capture]
    split
    · exact growsAll_refl _
    · dsimp only
      split
      · exact .cons (f.grows_push _) (growsAll_refl _)
      · exact .cons (f.grows_push _) (capture_grows b depth index (g :: outer))

theorem capture_nextSlot (b : BindingId) (depth index : Nat) (fs : List Frame) :
    nextSlot (capture b depth index fs).2 = nextSlot fs := by
  rw [capture.eq_def]
  split
  · rfl
  · split
    · rfl
    · dsimp only
      split <;> split <;> rfl

theorem capture_layers {b : BindingId} (hb : b < n) (hs : (p.binding b).storage = .frame)
    (hc : (p.binding b).captured = true) : {f : Frame} → {outer : List Frame} → {σ : Slots} →
    {σs : List Slots} → Layers p n (f :: outer) (σ :: σs) →
    (∃ (i : Nat) (g : Frame) (τ : Slots), outer[i]? = some g ∧ σs[i]? = some τ ∧
      g.depth = (p.binding b).depth ∧ τ (p.binding b).index = some b) →
    Layers p n (capture b (p.binding b).depth (p.binding b).index (f :: outer)).2 (σ :: σs) ∧
      (freeOf (capture b (p.binding b).depth (p.binding b).index (f :: outer)).2)[
        (capture b (p.binding b).depth (p.binding b).index (f :: outer)).1]? = some b
  | f, outer, σ, σs, hl, ⟨i, g, τ, hg, hτ, hd, hheld⟩ => by
    have hdepth := hl.2.depth hg
    have hlt : (p.binding b).depth < f.depth := by
      rw [← hd, hl.1.depth]
      omega
    simp only [capture]
    cases hfind : f.free.findIdx? fun v => v.binding == b with
    | some j =>
      refine ⟨hl, ?_⟩
      obtain ⟨hj, hjb, -⟩ := Array.findIdx?_eq_some_iff_getElem.mp hfind
      have : (f.free.toList.map (·.binding))[j]? = some b := by
        rw [List.getElem?_map, Array.getElem?_toList, Array.getElem?_eq_getElem hj]
        simpa using hjb
      exact this
    | none =>
      have hnew : ∀ w ∈ f.free, w.binding ≠ b := by
        intro w hw
        simpa using Array.findIdx?_eq_none_iff.mp hfind w hw
      cases outer with
      | nil => simp at hg
      | cons g₀ rest =>
        cases σs with
        | nil => exact hl.2.elim
        | cons τ₀ τs =>
          have hdepth₀ := hl.2.depth (i := 0) (f := g₀) rfl
          by_cases hdir : g₀.depth = (p.binding b).depth
          · -- The function around owns the variable.
            have hi : i = 0 := by omega
            subst hi
            obtain rfl : τ₀ = τ := by simpa using hτ
            simp only [hdir, beq_self_eq_true, if_true]
            refine ⟨⟨hl.1.capture hnew hb hlt ⟨hs, hc, ?_⟩, hl.2⟩, ?_⟩
            · simpa using hheld
            · simp [freeOf]
          · have hi : i ≠ 0 := by
              rintro rfl
              obtain rfl : g₀ = g := by simpa using hg
              exact hdir hd
            obtain ⟨j, rfl⟩ := Nat.exists_eq_succ_of_ne_zero hi
            obtain ⟨hrest, hget⟩ := capture_layers hb hs hc hl.2
              ⟨j, g, τ, by simpa using hg, by simpa using hτ, hd, hheld⟩
            have hgrow := capture_grows b (p.binding b).depth (p.binding b).index (g₀ :: rest)
            simp only [beq_iff_eq, hdir, if_false]
            refine ⟨⟨(hl.1.around hgrow).capture hnew hb hlt ⟨hs, hc, ?_⟩, hrest⟩, ?_⟩
            · simpa using hget
            · simp [freeOf]
  termination_by _ outer => outer.length

theorem grows_captured (q : Program) (b : BindingId) :
    q.Grows (q.modifyBinding b fun x => { x with captured := true }) :=
  q.modifyBinding_grows b _ fun _ => ⟨rfl, rfl, rfl, fun _ => rfl⟩

/-- The state once the innermost function captures a variable. -/
def captured (b : BindingId) (s : State) : State :=
  { s with
    program := s.program.modifyBinding b fun x => { x with captured := true }
    frames := (capture b (s.program.binding b).depth (s.program.binding b).index s.frames).2 }

theorem slotFor_run (b : BindingId) (s : State) :
    (slotFor b).run s = match (s.program.binding b).storage, s.frames with
      | .global, _ => (⟨b, .global, (s.program.binding b).index⟩, s)
      | .frame, [] => (⟨b, .frame, (s.program.binding b).index⟩, s)
      | .frame, f :: _ =>
        if (s.program.binding b).depth = f.depth then
          (⟨b, .frame, (s.program.binding b).index⟩, s)
        else
          (⟨b, .free, (capture b (s.program.binding b).depth (s.program.binding b).index s.frames).1⟩,
            captured b s) := by
  have hrun : (slotFor b).run s = StateT.run (match (s.program.binding b).storage, s.frames with
      | .global, _ => (return ⟨b, .global, (s.program.binding b).index⟩ : Resolve Slot)
      | .frame, [] => return ⟨b, .frame, (s.program.binding b).index⟩
      | .frame, f :: _ =>
        if (s.program.binding b).depth == f.depth then
          return ⟨b, .frame, (s.program.binding b).index⟩
        else
          modifyGet fun t =>
            let x := capture b (s.program.binding b).depth (s.program.binding b).index t.frames
            (⟨b, .free, x.1⟩, { t with
              program := t.program.modifyBinding b fun x => { x with captured := true }
              frames := x.2 })) s := rfl
  rw [hrun]
  split
  · rfl
  · rfl
  · simp only [beq_iff_eq]
    split
    · rfl
    · rfl

theorem slotFor_later (b : BindingId) (s : State) : s.Later ((slotFor b).run s).2 := by
  rw [slotFor_run]
  split
  · exact .refl s
  · exact .refl s
  · split
    · exact .refl s
    · exact ⟨grows_captured _ b, capture_grows b _ _ _, id⟩

theorem captured_sees {s : State} {k : Known} {b : BindingId} (hk : s.Sees p k)
    (hg : (captured b s).program.Grows p)
    (hb : Seen p s.program.bindings.size s.frames k.slots b)
    (hs : (p.binding b).storage = .frame) {f : Frame} {outer : List Frame}
    (hf : s.frames = f :: outer) (hne : (p.binding b).depth ≠ f.depth) :
    (captured b s).Sees p k ∧ (freeOf (captured b s).frames)[
      (capture b (s.program.binding b).depth (s.program.binding b).index s.frames).1]? = some b := by
  have hgs := (grows_captured s.program b).trans hg
  have hcap : (p.binding b).captured = true := by
    apply hg.captured b (by simpa [captured, Program.modifyBinding] using hb.1)
    rw [captured, Program.binding_modify hb.1, if_pos rfl]
  have hgrow := capture_grows b (s.program.binding b).depth (s.program.binding b).index s.frames
  have hlayers := hk.layers
  obtain ⟨i, g, τ, hi, hτ, hd, hheld⟩ := hb.2 hs
  rw [hf] at hlayers hi
  cases hks : k.slots with
  | nil =>
    rw [hks] at hlayers
    exact hlayers.elim
  | cons σ σs =>
    rw [hks] at hlayers hτ
    cases i with
    | zero =>
      obtain rfl : f = g := by simpa using hi
      exact absurd hd.symm hne
    | succ i =>
      obtain ⟨hl, hget⟩ := capture_layers hb.1 hs hcap hlayers
        ⟨i, g, τ, by simpa using hi, by simpa using hτ, hd, hheld⟩
      rw [hgs.depth b hb.1, hgs.index b hb.1, ← hf] at hl hget
      have hsize : (captured b s).program.bindings.size = s.program.bindings.size := by
        simp [captured, Program.modifyBinding]
      refine ⟨⟨by rw [hsize, hks]; exact hl, ?_, ?_, hk.scopes, ?_, hk.count, hk.next.trans ?_⟩, hget⟩
      · intro sc hsc name c hc
        rw [hsize]
        exact (hk.visible sc hsc name c hc).grow hgrow
      · intro hscopes
        exact absurd (hk.inside hscopes) (by simp [hf])
      · exact hk.rooted.grow (grows_captured _ b) rfl rfl
      · exact (capture_nextSlot b _ _ s.frames).symm

theorem slotFor_sees {s : State} {k : Known} {b : BindingId} (hk : s.Sees p k)
    (hg : ((slotFor b).run s).2.program.Grows p)
    (hb : Seen p s.program.bindings.size s.frames k.slots b) :
    ((slotFor b).run s).2.Sees p k ∧ ∀ R, Fits p R ((slotFor b).run s).2.frames →
      k.top.Reads p R ((slotFor b).run s).1 := by
  have hgs := (slotFor_later b s).program.trans hg
  have hstorage := hgs.storage b hb.1
  have hindex := hgs.index b hb.1
  have hdepth := hgs.depth b hb.1
  rw [slotFor_run] at hg ⊢
  split at hg
  case h_1 hs => exact ⟨hk, fun R _ => ⟨hstorage.trans hs, hindex⟩⟩
  case h_2 hs hf =>
    obtain ⟨i, f, σ, hi, -⟩ := hb.2 (hstorage.trans hs)
    simp [hf] at hi
  case h_3 f outer hs hf =>
    split at hg
    case isTrue heq =>
      rw [if_pos heq]
      refine ⟨hk, fun R _ => ?_⟩
      obtain ⟨i, g, σ, hi, hσ, hd, hheld⟩ := hb.2 (hstorage.trans hs)
      have hcount := hk.layers.depth hi
      have hfirst := hk.layers.depth (i := 0) (f := f) (by rw [hf]; rfl)
      obtain rfl : i = 0 := by omega
      have htop : k.top = σ := by
        rw [Known.top]
        cases hks : k.slots with
        | nil => simp [hks] at hσ
        | cons τ τs => simpa [hks] using hσ
      show k.top (s.program.binding b).index = some b
      rw [htop, ← hindex, hheld]
    case isFalse hne =>
      rw [if_neg hne]
      obtain ⟨hsees, hget⟩ :=
        captured_sees hk hg hb (hstorage.trans hs) hf (by rwa [hdepth])
      refine ⟨hsees, fun R hR => ⟨hstorage.trans hs, ?_⟩⟩
      dsimp only at hR
      cases hcf : (captured b s).frames with
      | nil => simp [hcf, freeOf] at hget
      | cons g gs =>
        rw [hcf] at hR hget
        exact get?_of_isPrefix hR.1 hget

theorem grows_typeValue (q : Program) (b : BindingId) (t : Ty) : q.Grows (q.modifyBinding b fun x =>
    { x with hidden := true, typeValue := t, type := .type t }) :=
  q.modifyBinding_grows b _ fun _ => ⟨rfl, rfl, rfl, id⟩

theorem typeBinding_grows (q : Program) (d : TypeDef) (tok : Token) :
    q.Grows (q.typeBinding d tok).2 := by
  rw [Program.typeBinding]
  split
  · exact .refl q
  · have hvalue := (q.newSlot_grows ("$type:" ++ d.name) tok).trans
      (grows_typeValue _ q.bindings.size d.type)
    have hpending (p : Program) : p.Grows (p.addPending q.bindings.size) := .of_eq rfl rfl id
    exact ((hvalue.trans (hpending _)).trans (Program.modifyType_grows _ d.id (f :=
      (·.heldBy (some q.bindings.size)))
      fun _ => ⟨rfl, rfl⟩)).trans (Program.record_grows _ _)

theorem typeBinding_isGlobal {q : Program} {d : TypeDef} {tok : Token}
    (hq : ∀ e ∈ (q.typeBinding d tok).2.types.defs, ∀ b, e.binding = some b →
      (q.typeBinding d tok).2.IsGlobal b) (hd : d ∈ q.types.defs) :
    (q.typeBinding d tok).2.IsGlobal (q.typeBinding d tok).1 := by
  rw [Program.typeBinding] at hq ⊢
  split at hq
  · exact hq d hd _ (by assumption)
  · exact (grows_typeValue _ _ d.type).isGlobal (q.newSlot_isGlobal ("$type:" ++ d.name) tok)

theorem typeBinding_funs (q : Program) (d : TypeDef) (tok : Token) :
    (q.typeBinding d tok).2.funs = q.funs := by
  rw [Program.typeBinding]
  split <;> rfl

theorem typeBinding_rooted {q : Program} (hq : q.Rooted) (d : TypeDef) (tok : Token) :
    (q.typeBinding d tok).2.Rooted := by
  rw [Program.typeBinding]
  split
  case h_1 => exact hq
  case h_2 =>
    have hmod := grows_typeValue (q.newSlot ("$type:" ++ d.name) tok).2
      (q.newSlot ("$type:" ++ d.name) tok).1 d.type
    have hrooted := hq.grow ((q.newSlot_grows ("$type:" ++ d.name) tok).trans hmod) rfl rfl
    have hglobal := hmod.isGlobal (q.newSlot_isGlobal ("$type:" ++ d.name) tok)
    refine (Program.modifyType_rooted hrooted d.id _ ?_ ?_).grow (.of_eq rfl rfl id) rfl rfl
    · intro e _ b hb
      obtain rfl := Option.some.inj hb
      exact hglobal
    · exact fun e he v hv b hb => hrooted.variants e he v hv b hb

theorem mem_of_resolveTypeName {q : Program} {name : String} {d : TypeDef}
    (h : q.resolveTypeName name = .ok (some d)) : d ∈ q.types.defs := by
  rw [Program.resolveTypeName] at h
  split at h
  · exact TypeTable.mem_of_byName? (Except.ok.inj h)
  · split at h
    · simp at h
    · rename_i e he
      obtain rfl : e = d := by simpa using h
      have hnamed : e ∈ q.typesNamed name := by simp [he]
      exact TypeTable.mem_of_named hnamed
    · simp at h

theorem slotFor_gives {s : State} {b : BindingId}
    (hb : ∀ p k, s.program.Grows p → s.Sees p k →
      Seen p s.program.bindings.size s.frames k.slots b) (tok : Token) (name : String) :
    GivesAt s (do return .name () tok name (← slotFor b)) (Keeps Scoped.expr Decls.expr) := by
  refine ⟨slotFor_later b s, ?_⟩
  intro p hp _ k hk
  obtain ⟨hsees, hreads⟩ :=
    slotFor_sees hk hp (hb p k ((slotFor_later b s).program.trans hp) hk)
  exact ⟨k, hsees, .refl k, fun R hR => ⟨rfl, rfl, hreads R hR, .nil (Nat.le_refl _)⟩⟩

theorem readType_gives {s : State} {d : TypeDef} (hd : d ∈ s.program.types.defs) (tok : Token) :
    GivesAt s (readType d tok) (Keeps Scoped.expr Decls.expr) := by
  have hgrow := typeBinding_grows s.program d tok
  have htype : GivesAt s (onProgram fun p => p.typeBinding d tok) fun _ _ k _ l => l = k := by
    refine ⟨⟨hgrow, growsAll_refl _, id⟩, ?_⟩
    intro p _ _ k hk
    exact ⟨k, hk.withProgram hgrow (typeBinding_rooted hk.rooted d tok)
      (congrArg Array.size (typeBinding_funs s.program d tok)), .refl k, fun _ _ => rfl⟩
  have hslot : GivesAt { s with program := (s.program.typeBinding d tok).2 }
      (do return .name () tok d.name (← slotFor (s.program.typeBinding d tok).1))
      (Keeps Scoped.expr Decls.expr) := by
    refine slotFor_gives ?_ tok d.name
    intro p k hp hk
    exact seen_of_isGlobal (typeBinding_isGlobal hk.rooted.types hd) hp _ _
  refine (GivesAt.bind
    (f := fun b => (do return .name () tok d.name (← slotFor b) : Resolve (Expr .resolved)))
    (Q := fun _ => Keeps Scoped.expr Decls.expr) htype hslot).mono ?_
  rintro p R k e l ⟨b, i, rfl, h⟩
  exact h

def found (s : State) (name : String) : Option BindingId :=
  match Scope.lookup name s.scopes with
  | some b => some b
  | none => s.program.scope.get? name

theorem lookup_run (name : String) (s : State) : (lookup name).run s = (found s name, s) := by
  have hrun : (lookup name).run s = StateT.run (match Scope.lookup name s.scopes with
      | some b => (return some b : Resolve (Option BindingId))
      | none => return s.program.scope.get? name) s := rfl
  rw [hrun, found]
  split <;> rfl

theorem mem_of_lookup {name : String} {b : BindingId} : {scs : List Scope} →
    Scope.lookup name scs = some b → ∃ sc ∈ scs, sc.get? name = some b
  | sc :: scs, h => by
    rw [Scope.lookup] at h
    split at h
    case h_1 c hc =>
      obtain rfl := Option.some.inj h
      exact ⟨sc, by simp, hc⟩
    case h_2 =>
      obtain ⟨sc', hsc, hb⟩ := mem_of_lookup h
      exact ⟨sc', by simp [hsc], hb⟩

theorem found_seen {s : State} {k : Known} {name : String} {b : BindingId} (hk : s.Sees p k)
    (hg : s.program.Grows p) (h : found s name = some b) :
    Seen p s.program.bindings.size s.frames k.slots b := by
  rw [found] at h
  split at h
  case h_1 c hc =>
    obtain rfl := Option.some.inj h
    obtain ⟨sc, hsc, hb⟩ := mem_of_lookup hc
    exact hk.visible sc hsc name c hb
  case h_2 => exact seen_of_isGlobal (hk.rooted.names name b h) hg _ _

theorem GivesAt.ofFailure {α : Type} {s : State} {code : Diagnostic.Code} {tok : Token}
    {msg : String} (a : α) (Post : Program → Region → Known → α → Known → Prop) :
    GivesAt s (do report code tok msg; return a) Post := by
  have h := ((Gives.report code tok msg).bind fun _ => Gives.pure a) s
  exact h.mono fun _ _ _ _ _ ⟨_, _, hfalse, _⟩ => hfalse.elim

theorem GivesAt.ofLookup {α : Type} {s : State} {name : String}
    {f : Option BindingId → Resolve α} {Post : Program → Region → Known → α → Known → Prop}
    (h : GivesAt s (f (found s name)) Post) : GivesAt s (lookup name >>= f) Post := by
  refine GivesAt.congr ?_ h
  have hrun : (lookup name >>= f).run s
      = (f ((lookup name).run s).1).run ((lookup name).run s).2 := rfl
  rw [hrun, lookup_run]

theorem readName_gives (tok : Token) (name : String) :
    Gives (readName tok name) (Keeps Scoped.expr Decls.expr) := by
  intro s
  apply GivesAt.ofLookup
  cases hb : found s name with
  | some b =>
    apply GivesAt.ofGet
    exact slotFor_gives (fun p k hp hk => found_seen hk hp hb) tok _
  | none =>
    apply GivesAt.ofGet
    split
    case h_1 => exact .ofFailure _ _
    case h_2 d hd => exact readType_gives (mem_of_resolveTypeName hd) tok
    case h_3 => exact .ofFailure _ _

theorem assignName_gives (tok : Token) (name : String) :
    Gives (assignName tok name) (Keeps Scoped.expr Decls.expr) := by
  intro s
  apply GivesAt.ofLookup
  cases hb : found s name with
  | none => exact .ofFailure _ _
  | some b =>
    apply GivesAt.ofGet
    dsimp only
    split
    · exact .ofFailure _ _
    · exact slotFor_gives (fun p k hp hk => found_seen hk hp hb) tok _

end Scripting.Resolve
