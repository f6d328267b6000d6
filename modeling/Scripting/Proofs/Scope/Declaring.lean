import Scripting.Proofs.Scope.Naming

/-!
# Taking slots

A declaration takes the next slot of the innermost frame, or a global one. Scopes and frames are
opened around a step and closed behind it.
-/

namespace Scripting.Resolve

variable {p : Program}

/-- What a declaration leaves behind. -/
structure Declares (p : Program) (R : Region) (k : Known) (b : BindingId) (l : Known) : Prop where
  top : l.top = k.top.add p b
  count : l.count = k.count
  fresh : k.top.Fresh p R b
  outside : (p.binding b).storage = .global → k.slots = []
  slots : k.slots = [] → l.slots = []
  place : (p.binding b).storage = .frame → k.next ≤ (p.binding b).index
  next : k.next ≤ l.next

theorem add_of_global {σ : Slots} {b : BindingId} (h : (p.binding b).storage = .global) :
    σ.add p b = σ := by
  funext j
  simp [Slots.add, h]

theorem Declares.of_global {R : Region} {k : Known} {b : BindingId}
    (h : (p.binding b).storage = .global) (hk : k.slots = []) : Declares p R k b k :=
  ⟨(add_of_global h).symm, rfl, fun hs => by simp [h] at hs, fun _ => hk, fun h => h,
    fun hs => by simp [h] at hs, Nat.le_refl _⟩

theorem State.Sees.slots_nil {s : State} {k : Known} (h : s.Sees p k) (hf : s.frames = []) :
    k.slots = [] := by
  have hlen := h.layers.length
  rw [hf] at hlen
  exact List.length_eq_zero_iff.mp hlen

theorem newLocal_later (name : String) (tok : Token) (s : State) :
    s.Later ((newLocal name tok).run s).2 := by
  obtain ⟨q, scs, fs, errs⟩ := s
  cases fs with
  | nil => exact ⟨q.newSlot_grows name tok, .nil, id⟩
  | cons f fs =>
    exact ⟨q.addBinding_grows _, .cons ⟨rfl, Nat.le_succ _, List.prefix_rfl⟩ (growsAll_refl fs), id⟩

theorem Seen.declare {n m : Nat} {f g : Frame} {fs : List Frame} {σ τ : Slots} {σs : List Slots}
    {b : BindingId} (h : Seen p n (f :: fs) (σ :: σs) b) (hn : n ≤ m) (hd : g.depth = f.depth)
    (hσ : ∀ j c, σ j = some c → τ j = some c) : Seen p m (g :: fs) (τ :: σs) b := by
  refine ⟨Nat.lt_of_lt_of_le h.1 hn, fun hs => ?_⟩
  obtain ⟨i, f', σ', hf, hσ', hdepth, hheld⟩ := h.2 hs
  cases i with
  | zero =>
    obtain rfl : f = f' := by simpa using hf
    obtain rfl : σ = σ' := by simpa using hσ'
    exact ⟨0, g, τ, rfl, rfl, hd.trans hdepth, hσ _ _ hheld⟩
  | succ i => exact ⟨i + 1, f', σ', by simpa using hf, by simpa using hσ', hdepth, hheld⟩

theorem newLocal_sees (name : String) (tok : Token) {s : State} {k : Known} (hk : s.Sees p k)
    (hg : ((newLocal name tok).run s).2.program.Grows p) :
    ∃ l, ((newLocal name tok).run s).2.Sees p l ∧ k.Extends l ∧
      Seen p ((newLocal name tok).run s).2.program.bindings.size
        ((newLocal name tok).run s).2.frames l.slots ((newLocal name tok).run s).1 ∧
      l.scopes = k.scopes ∧ ∀ R, Fits p R ((newLocal name tok).run s).2.frames →
        Declares p R k ((newLocal name tok).run s).1 l := by
  obtain ⟨q, scs, fs, errs⟩ := s
  cases fs with
  | nil =>
    have hb := q.newSlot_isGlobal name tok
    have hgrow := q.newSlot_grows name tok
    refine ⟨k, hk.withProgram hgrow (hk.rooted.grow hgrow rfl rfl) rfl, .refl k,
      seen_of_isGlobal hb hg _ _, rfl, fun R _ => .of_global ?_ (hk.slots_nil rfl)⟩
    exact (hg.storage _ hb.1).trans hb.2
  | cons f fs =>
    have hlayers := hk.layers
    cases hks : k.slots with
    | nil =>
      rw [hks] at hlayers
      exact hlayers.elim
    | cons σ σs =>
      rw [hks] at hlayers
      have htop : k.top = σ := by rw [Known.top, hks]; rfl
      let x : Binding :=
        { name := name, index := f.nextSlot, storage := .frame, depth := f.depth, token := tok }
      have hgx : (q.addBinding x).2.Grows p := hg
      have hgrow := q.addBinding_grows x
      have hlt : q.bindings.size < (q.addBinding x).2.bindings.size := by simp [Program.addBinding]
      have hx : (q.addBinding x).2.binding q.bindings.size = x := q.binding_push_size x
      have hstorage : (p.binding q.bindings.size).storage = .frame := by
        rw [hgx.storage _ hlt, hx]
      have hindex : (p.binding q.bindings.size).index = f.nextSlot := by rw [hgx.index _ hlt, hx]
      have hdepth : (p.binding q.bindings.size).depth = f.depth := by rw [hgx.depth _ hlt, hx]
      have hadd : ∀ j c, σ j = some c → (σ.add p q.bindings.size) j = some c := by
        intro j c hc
        have hj := (hlayers.1.held j c hc).1
        rw [Slots.add, hindex, if_neg (by omega), hc]
      have hnew : (σ.add p q.bindings.size) (p.binding q.bindings.size).index
          = some q.bindings.size := by
        rw [Slots.add, if_pos ⟨hstorage, rfl⟩]
      have hnone : k.top (p.binding q.bindings.size).index = none := by
        rw [htop, hindex]
        cases hσ : σ f.nextSlot with
        | none => rfl
        | some c => exact absurd (hlayers.1.held _ c hσ).1 (Nat.lt_irrefl _)
      have hnext : k.next = f.nextSlot := hk.next
      refine ⟨⟨σ.add p q.bindings.size :: σs, k.scopes, k.count, f.nextSlot + 1⟩,
        ⟨⟨⟨hlayers.1.depth, ?_, ?_, hlayers.1.distinct⟩, hlayers.2.weaken hgrow.size⟩, ?_, ?_,
          hk.scopes, ?_, hk.count, rfl⟩, ?_, ?_, rfl, ?_⟩
      · intro j c hc
        rw [Slots.add] at hc
        split at hc
        case isTrue hj =>
          obtain rfl := Option.some.inj hc
          exact ⟨by rw [hj.2, hindex]; exact Nat.lt_succ_self _, hlt, hstorage, hj.2.symm, hdepth⟩
        case isFalse =>
          obtain ⟨hj, hc', hrest⟩ := hlayers.1.held j c hc
          exact ⟨Nat.lt_succ_of_lt hj, Nat.lt_of_lt_of_le hc' hgrow.size, hrest⟩
      · intro v hv
        obtain ⟨hv', hrest⟩ := hlayers.1.free v hv
        exact ⟨Nat.lt_of_lt_of_le hv' hgrow.size, hrest⟩
      · intro sc hsc nm c hc
        have := hk.visible sc hsc nm c hc
        rw [hks] at this
        exact this.declare hgrow.size rfl hadd
      · exact fun hscopes => absurd (hk.inside hscopes) (by simp)
      · exact hk.rooted.grow hgrow rfl rfl
      · refine ⟨by rw [hks]; rfl, by rw [hks]; rfl, ?_, Nat.le_refl _⟩
        intro j c hc
        exact hadd j c (by rwa [htop] at hc)
      · exact ⟨hlt, fun _ => ⟨0, _, _, rfl, rfl, hdepth.symm, hnew⟩⟩
      · intro R hR
        refine ⟨by rw [htop]; rfl, rfl, fun _ => ⟨?_, hnone, fun hmem => hR.2.2 _ hmem hdepth⟩,
          fun hglobal => absurd (hstorage.symm.trans hglobal) (by decide), fun hnil => ?_,
          fun _ => Nat.le_of_eq (hnext.trans hindex.symm), hnext ▸ Nat.le_succ _⟩
        · have hroom : f.nextSlot < R.size := hR.2.1
          exact hindex.symm ▸ hroom
        · exact absurd (hks.symm.trans hnil) (List.cons_ne_nil _ _)

theorem newLocal_gives (name : String) (tok : Token) :
    Gives (newLocal name tok) fun p R k b l => Declares p R k b l ∧ l.scopes = k.scopes := by
  refine fun s => ⟨newLocal_later name tok s, ?_⟩
  intro p hp _ k hk
  obtain ⟨l, hl, hext, -, hscopes, hdecl⟩ := newLocal_sees name tok hk hp
  exact ⟨l, hl, hext, fun R hR => ⟨hdecl R hR, hscopes⟩⟩

theorem onProgram_gives {f : Program → Unit × Program} (hg : ∀ q : Program, q.Grows (f q).2)
    (hs : ∀ q, (f q).2.scope = q.scope) (ht : ∀ q, (f q).2.types = q.types)
    (hf : ∀ q, (f q).2.funs.size = q.funs.size) :
    Gives (onProgram f) fun _ _ k _ l => l = k := by
  refine fun s => ⟨⟨hg _, growsAll_refl _, id⟩, ?_⟩
  intro p _ _ k hk
  exact ⟨k, hk.withProgram (hg _) (hk.rooted.grow (hg _) (hs _) (ht _)) (hf _), .refl k,
    fun _ _ => rfl⟩

theorem declareHidden_gives (name : String) (tok : Token) :
    Gives (declareHidden name tok) fun p R k b l => Declares p R k b l ∧ l.scopes = k.scopes := by
  refine ((newLocal_gives name tok).bind fun b => (onProgram_gives (fun q => ?_) (fun _ => rfl)
    (fun _ => rfl) (fun _ => rfl)).bind fun _ => Gives.pure b).mono ?_
  · exact q.modifyBinding_grows b _ fun _ => ⟨rfl, rfl, rfl, id⟩
  · rintro p R k b l ⟨b, i, hdecl, -, j, rfl, rfl, rfl⟩
    exact hdecl

def withName (name : String) (b : BindingId) (s : State) : State :=
  match s.scopes with
  | [] => s
  | sc :: outer => { s with scopes := sc.define name b :: outer }

theorem withName_program (name : String) (b : BindingId) (s : State) :
    (withName name b s).program = s.program := by
  rw [withName]
  split <;> rfl

theorem withName_frames (name : String) (b : BindingId) (s : State) :
    (withName name b s).frames = s.frames := by
  rw [withName]
  split <;> rfl

theorem withName_errors (name : String) (b : BindingId) (s : State) :
    (withName name b s).errors = s.errors := by
  rw [withName]
  split <;> rfl

theorem withName_later (name : String) (b : BindingId) (s : State) : s.Later (withName name b s) :=
  ⟨withName_program name b s ▸ .refl _, withName_frames name b s ▸ growsAll_refl _,
    fun h => withName_errors name b s ▸ h⟩

theorem withName_sees {s : State} {k : Known} {b : BindingId} (hk : s.Sees p k)
    (hb : Seen p s.program.bindings.size s.frames k.slots b) (name : String) :
    (withName name b s).Sees p { k with scopes := (withName name b s).scopes } := by
  refine ⟨?_, ?_, ?_, rfl, ?_, ?_, ?_⟩
  · rw [withName_program, withName_frames]
    exact hk.layers
  · intro sc hsc other c hc
    rw [withName_program, withName_frames]
    rw [withName] at hsc
    split at hsc
    · exact hk.visible sc hsc other c hc
    · rename_i sc₀ outer hscopes
      rcases List.mem_cons.mp hsc with rfl | hsc
      · rw [Program.get?_define] at hc
        split at hc
        · obtain rfl := Option.some.inj hc
          exact hb
        · exact hk.visible sc₀ (by simp [hscopes]) other c hc
      · exact hk.visible sc (by simp [hscopes, hsc]) other c hc
  · intro hscopes
    rw [withName_frames]
    rw [withName] at hscopes
    split at hscopes
    · exact hk.inside hscopes
    · simp at hscopes
  · rw [withName_program]
    exact hk.rooted
  · rw [withName_program]
    exact hk.count
  · rw [withName_frames]
    exact hk.next

theorem declareGlobal_gives (name : String) (tok : Token) :
    Gives (onProgram fun q => q.declareGlobal name tok) fun p _ k b l =>
      l = k ∧ (p.binding b).storage = .global := by
  intro s
  have hgrow := s.program.declareGlobal_grows name tok
  have hb := s.program.declareGlobal_isGlobal name tok
  refine ⟨⟨hgrow, growsAll_refl _, id⟩, ?_⟩
  intro p hp _ k hk
  exact ⟨k, hk.withProgram hgrow (Program.declareGlobal_rooted hk.rooted name tok) rfl, .refl k,
    fun R _ => ⟨rfl, (hp.storage _ hb.1).trans hb.2⟩⟩

theorem declare_gives (name : String) (tok : Token) : Gives (declare name tok) Declares := by
  intro s
  apply GivesAt.ofGet
  split
  case isTrue hscopes =>
    refine ⟨(declareGlobal_gives name tok s).1, ?_⟩
    intro p hp he k hk
    obtain ⟨l, hl, hext, hpost⟩ := (declareGlobal_gives name tok s).2 p hp he k hk
    have hk' := hk.slots_nil (hk.inside (List.isEmpty_iff.mp hscopes))
    refine ⟨l, hl, hext, fun R hR => ?_⟩
    obtain ⟨rfl, hglobal⟩ := hpost R hR
    exact .of_global hglobal hk'
  case isFalse =>
    have hrun : StateT.run (do
        let b ← newLocal name tok
        defineInner name b
        return b) s = (((newLocal name tok).run s).1,
          withName name ((newLocal name tok).run s).1 ((newLocal name tok).run s).2) := by
      have : ∀ b t, (defineInner name b).run t = ((), withName name b t) := by
        intro b t
        obtain ⟨q, scs, fs, errs⟩ := t
        cases scs <;> rfl
      show ((((newLocal name tok).run s).1,
        ((defineInner name ((newLocal name tok).run s).1).run ((newLocal name tok).run s).2).2) : _)
          = _
      rw [this]
    rw [GivesAt, hrun]
    refine ⟨(newLocal_later name tok s).trans (withName_later _ _ _), ?_⟩
    intro p hp _ k hk
    dsimp only at hp ⊢
    rw [withName_program] at hp
    obtain ⟨l, hl, hext, hseen, -, hdecl⟩ := newLocal_sees name tok hk hp
    refine ⟨_, withName_sees hl hseen name, ⟨hext.outer, hext.length, hext.top, hext.count⟩,
      fun R hR => ?_⟩
    rw [withName_frames] at hR
    obtain ⟨htop, hcount, hfresh, houtside, hslots, hplace, hnext⟩ := hdecl R hR
    exact ⟨htop, hcount, hfresh, houtside, hslots, hplace, hnext⟩

/-- What a function leaves behind when it is given its number. -/
structure Numbers {P : Phase} (d : FunDecl P) (p : Program) (k : Known) (id : FunId) (l : Known) :
    Prop where
  slots : l.slots = k.slots
  number : id = k.count
  count : l.count = k.count + 1
  listed : ∃ f, p.funs[id]? = some f ∧ f.arity = (userFunction d).arity

theorem addFun_gives {P : Phase} (d : FunDecl P) (f : UserFunction)
    (hf : f.arity = (userFunction d).arity) :
    Gives (onProgram fun q => q.addFun f) fun p _ k id l => Numbers d p k id l := by
  intro s
  have hgrow := s.program.addFun_grows f
  refine ⟨⟨hgrow, growsAll_refl _, fun h => h⟩, ?_⟩
  intro p hp _ k hk
  have hsize : (s.program.addFun f).2.funs.size = s.program.funs.size + 1 := by
    simp [Program.addFun]
  have hlast : (s.program.addFun f).2.funs[s.program.funs.size]? = some f := by
    simp [Program.addFun]
  obtain ⟨g, hg, harity⟩ := hp.funs s.program.funs.size f hlast
  refine ⟨⟨k.slots, k.scopes, k.count + 1, k.next⟩, ⟨hk.layers, hk.visible, hk.inside, hk.scopes,
    hk.rooted.grow hgrow rfl rfl, ?_, hk.next⟩, ⟨rfl, rfl, fun _ _ h => h, Nat.le_succ _⟩,
      fun R _ => ⟨rfl, hk.count.symm, rfl, ?_⟩⟩
  · exact (congrArg (· + 1) hk.count).trans hsize.symm
  · exact ⟨g, hg, harity.trans hf⟩

theorem bindFunction_gives {P : Phase} (d : FunDecl P) (b : BindingId) :
    Gives (bindFunction d b) fun p _ k id l => Numbers d p k id l := by
  refine ((addFun_gives d _ rfl).bind fun id => (onProgram_gives (fun q => ?_) (fun _ => rfl)
    (fun _ => rfl) (fun _ => rfl)).bind fun _ => Gives.pure id).mono ?_
  · exact q.modifyBinding_grows b _ fun _ => ⟨rfl, rfl, rfl, fun h => h⟩
  · rintro p R k id l ⟨id, i, hnum, -, j, rfl, rfl, rfl⟩
    exact hnum

theorem declareNested_gives {P : Phase} (d : FunDecl P) :
    Gives (declareNested d) fun p R k a l =>
      ∃ i, Declares p R k a.2 i ∧ Numbers d p i a.1 l := by
  have hpending : ∀ (id : FunId) (b : BindingId), Gives (do
      if ((← get).program.binding b).storage == .global then
        onProgram fun p => ((), p.addPending b)
      return (id, b)) fun _ _ k a l => a = (id, b) ∧ l = k := by
    intro id b s
    apply GivesAt.ofGet
    dsimp only
    split
    · refine (((onProgram_gives (fun q => .of_eq rfl rfl fun h => h) (fun _ => rfl) (fun _ => rfl)
        (fun _ => rfl)).bind fun _ => Gives.pure (id, b)) s).mono ?_
      rintro p R k a l ⟨-, i, rfl, rfl, rfl⟩
      exact ⟨rfl, rfl⟩
    · exact Gives.pure (id, b) s
  refine ((declare_gives d.name.text d.name.token).bind fun b => (bindFunction_gives d b).bind
    fun id => hpending id b).mono ?_
  rintro p R k a l ⟨b, i, hdecl, id, j, hnum, rfl, rfl⟩
  exact ⟨i, hdecl, hnum⟩

theorem Layers.forget {n : Nat} {fs : List Frame} {σ τ : Slots} {σs : List Slots}
    (h : Layers p n fs (τ :: σs)) (hσ : ∀ j b, σ j = some b → τ j = some b) :
    Layers p n fs (σ :: σs) := by
  cases fs with
  | nil => exact h
  | cons f fs => exact ⟨⟨h.1.depth, fun j b hb => h.1.held j b (hσ j b hb), h.1.free, h.1.distinct⟩, h.2⟩

theorem Layers.forgetTop {n : Nat} {fs : List Frame} {k l : Known} (h : Layers p n fs l.slots)
    (hext : k.Extends l) : Layers p n fs k.slots := by
  obtain ⟨ks, kc, kn⟩ := k
  obtain ⟨ls, lc, ln⟩ := l
  cases ks with
  | nil =>
    obtain rfl : ls = [] := List.length_eq_zero_iff.mp hext.length
    exact h
  | cons σ σs =>
    cases ls with
    | nil => exact absurd hext.length (by simp)
    | cons τ τs =>
      obtain rfl : τs = σs := hext.outer
      exact h.forget hext.top

theorem get?_empty {sc : Scope} (h : sc.names = {}) (name : String) : sc.get? name = none := by
  simp [Scope.get?, h]

theorem withScope_gives {α : Type} {act : Resolve α}
    {Post : Program → Region → Known → α → Known → Prop} (kind : Scope.Kind) (h : Gives act Post) :
    Gives (withScope kind act) fun p R k a l =>
      ∃ scs i, Post p R { k with scopes := scs } a i ∧ l.slots = k.slots ∧ l.scopes = k.scopes ∧
        l.count = i.count := by
  intro s
  let t : State := { s with scopes := ((s.scopes.headD s.program.scope).inside kind) :: s.scopes }
  have hrun : (withScope kind act).run s
      = ((act.run t).1, { (act.run t).2 with scopes := s.scopes }) := rfl
  obtain ⟨hlater, hsees⟩ := h t
  rw [GivesAt, hrun]
  refine ⟨⟨hlater.program, hlater.frames, hlater.errors⟩, ?_⟩
  intro p hp he k hk
  have ht : t.Sees p { k with scopes := t.scopes } := by
    refine ⟨hk.layers, ?_, by simp [t], rfl, hk.rooted, hk.count, hk.next⟩
    intro sc hsc name b hb
    rcases List.mem_cons.mp hsc with rfl | hsc
    · rw [get?_empty rfl] at hb
      exact absurd hb (by simp)
    · exact hk.visible sc hsc name b hb
  obtain ⟨i, hi, hext, hpost⟩ := hsees p hp he _ ht
  refine ⟨⟨k.slots, k.scopes, i.count, i.next⟩, ⟨Layers.forgetTop (k := { k with scopes := t.scopes })
    hi.layers hext, ?_, ?_, hk.scopes, hi.rooted, hi.count, hi.next⟩,
    ⟨rfl, rfl, fun _ _ h => h, hext.count⟩, fun R hR => ⟨t.scopes, i, hpost R hR, rfl, rfl, rfl⟩⟩
  · intro sc hsc name b hb
    exact ((hk.visible sc hsc name b hb).grow hlater.frames).weaken hlater.program.size
  · intro hscopes
    have hframes : List.Forall₂ Frame.Grows s.frames (act.run t).2.frames := hlater.frames
    rw [hk.inside hscopes] at hframes
    exact List.forall₂_nil_left_iff.mp hframes

theorem State.Sees.fits {s : State} {k : Known} (h : s.Sees p k) : ∃ R, Fits p R s.frames := by
  have hlayers := h.layers
  cases hf : s.frames with
  | nil => exact ⟨.top, trivial⟩
  | cons f fs =>
    rw [hf] at hlayers
    cases hks : k.slots with
    | nil =>
      rw [hks] at hlayers
      exact hlayers.elim
    | cons σ σs =>
      rw [hks] at hlayers
      refine ⟨⟨f.free.toList.map (·.binding), f.nextSlot⟩, List.prefix_rfl, Nat.le_refl _, ?_⟩
      intro b hb
      obtain ⟨v, hv, rfl⟩ := List.mem_map.mp hb
      exact Nat.ne_of_lt (hlayers.1.free v hv).2.1

theorem Gives.forget {α : Type} {m : Resolve α}
    {Post : Program → Region → Known → α → Known → Prop} (h : Gives m Post)
    (hscopes : ∀ p R k a l, Post p R k a l → l.scopes = k.scopes) :
    Gives m fun p R k a l =>
      ∃ i, Post p R k a i ∧ l.slots = k.slots ∧ l.scopes = k.scopes ∧ l.count = i.count := by
  refine fun s => ⟨(h s).1, ?_⟩
  intro p hp he k hk
  obtain ⟨i, hi, hext, hpost⟩ := (h s).2 p hp he k hk
  obtain ⟨R, hR⟩ := hi.fits
  have hsame := hscopes _ _ _ _ _ (hpost R hR)
  refine ⟨⟨k.slots, k.scopes, i.count, i.next⟩, ⟨Layers.forgetTop (k := k) hi.layers hext, ?_,
    hi.inside, ?_, hi.rooted, hi.count, hi.next⟩, ⟨rfl, rfl, fun _ _ h => h, hext.count⟩,
    fun R hR => ⟨i, hpost R hR, rfl, rfl, rfl⟩⟩
  · intro sc hsc name b hb
    rw [← hi.scopes, hsame, hk.scopes] at hsc
    exact ((hk.visible sc hsc name b hb).grow (h s).1.frames).weaken (h s).1.program.size
  · exact hsame.symm.trans hi.scopes

def innerDepth : List Frame → Nat
  | f :: _ => f.depth + 1
  | [] => 1

def inner (s : State) : State :=
  { s with
    frames := { depth := innerDepth s.frames } :: s.frames
    scopes := ((s.scopes.headD s.program.scope).inside .function) :: s.scopes }

theorem withFrame_run {α : Type} (act : Resolve α) (s : State) : (withFrame act).run s
    = (((act.run (inner s)).1, (act.run (inner s)).2.frames.headD { depth := innerDepth s.frames }),
      { (act.run (inner s)).2 with
        scopes := s.scopes
        frames := (act.run (inner s)).2.frames.tail }) := by
  obtain ⟨q, scs, fs, errs⟩ := s
  cases fs <;> rfl

/-- What is known when a function is entered. -/
def Known.enter (k : Known) (scs : List Scope) : Known :=
  ⟨(fun _ => none) :: k.slots, scs, k.count, 0⟩

theorem Seen.enter {n : Nat} {f : Frame} {fs : List Frame} {σ : Slots} {σs : List Slots}
    {b : BindingId} (h : Seen p n fs σs b) : Seen p n (f :: fs) (σ :: σs) b := by
  refine ⟨h.1, fun hs => ?_⟩
  obtain ⟨i, g, τ, hg, hτ, hrest⟩ := h.2 hs
  exact ⟨i + 1, g, τ, by simpa using hg, by simpa using hτ, hrest⟩

theorem inner_sees {s : State} {k : Known} (h : s.Sees p k) :
    (inner s).Sees p (k.enter (inner s).scopes) := by
  refine ⟨⟨⟨?_, by simp, by simp, by simp⟩, h.layers⟩, ?_, by simp [inner], rfl, h.rooted, h.count, rfl⟩
  · cases hf : s.frames with
    | nil => rfl
    | cons f fs =>
      have hdepth := h.layers.depth (i := 0) (f := f) (by rw [hf]; rfl)
      simp only [innerDepth, List.length_cons, hf] at hdepth ⊢
      omega
  · intro sc hsc name b hb
    rcases List.mem_cons.mp hsc with rfl | hsc
    · rw [get?_empty rfl] at hb
      exact absurd hb (by simp)
    · exact (h.visible sc hsc name b hb).enter

/-- What resolving the parts of a function leaves behind: they were resolved in the region that the
frame makes in the end, and the functions around hold what it captures. -/
structure Frames {α : Type} (Post : Program → Region → Known → α → Known → Prop) (p : Program)
    (R : Region) (k : Known) (a : α × Frame) (l : Known) : Prop where
  slots : l.slots = k.slots
  inside : ∃ scs i, Post p ⟨a.2.free.toList.map (·.binding), a.2.nextSlot⟩ (k.enter scs) a.1 i ∧
    l.count = i.count
  free : ∀ v ∈ a.2.free.toList, k.top.Captures p R v
  distinct : (a.2.free.toList.map (·.binding)).Nodup
  outside : k.slots = [] → a.2.free.toList = []

theorem withFrame_gives {α : Type} {act : Resolve α} {s : State}
    {Post : Program → Region → Known → α → Known → Prop} (h : GivesAt (inner s) act Post) :
    GivesAt s (withFrame act) (Frames Post) := by
  obtain ⟨hlater, hsees⟩ := h
  rw [GivesAt, withFrame_run]
  have hframes : List.Forall₂ Frame.Grows ({ depth := innerDepth s.frames } :: s.frames)
    (act.run (inner s)).2.frames := hlater.frames
  cases hfs : (act.run (inner s)).2.frames with
  | nil =>
    rw [hfs] at hframes
    cases hframes
  | cons f fs =>
    rw [hfs] at hframes
    obtain ⟨hf, hgrow⟩ := List.forall₂_cons.mp hframes
    refine ⟨⟨hlater.program, hgrow, hlater.errors⟩, ?_⟩
    intro p hp he k hk
    obtain ⟨i, hi, hext, hpost⟩ := hsees p hp he _ (inner_sees hk)
    have hlayers := hi.layers
    rw [hfs] at hlayers
    cases his : i.slots with
    | nil =>
      rw [his] at hlayers
      exact hlayers.elim
    | cons τ τs =>
      have hτs : τs = k.slots := by
        have := hext.outer
        rwa [his] at this
      rw [his, hτs] at hlayers
      refine ⟨⟨k.slots, k.scopes, i.count, nextSlot fs⟩,
        ⟨hlayers.2, ?_, ?_, hk.scopes, hi.rooted, hi.count, rfl⟩, ⟨rfl, rfl, fun _ _ h => h, hext.count⟩,
          fun R hR => ⟨rfl, ⟨_, i, hpost _ ?_, rfl⟩, ?_,
          hlayers.1.distinct, ?_⟩⟩
      · intro sc hsc name b hb
        exact ((hk.visible sc hsc name b hb).grow hgrow).weaken hlater.program.size
      · intro hscopes
        rw [hk.inside hscopes] at hgrow
        exact List.forall₂_nil_left_iff.mp hgrow
      · rw [hfs]
        refine ⟨List.prefix_rfl, Nat.le_refl _, ?_⟩
        intro b hb
        obtain ⟨v, hv, rfl⟩ := List.mem_map.mp hb
        exact Nat.ne_of_lt (hlayers.1.free v hv).2.1
      · intro v hv
        refine captures_of_isPrefix (hlayers.1.free v hv).2.2 ?_
        cases fs with
        | nil => exact List.nil_prefix
        | cons g gs => exact hR.1
      · intro hnil
        have hlen := hlayers.2.length
        rw [hnil] at hlen
        obtain rfl : fs = [] := List.length_eq_zero_iff.mp hlen.symm
        rw [hnil] at hlayers
        apply List.eq_nil_iff_forall_not_mem.mpr
        intro v hv
        obtain ⟨-, -, hv'⟩ := (hlayers.1.free v hv).2.2
        split at hv' <;> simp [freeOf] at hv'

def DeclaresAll (p : Program) (R : Region) : Known → List BindingId → Known → Prop
  | k, [], l => l = k
  | k, b :: bs, l => ∃ i, Declares p R k b i ∧ DeclaresAll p R i bs l

theorem declareParams_gives : (ps : List (Param .parsed)) →
    Gives (declareParams ps) fun p R k qs l =>
      DeclaresAll p R k (qs.map (·.decl)) l ∧ qs.length = ps.length
  | [] => (Gives.pure []).mono fun _ _ _ _ _ ⟨ha, hl⟩ => by subst ha; exact ⟨hl, rfl⟩
  | q :: qs => by
    refine ((declare_gives q.name.text q.name.token).bind fun b =>
      (declareParams_gives qs).bind fun rest => Gives.pure (⟨q.name, b, q.type⟩ :: rest)).mono ?_
    rintro p R k a l ⟨b, i, hdecl, rest, j, ⟨hrest, hlen⟩, rfl, rfl⟩
    exact ⟨⟨i, hdecl, hrest⟩, congrArg (· + 1) hlen⟩

end Scripting.Resolve
