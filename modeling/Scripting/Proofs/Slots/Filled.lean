import Scripting.Proofs.Batch.Resolving
import Scripting.Proofs.Scope.Declared
import Scripting.Proofs.Scope.Touches
import Scripting.Proofs.Slots.Locals
import Scripting.Proofs.Slots.Queued

/-!
# What a batch stores into

Name resolution refuses to assign to functions, constructors and types, and gives every declaration a
binding of its own. So the trees that it accepts store into no global whose value is known:
`Source.resolve_fair`. A step of it is looked at under the assumption that `z` is the program in the end
and that no failure is reported; both only come out when the batch is done.
-/

namespace Scripting

open Program

/-- Whether a store goes to no global with a known value, and one to what a name stands for to nothing
that source text cannot name. -/
def Store.Fair (p : Program) : Store → Prop
  | .declares b => b < p.bindings.size ∧ (p.binding b).Plain
  | .names _ => True
  | .counts l => p.Veiled l.index ∧ p.Veiled l.limit
  | .assigns s => p.Shown s.binding ∧ (s.place = .global → (p.binding s.binding).Plain)

/-- Whether stores are fair, and those of some functions. -/
structure Fair {N C T W : Type} (p : Program) (ss : List Store)
    (ds : List (FunDecl (.slotted N C T W))) : Prop where
  stores : ∀ s ∈ ss, s.Fair p
  inner : ∀ d ∈ ds, ∀ s ∈ (Touches.func d).stores, s.Fair p

namespace Fair

variable {p : Program} {ss ts : List Store} {ds es : List (FunDecl .resolved)}

theorem nil : Fair p [] ([] : List (FunDecl .resolved)) := by constructor <;> simp

theorem append (h : Fair p ss ds) (k : Fair p ts es) : Fair p (ss ++ ts) (ds ++ es) :=
  ⟨List.forall_mem_append.mpr ⟨h.stores, k.stores⟩, List.forall_mem_append.mpr ⟨h.inner, k.inner⟩⟩

theorem cons {s : Store} (hs : s.Fair p) (h : Fair p ss ds) : Fair p (s :: ss) ds :=
  ⟨List.forall_mem_cons.mpr ⟨hs, h.stores⟩, h.inner⟩

theorem declares {b : BindingId} (h : Fair p ss ds) (hb : (Store.declares b).Fair p) :
    Fair p (ss ++ [.declares b]) ds :=
  List.append_nil ds ▸ h.append (nil.cons hb)

theorem loop {l : LoopSlots} (he : Fair p ss ds) (hi : (Store.declares l.index).Fair p ∧ p.Veiled l.index)
    (hl : (Store.declares l.limit).Fair p ∧ p.Veiled l.limit) (hitem : (Store.declares l.item).Fair p)
    (hb : Fair p ts es) : Fair p
      (ss ++ .counts l :: .declares l.index :: .declares l.limit :: .declares l.item :: ts) (ds ++ es) :=
  he.append ((((hb.cons hitem).cons hl.1).cons hi.1).cons ⟨hi.2, hl.2⟩)

theorem names (h : Fair p [] ds) (bs : List BindingId) : Fair p (bs.map .names) ds :=
  ⟨fun s hs => by
    obtain ⟨b, -, rfl⟩ := List.mem_map.mp hs
    trivial, h.inner⟩

theorem func {d : FunDecl .resolved} (hp : ∀ b ∈ d.paramDecls, (Store.declares b).Fair p)
    (h : Fair p (Stores.block d.body) (Decls.block d.body)) : Fair p [] (Decls.func d) := by
  refine ⟨by simp, ?_⟩
  rw [Decls.func_eq]
  refine List.forall_mem_cons.mpr ⟨List.forall_mem_append.mpr ⟨fun s hs => ?_, h.stores⟩, h.inner⟩
  obtain ⟨b, hb, rfl⟩ := List.mem_map.mp hs
  exact hp b hb

end Fair

namespace Resolve

/-- A state whose program has its queue in order, and in which all names have bindings. -/
structure State.Ordered (n : Nat) (s : State) : Prop where
  queued : s.program.Queued n
  named : s.program.Named
  founded : s.program.Founded
  held : s.program.Held
  keyed : s.program.types.Keyed
  inner : ∀ sc ∈ s.scopes, ∀ name b, sc.get? name = some b → s.program.Shown b

theorem State.Ordered.of_retains {n : Nat} {s t : State} (h : s.Ordered n)
    (hp : Retains n s.program t.program) (hs : t.scopes = s.scopes) : t.Ordered n :=
  ⟨hp.queued h.queued, hp.named h.named, hp.founded h.founded, hp.held h.held, hp.keyed h.keyed,
    fun sc hsc name b hb => (h.inner sc (hs ▸ hsc) name b hb).steady hp.steady⟩

def FillsAt (n : Nat) (z : Program) (s : State) {α : Type} (m : Resolve α) (Q : α → Prop) : Prop :=
  s.Ordered n → (m.run s).2.Ordered n ∧ Retains n s.program (m.run s).2.program ∧
    ((m.run s).2.errors = #[] → s.errors = #[] ∧ ((m.run s).2.program.Steady z → Q (m.run s).1))

/-- Whether a step of resolution keeps the queue in order, with what holds of its result. -/
def Fills (n : Nat) (z : Program) {α : Type} (m : Resolve α) (Q : α → Prop) : Prop :=
  ∀ s, FillsAt n z s m Q

variable {n : Nat} {z : Program} {α β : Type}

theorem FillsAt.ofGet {s : State} {f : State → Resolve α} {Q : α → Prop}
    (h : FillsAt n z s (f s) Q) : FillsAt n z s (get >>= f) Q := h

theorem FillsAt.mono {s : State} {m : Resolve α} {P Q : α → Prop} (h : FillsAt n z s m P)
    (hQ : ∀ a, P a → Q a) : FillsAt n z s m Q := by
  intro hs
  obtain ⟨ht, hkeeps, hP⟩ := h hs
  exact ⟨ht, hkeeps, fun he => ⟨(hP he).1, fun hz => hQ _ ((hP he).2 hz)⟩⟩

namespace Fills

theorem pure {a : α} {Q : α → Prop} (h : Q a) : Fills n z (Pure.pure a) Q :=
  fun s hs => ⟨hs, .refl s.program, fun he => ⟨he, fun _ => h⟩⟩

theorem atBind {s : State} {m : Resolve α} {f : α → Resolve β} {P : α → Prop} {Q : β → Prop}
    (hm : FillsAt n z s m P) (hf : ∀ a, Fills n z (f a) fun b => P a → Q b) :
    FillsAt n z s (m >>= f) Q := by
  intro hs
  obtain ⟨ht, hkeeps, hP⟩ := hm hs
  obtain ⟨hu, hkeeps', hQ⟩ := hf _ _ ht
  refine ⟨hu, hkeeps.trans hkeeps', fun he => ?_⟩
  obtain ⟨he', hQ⟩ := hQ he
  obtain ⟨he, hP⟩ := hP he'
  exact ⟨he, fun hz => hQ hz (hP (hkeeps'.steady.trans hz))⟩

theorem bind {m : Resolve α} {f : α → Resolve β} {P : α → Prop} {Q : β → Prop} (hm : Fills n z m P)
    (hf : ∀ a, Fills n z (f a) fun b => P a → Q b) : Fills n z (m >>= f) Q :=
  fun s => atBind (hm s) hf

theorem mono {m : Resolve α} {P Q : α → Prop} (h : Fills n z m P) (hQ : ∀ a, P a → Q a) :
    Fills n z m Q := fun s => (h s).mono hQ

theorem also {m : Resolve α} {P Q : α → Prop} (h : Fills n z m Q) (hP : ∀ s, P (m.run s).1) :
    Fills n z m fun a => P a ∧ Q a := by
  intro s hs
  obtain ⟨ht, hkeeps, hQ⟩ := h s hs
  exact ⟨ht, hkeeps, fun he => ⟨(hQ he).1, fun hz => ⟨hP s, (hQ he).2 hz⟩⟩⟩

theorem ofGet {f : State → Resolve α} {Q : α → Prop} (hf : ∀ s, FillsAt n z s (f s) Q) :
    Fills n z (get >>= f) Q := fun s => hf s

theorem report {code : Diagnostic.Code} {tok : Token} {msg : String} {Q : Unit → Prop} :
    Fills n z (Resolve.report code tok msg) Q := by
  intro s hs
  refine ⟨⟨hs.queued, hs.named, hs.founded, hs.held, hs.keyed, hs.inner⟩, .refl _, fun he => ?_⟩
  have hempty : s.errors.push (.report code tok msg) = #[] := he
  simp at hempty

theorem reported {code : Diagnostic.Code} {tok : Token} {msg : String} {a : α} {Q : α → Prop} :
    Fills n z (do Resolve.report code tok msg; return a) Q :=
  (report (Q := fun _ => False)).bind fun _ => .pure fun h => h.elim

theorem failure {d : Diagnostic} {Q : Unit → Prop} :
    Fills n z (modify fun s => { s with errors := s.errors.push d }) Q := by
  intro s hs
  refine ⟨⟨hs.queued, hs.named, hs.founded, hs.held, hs.keyed, hs.inner⟩, .refl _, fun he => ?_⟩
  have hempty : s.errors.push d = #[] := he
  simp at hempty

theorem onProgram {f : Program → α × Program} (hf : ∀ p : Program, Retains n p (f p).2) :
    Fills n z (Resolve.onProgram f) fun _ => True :=
  fun s hs => ⟨hs.of_retains (hf s.program) rfl, hf s.program, fun he => ⟨he, fun _ => trivial⟩⟩

theorem inScopes {s : State} (hs : s.Ordered n) (kind : Scope.Kind) (sc : Scope)
    (hsc : sc ∈ (s.scopes.headD s.program.scope).inside kind :: s.scopes) (name : String)
    (b : BindingId) (hb : sc.get? name = some b) : s.program.Shown b := by
  rcases List.mem_cons.mp hsc with rfl | hsc
  · rw [get?_empty rfl] at hb
    cases hb
  · exact hs.inner sc hsc name b hb

theorem withScope {kind : Scope.Kind} {m : Resolve α} {Q : α → Prop} (hm : Fills n z m Q) :
    Fills n z (Resolve.withScope kind m) Q := by
  intro s hs
  obtain ⟨ht, hkeeps, hQ⟩ := hm { s with
    scopes := ((s.scopes.headD s.program.scope).inside kind) :: s.scopes }
    ⟨hs.queued, hs.named, hs.founded, hs.held, hs.keyed, inScopes hs kind⟩
  exact ⟨hs.of_retains hkeeps rfl, hkeeps, hQ⟩

theorem withFrame {m : Resolve α} {Q : α → Prop} (hm : Fills n z m Q) :
    Fills n z (Resolve.withFrame m) fun x => Q x.1 := by
  intro s hs
  obtain ⟨ht, hkeeps, hQ⟩ := hm (Resolve.inner s)
    ⟨hs.queued, hs.named, hs.founded, hs.held, hs.keyed, inScopes hs .function⟩
  rw [withFrame_run]
  exact ⟨hs.of_retains hkeeps rfl, hkeeps, hQ⟩

theorem forM {f : α → Resolve Unit} (hf : ∀ x, Fills n z (f x) fun _ => True) :
    (xs : List α) → Fills n z (xs.forM f) fun _ => True
  | [] => .pure trivial
  | x :: xs => (hf x).bind fun _ => (forM hf xs).mono fun _ _ _ => trivial

theorem mapM {f : α → Resolve β} (hf : ∀ x, Fills n z (f x) fun _ => True) :
    (xs : List α) → Fills n z (xs.mapM f) fun _ => True
  | [] => .pure trivial
  | x :: xs => by
    rw [List.mapM_cons]
    exact (hf x).bind fun _ => (mapM hf xs).bind fun _ => .pure fun _ _ => trivial

end Fills

/-- What a declaration does: it makes the next binding, of which nothing is known. -/
structure MakesNext (n : Nat) (s t : State) : Prop where
  ordered : t.Ordered n
  retains : Retains n s.program t.program
  shown : t.program.Shown s.program.bindings.size
  plain : (t.program.binding s.program.bindings.size).Plain
  errors : t.errors = s.errors

theorem MakesNext.fresh {s t : State} (h : MakesNext n s t) :
    s.program.bindings.size < t.program.bindings.size := h.shown.1

theorem newLocal_declares {s : State} (hs : s.Ordered n) (name : String) (tok : Token) :
    ((newLocal name tok).run s).1 = s.program.bindings.size ∧
      MakesNext n s ((newLocal name tok).run s).2 := by
  obtain ⟨q, scs, fs, errs⟩ := s
  refine ⟨by cases fs <;> rfl, ?_⟩
  cases fs with
  | nil =>
    have hretains := q.newSlot_retains (n := n) name tok
    exact ⟨hs.of_retains hretains rfl, hretains, q.newSlot_shown name tok,
      q.newSlot_plain name tok, rfl⟩
  | cons f fs =>
    have hretains : Retains n q (q.addBinding
        { name := name, index := f.nextSlot, storage := .frame, depth := f.depth, token := tok }).2 :=
      q.addBinding_retains ⟨rfl, rfl⟩
    refine ⟨hs.of_retains hretains rfl, hretains, ⟨?_, ?_⟩, ?_, rfl⟩
    · show q.bindings.size < (q.bindings.push _).size
      simp
    · show (Program.binding { q with bindings := q.bindings.push _ } q.bindings.size).hidden = false
      rw [binding_push_size]
    · show Binding.Plain (Program.binding { q with bindings := q.bindings.push _ } q.bindings.size)
      rw [binding_push_size]
      exact ⟨rfl, rfl⟩

theorem declare_declares {s : State} (hs : s.Ordered n) (name : String) (tok : Token) :
    ((declare name tok).run s).1 = s.program.bindings.size ∧
      MakesNext n s ((declare name tok).run s).2 := by
  obtain ⟨q, scs, fs, errs⟩ := s
  cases scs with
  | nil =>
    have hretains := q.declareGlobal_retains (n := n) name tok
    exact ⟨rfl, hs.of_retains hretains rfl, hretains, q.newSlot_shown name tok,
      q.newSlot_plain name tok, rfl⟩
  | cons sc scs =>
    obtain ⟨hb, hnew⟩ := newLocal_declares hs name tok
    have hrun : (declare name tok).run ⟨q, sc :: scs, fs, errs⟩
        = (((newLocal name tok).run ⟨q, sc :: scs, fs, errs⟩).1,
          ((defineInner name ((newLocal name tok).run ⟨q, sc :: scs, fs, errs⟩).1).run
            ((newLocal name tok).run ⟨q, sc :: scs, fs, errs⟩).2).2) := rfl
    rw [hrun]
    generalize (newLocal name tok).run ⟨q, sc :: scs, fs, errs⟩ = x at hb hnew
    obtain ⟨b, q', scs', fs', errs'⟩ := x
    obtain rfl : b = q.bindings.size := hb
    refine ⟨rfl, ?_⟩
    cases scs' with
    | nil => exact hnew
    | cons sc' scs' =>
      refine ⟨⟨hnew.ordered.queued, hnew.ordered.named, hnew.ordered.founded, hnew.ordered.held,
        hnew.ordered.keyed, fun c hc other d hd => ?_⟩, hnew.retains, hnew.shown, hnew.plain, hnew.errors⟩
      rcases List.mem_cons.mp hc with rfl | hc
      · rw [get?_define] at hd
        split at hd
        · exact Option.some.inj hd ▸ hnew.shown
        · exact hnew.ordered.inner sc' (by simp) other d hd
      · exact hnew.ordered.inner c (by simp [hc]) other d hd

theorem MakesNext.fair {s t : State} (h : MakesNext n s t) (hz : t.program.Steady z) :
    (Store.declares s.program.bindings.size).Fair z :=
  ⟨Nat.lt_of_lt_of_le h.fresh hz.size, hz.plain h.fresh h.plain⟩

theorem declare_fills (name : String) (tok : Token) :
    Fills n z (declare name tok) fun b => (Store.declares b).Fair z := by
  intro s hs
  obtain ⟨hb, hnew⟩ := declare_declares hs name tok
  refine ⟨hnew.ordered, hnew.retains, fun he => ⟨hnew.errors ▸ he, fun hz => ?_⟩⟩
  rw [hb]
  exact hnew.fair hz

theorem newLocal_scopes (name : String) (tok : Token) (s : State) :
    ((newLocal name tok).run s).2.scopes = s.scopes ∧
      ((newLocal name tok).run s).2.program.scope = s.program.scope ∧
        (((newLocal name tok).run s).2.program.binding s.program.bindings.size).captured = false := by
  obtain ⟨q, scs, fs, errs⟩ := s
  cases fs with
  | nil => exact ⟨rfl, rfl, congrArg Binding.captured (binding_push_size q _)⟩
  | cons f fs => exact ⟨rfl, rfl, congrArg Binding.captured (binding_push_size q _)⟩

theorem declareHidden_fills (name : String) (tok : Token) :
    Fills n z (declareHidden name tok) fun b => (Store.declares b).Fair z ∧ z.Veiled b := by
  intro s hs
  obtain ⟨hb, hnew⟩ := newLocal_declares hs name tok
  obtain ⟨hscopes, hscope, hcaptured⟩ := newLocal_scopes name tok s
  have hrun : (declareHidden name tok).run s = (((newLocal name tok).run s).1,
      { ((newLocal name tok).run s).2 with
        program := ((newLocal name tok).run s).2.program.modifyBinding ((newLocal name tok).run s).1
          fun x => { x with hidden := true } }) := rfl
  rw [hrun, hb]
  generalize ((newLocal name tok).run s).2 = t at hnew hscopes hscope hcaptured
  have hretains := hidden_retains hnew.retains hscope (Nat.le_refl _) hnew.fresh
  have hsize : (t.program.modifyBinding s.program.bindings.size fun x =>
      { x with hidden := true }).bindings.size = t.program.bindings.size := by simp [modifyBinding]
  have hbinding : (t.program.modifyBinding s.program.bindings.size fun x =>
      { x with hidden := true }).binding s.program.bindings.size
        = { t.program.binding s.program.bindings.size with hidden := true } := by
    rw [binding_modify hnew.fresh, if_pos rfl]
  refine ⟨hs.of_retains hretains hscopes, hretains, fun he => ⟨hnew.errors ▸ he, fun hz => ⟨?_, ?_⟩⟩⟩
  · refine ⟨Nat.lt_of_lt_of_le hnew.fresh (hsize ▸ hz.size), hz.plain (hsize ▸ hnew.fresh) ?_⟩
    rw [hbinding]
    exact hnew.plain
  · refine Veiled.steady ⟨hsize ▸ hnew.fresh, ?_⟩ hz
    rw [hbinding, Binding.veil, hcaptured]
    rfl

theorem lookup_fills {s : State} {name : String} {f : Option BindingId → Resolve α} {Q : α → Prop}
    (hf : ∀ r, (∀ b, r = some b → s.Ordered n → s.program.Shown b) → FillsAt n z s (f r) Q) :
    FillsAt n z s (lookup name >>= f) Q := by
  have hrun : (lookup name >>= f).run s = (f ((lookup name).run s).1).run ((lookup name).run s).2 := rfl
  rw [FillsAt, hrun, lookup_run]
  refine hf _ fun b hb hs => ?_
  rw [found] at hb
  split at hb
  · rename_i c hc
    obtain rfl : c = b := Option.some.inj hb
    obtain ⟨sc, hsc, hget⟩ := mem_of_lookup hc
    exact hs.inner sc hsc name c hget
  · exact hs.named name b hb

theorem slotFor_fills {s : State} {b : BindingId}
    (hb : s.Ordered n → s.program.Shown b ∨ s.program.IsGlobal b) :
    FillsAt n z s (slotFor b) fun s => s.binding = b := by
  refine .ofGet fun hs => ?_
  dsimp only
  split
  · exact Fills.pure (Q := fun x : Slot => x.binding = b) rfl s hs
  · exact Fills.pure (Q := fun x : Slot => x.binding = b) rfl s hs
  · rename_i hstorage _
    split
    · exact Fills.pure (Q := fun x : Slot => x.binding = b) rfl s hs
    · have hshown : (s.program.binding b).hidden = false := by
        rcases hb hs with hshown | hglobal
        · exact hshown.2
        · exact absurd hglobal.2 (by rw [hstorage]; exact nofun)
      have hretains : Retains n s.program (s.program.modifyBinding b fun x =>
          { x with captured := true }) :=
        s.program.modifyBinding_retains b (f := fun x => { x with captured := true })
          (fun _ => ⟨rfl, rfl, rfl⟩) (by rw [Binding.veil, Binding.veil, hshown]; rfl)
      exact ⟨hs.of_retains hretains rfl, hretains, fun he => ⟨he, fun _ => rfl⟩⟩

def IsName (e : Expr .resolved) : Prop := ∃ t text s, e = .name () t text s

theorem IsName.fair {e : Expr .resolved} (h : IsName e) : Fair z (Stores.expr e) (Decls.expr e) := by
  obtain ⟨t, text, s, rfl⟩ := h
  exact .nil

theorem readType_fills {s : State} {d : TypeDef} (hd : d ∈ s.program.types.defs) (tok : Token) :
    FillsAt n z s (readType d tok) IsName := by
  intro hs
  have hretains := s.program.typeBinding_retains (n := n) d tok
  have ht : State.Ordered n { s with program := (s.program.typeBinding d tok).2 } :=
    hs.of_retains hretains rfl
  have hglobal : (s.program.typeBinding d tok).2.IsGlobal (s.program.typeBinding d tok).1 :=
    typeBinding_isGlobal ht.held hd
  obtain ⟨hu, hretains', hpost⟩ := Fills.atBind (Q := IsName)
    (f := fun x => Pure.pure (Expr.name () tok d.name x : Expr .resolved))
    (slotFor_fills (z := z) fun _ => .inr hglobal) (fun x => .pure fun _ => ⟨tok, d.name, x, rfl⟩) ht
  exact ⟨hu, hretains.trans hretains', hpost⟩

theorem readName_fills (tok : Token) (name : String) : Fills n z (readName tok name) IsName := by
  intro s
  refine lookup_fills fun r hr => ?_
  cases r with
  | some b =>
    exact FillsAt.ofGet (Fills.atBind (slotFor_fills fun hs => .inl (hr b rfl hs))
      fun x => .pure fun _ => ⟨_, _, _, rfl⟩)
  | none =>
    refine FillsAt.ofGet ?_
    split
    · exact Fills.reported s
    · rename_i hd
      exact readType_fills (mem_of_resolveTypeName hd) tok
    · exact Fills.reported s

theorem assignName_fills (tok : Token) (name : String) :
    Fills n z (assignName tok name) fun e => Fair z (e.stored ++ Stores.expr e) (Decls.expr e) := by
  intro s
  refine lookup_fills fun r hr => ?_
  cases r with
  | none => exact Fills.reported s
  | some b =>
    refine FillsAt.ofGet ?_
    dsimp only
    split
    · exact Fills.reported s
    · rename_i hknown
      have hplain : (s.program.binding b).Plain := by simpa [Binding.Plain] using hknown
      intro hs
      have hshown := hr b rfl hs
      obtain ⟨ht, hretains, hQ⟩ := Fills.atBind (z := z)
        (slotFor_fills fun hs => .inl (hr b rfl hs))
        (f := fun x => Pure.pure (Expr.name () tok (s.program.binding b).name x : Expr .resolved))
        (Q := fun e => ∃ x, e = .name () tok (s.program.binding b).name x ∧ x.binding = b)
        (fun x => .pure fun hx => ⟨x, rfl, hx⟩) hs
      refine ⟨ht, hretains, fun he => ⟨(hQ he).1, fun hz => ?_⟩⟩
      obtain ⟨x, hx, hb⟩ := (hQ he).2 hz
      have hsteady := hretains.steady.trans hz
      show Fair z (Expr.stored _ ++ Stores.expr _) (Decls.expr _)
      rw [hx]
      refine .cons ⟨?_, fun _ => ?_⟩ .nil
      · rw [hb]
        exact hshown.steady hsteady
      · rw [hb]
        exact hsteady.plain hshown.1 hplain

theorem expr_stored {e : Expr .parsed} (hname : e.nameView? = none) (hmember : e.isMember = false)
    (s : State) : ((expr e).run s).1.stored = [] := by
  cases e with
  | name => cases hname
  | member => cases hmember
  | assign _ t target value =>
    rw [expr]
    cases hview : target.nameView? with
    | some x => rfl
    | none =>
      show Expr.stored (StateT.run (if _ then _ else _ : Resolve (Expr .resolved)) _).1 = []
      split <;> rfl
  | _ => rfl

theorem memberType_fills {s : State} {left : Expr .parsed} {field : Name}
    {f : Option (TypeDef × Token) → Resolve α} {Q : α → Prop}
    (hf : ∀ x, (∀ y, x = some y → y.1 ∈ s.program.types.defs) → FillsAt n z s (f x) Q) :
    FillsAt n z s (memberType? left field >>= f) Q := by
  refine hf (left.dotted?.bind fun x =>
    (s.program.type? (".".intercalate (x.2 ++ [field.text]))).map (·, x.1)) fun y hy => ?_
  obtain ⟨x, -, hx⟩ := Option.bind_eq_some_iff.mp hy
  obtain ⟨d, hd, rfl⟩ := Option.map_eq_some_iff.mp hx
  exact TypeTable.mem_of_byName? hd

theorem declareNested_fills {P : Phase} (d : FunDecl P) :
    Fills n z (declareNested d) fun _ => True := by
  intro s hs
  obtain ⟨hb, hnew⟩ := declare_declares hs d.name.text d.name.token
  generalize hx : (declare d.name.text d.name.token).run s = x at hb hnew
  obtain ⟨b, t⟩ := x
  obtain rfl : b = s.program.bindings.size := hb
  replace hnew : MakesNext n s t := hnew
  let q := (t.program.addFun (userFunction d)).2.modifyBinding s.program.bindings.size
    fun x => { x with callable := some (.user t.program.funs.size) }
  have hrun : (declareNested d).run s = ((t.program.funs.size, s.program.bindings.size),
      { t with program := if (q.binding s.program.bindings.size).storage == .global
        then q.addPending s.program.bindings.size else q }) := by
    have hstep : (declareNested d).run s = StateT.run (do
        let id ← bindFunction d ((declare d.name.text d.name.token).run s).1
        if ((← get).program.binding ((declare d.name.text d.name.token).run s).1).storage
            == Storage.global then
          Resolve.onProgram fun p => ((), p.addPending ((declare d.name.text d.name.token).run s).1)
        return (id, ((declare d.name.text d.name.token).run s).1))
          ((declare d.name.text d.name.token).run s).2 := rfl
    rw [hstep, hx]
    show StateT.run (if (q.binding s.program.bindings.size).storage == .global then _ else _ :
      Resolve _) _ = _
    split <;> rfl
  have hadd : Retains n s.program (t.program.addFun (userFunction d)).2 :=
    hnew.retains.trans (.of_types rfl rfl rfl rfl (by simp [addFun]) rfl)
  have hmade : ∀ (x : Binding) (c : Callable), some (.user t.program.funs.size) = some c →
      x.callable = some c ∨ c.Made (t.program.addFun (userFunction d)).2 := by
    intro x c hc
    obtain rfl := Option.some.inj hc
    exact .inr (by simp [Callable.Made, addFun])
  have hretains : Retains n s.program (if (q.binding s.program.bindings.size).storage == .global
      then q.addPending s.program.bindings.size else q) := by
    have hq : (q.binding s.program.bindings.size).storage
        = (t.program.binding s.program.bindings.size).storage := by
      have hfresh : s.program.bindings.size
          < (t.program.addFun (userFunction d)).2.bindings.size := hnew.fresh
      show ((Program.modifyBinding _ _ _).binding _).storage = _
      rw [binding_modify hfresh, if_pos rfl]
      rfl
    split
    · rename_i hglobal
      refine noted_retains hadd (Nat.le_refl _) ⟨hnew.fresh, ?_⟩ (fun _ => rfl) (.inr hnew.plain.2)
        hmade fun h => (hadd.named h).modifyBinding _ fun _ => rfl
      exact hq ▸ eq_of_beq hglobal
    · rename_i hlocal
      refine local_retains hadd (Nat.le_refl _) ?_ (fun _ => rfl) (.inr hnew.plain.2) hmade
        fun h => (hadd.named h).modifyBinding _ fun _ => rfl
      intro hglobal
      exact hlocal (beq_iff_eq.mpr (hq.trans hglobal))
  rw [hrun]
  refine ⟨⟨hretains.queued hs.queued, hretains.named hs.named, hretains.founded hs.founded,
    hretains.held hs.held, hretains.keyed hs.keyed, fun sc hsc name b hb => ?_⟩, hretains,
    fun he => ⟨hnew.errors ▸ he, fun _ => trivial⟩⟩
  have hshown : q.Shown b :=
    Shown.modifyBinding (p := (t.program.addFun (userFunction d)).2)
      (hnew.ordered.inner sc hsc name b hb) _ fun _ => rfl
  dsimp only
  split <;> exact hshown

theorem declareParams_fills : (ps : List (Param .parsed)) →
    Fills n z (declareParams ps) fun qs => ∀ b ∈ qs.map (·.decl), (Store.declares b).Fair z
  | [] => .pure (by simp)
  | q :: ps => (declare_fills q.name.text q.name.token).bind fun b => (declareParams_fills ps).bind
      fun qs => .pure fun hqs hb => by simpa using ⟨hb, by simpa using hqs⟩

theorem declareSelf_fills (t : Token) : Fills n z (some <$> declare "self" t) fun r =>
    ∀ b, r = some b → (Store.declares b).Fair z :=
  (declare_fills "self" t).bind fun _ => .pure fun hb _ hc => Option.some.inj hc ▸ hb

theorem assign_fills {target : Expr .parsed} (hname : target.nameView? = none)
    (h : Fills n z (expr target) fun e => Fair z (Stores.expr e) (Decls.expr e))
    (v : Expr .resolved) (tok t : Token) (msg : String) :
    Fills n z (do
      let e ← expr target
      if target.isMember && !e.isMember then report .badBinding tok msg
      return (.assign () t e v : Expr .resolved)) fun a => Fair z (Stores.expr v) (Decls.expr v) →
        Fair z (Stores.expr a) (Decls.expr a) := by
  refine (h.also (P := fun e => target.isMember = false → e.stored = []) fun s hm =>
    expr_stored hname hm s).bind fun e => ?_
  dsimp only
  split
  · exact .reported
  · rename_i hkind
    refine .pure fun he hv => ?_
    have hstored : e.stored = [] := by
      cases e with
      | name =>
        refine he.1 ?_
        simpa [Expr.isMember] using hkind
      | _ => rfl
    rw [Stores.expr, hstored]
    exact he.2.append hv

mutual

theorem expr_fills : (e : Expr .parsed) →
    Fills n z (expr e) fun e => Fair z (Stores.expr e) (Decls.expr e)
  | .name _ t text _ => (readName_fills t text).mono fun _ h => h.fair
  | .int .. | .float .. | .string .. | .char .. | .bool .. => .pure .nil
  | .interpolated _ _ es | .array _ _ es => (exprs_fills es).bind fun _ => .pure fun h => h
  | .unary _ _ _ e | .tryUnwrap _ _ e => (expr_fills e).bind fun _ => .pure fun h => h
  | .binary _ _ _ l r | .index _ _ l r | .range _ _ l r =>
    (expr_fills l).bind fun _ => (expr_fills r).bind fun _ => .pure fun hr hl => hl.append hr
  | .assign _ t target value => by
    rw [expr]
    refine (expr_fills value).bind fun v => ?_
    split
    · rename_i tok name _
      refine (assignName_fills tok name).bind fun _ => .pure fun h hv => ?_
      rw [Stores.expr, ← List.append_assoc]
      exact h.append hv
    · rename_i hname
      exact assign_fills hname (expr_fills target) v _ t _
  | .call _ _ _ f es =>
    (expr_fills f).bind fun _ => (exprs_fills es).bind fun _ => .pure fun hes hf => hf.append hes
  | .member _ t left field => by
    rw [expr]
    intro s
    refine memberType_fills fun x hx => ?_
    cases x with
    | none => exact Fills.bind (expr_fills left) (fun _ => .pure fun h => h) s
    | some x => exact (readType_fills (hx x rfl) x.2).mono fun _ h => h.fair
  | .new _ _ _ _ fs => (inits_fills fs).bind fun _ => .pure fun h => h
  | .block b => (block_fills b).bind fun _ => .pure fun h => h
  | .cond _ _ test body alt => (expr_fills test).bind fun _ => (block_fills body).bind fun _ =>
      (option_fills alt).bind fun _ => .pure fun ha hb ht => ht.append (hb.append ha)
  | .cases _ t subject _ as => (expr_fills subject).bind fun _ =>
      (declareHidden_fills "$match" t).bind fun _ => (arms_fills as).bind fun _ =>
        .pure fun ha hb he => he.append (ha.cons hb.1)

theorem exprs_fills : (es : List (Expr .parsed)) →
    Fills n z (exprs es) fun es => Fair z (Stores.exprs es) (Decls.exprs es)
  | [] => .pure .nil
  | e :: es => (expr_fills e).bind fun _ => (exprs_fills es).bind fun _ =>
      .pure fun hes he => he.append hes

theorem option_fills : (e : Option (Expr .parsed)) →
    Fills n z (option e) fun e => Fair z (Stores.option e) (Decls.option e)
  | none => .pure .nil
  | some e => (expr_fills e).bind fun _ => .pure fun h => h

theorem inits_fills : (fs : List (FieldInit .parsed)) →
    Fills n z (inits fs) fun fs => Fair z (Stores.inits fs) (Decls.inits fs)
  | [] => .pure .nil
  | .mk _ _ v :: fs => (expr_fills v).bind fun _ => (inits_fills fs).bind fun _ =>
      .pure fun hfs hv => hv.append hfs

theorem arms_fills : (as : List (Arm .parsed)) →
    Fills n z (arms as) fun as => Fair z (Stores.arms as) (Decls.arms as)
  | [] => .pure .nil
  | .mk t q body :: as => by
    have harm : Fills n z (withScope .block do
        let q ← pattern q
        return (.mk t q (← expr body) : Arm .resolved)) fun a =>
          Fair z (Stores.arms [a]) (Decls.arms [a]) := by
      refine .withScope ((pattern_fills q).bind fun _ => (expr_fills body).bind fun _ =>
        .pure fun he hq => ?_)
      simpa [Stores.arms, Decls.arms] using hq.append he
    rw [arms]
    refine harm.bind fun a => (arms_fills as).bind fun _ => .pure fun has ha => ?_
    obtain ⟨t, q, e⟩ := a
    simpa [Stores.arms, Decls.arms] using ha.append has

theorem pattern_fills : (q : Pattern .parsed) →
    Fills n z (pattern q) fun q => Fair z (Stores.pattern q) (Decls.pattern q)
  | .wildcard _ => .pure .nil
  | .literal _ v => (expr_fills v).bind fun _ => .pure fun h => h
  | .bind name _ => (declare_fills name.text name.token).bind fun _ => .pure fun h => Fair.nil.cons h
  | .ctor _ _ _ qs => (patterns_fills qs).bind fun _ => .pure fun h => h

theorem patterns_fills : (qs : List (Pattern .parsed)) →
    Fills n z (patterns qs) fun qs => Fair z (Stores.patterns qs) (Decls.patterns qs)
  | [] => .pure .nil
  | q :: qs => (pattern_fills q).bind fun _ => (patterns_fills qs).bind fun _ =>
      .pure fun hqs hq => hq.append hqs

theorem block_fills : (b : Block .parsed) →
    Fills n z (block b) fun b => Fair z (Stores.block b) (Decls.block b)
  | .mk _ _ ss _ => (Fills.withScope (stmts_fills ss)).bind fun _ => .pure fun h => h

theorem func_fills (id : FunId) (binding : Option BindingId) : (d : FunDecl .parsed) →
    Fills n z (func id binding d) fun d => Fair z [] (Decls.func d)
  | .mk t name _ hasSelf params result (.mk _ bt ss close) => by
    rw [func]
    refine Fills.bind (Fills.withFrame (Q := fun x => (∀ b, x.1 = some b → (Store.declares b).Fair z) ∧
      (∀ b ∈ x.2.1.map (·.decl), (Store.declares b).Fair z) ∧
        Fair z (Stores.stmts x.2.2) (Decls.stmts x.2.2)) ?_) fun x => ?_
    · dsimp only
      split
      · exact (declareSelf_fills t).bind fun _ => (declareParams_fills params).bind
          fun _ => (stmts_fills ss).bind fun _ => .pure fun hss hp hs => ⟨hs, hp, hss⟩
      · exact Fills.bind (.pure (Q := (· = none)) rfl) fun _ => (declareParams_fills params).bind
          fun _ => (stmts_fills ss).bind fun _ => .pure fun hss hp hs => ⟨by simp [hs], hp, hss⟩
    · refine (Fills.onProgram fun p => ?_).bind fun _ => .pure fun _ hx => ?_
      · exact .of_types rfl rfl rfl rfl (by simp [modifyFun]) rfl
      · refine Fair.func (List.forall_mem_append.mpr ⟨fun b hb => ?_, hx.2.1⟩) hx.2.2
        exact hx.1 b (Option.mem_toList.mp hb)

theorem funcs_fills : (ids : List FunId) → (ds : List (FunDecl .parsed)) →
    Fills n z (funcs ids ds) fun ds => Fair z [] (Decls.funcs ds)
  | id :: ids, d :: ds => (func_fills id none d).bind fun _ => (funcs_fills ids ds).bind
      fun _ => .pure fun hds hd => hd.append hds
  | [], ds => by
    rw [funcs.eq_def]
    exact .pure .nil
  | _ :: _, [] => .pure .nil

theorem stmts_fills : (ss : List (Stmt .parsed)) →
    Fills n z (stmts ss) fun ss => Fair z (Stores.stmts ss) (Decls.stmts ss)
  | [] => .pure .nil
  | s :: ss => (stmt_fills s).bind fun _ => (stmts_fills ss).bind fun _ =>
      .pure fun hss hs => hs.append hss

theorem stmt_fills : (s : Stmt .parsed) →
    Fills n z (stmt s) fun s => Fair z (Stores.stmt s) (Decls.stmt s)
  | .expr _ v => (expr_fills v).bind fun _ => .pure fun h => h
  | .block b => (block_fills b).bind fun _ => .pure fun h => h
  | .bind _ name _ _ v => (expr_fills v).bind fun _ =>
      (declare_fills name.text name.token).bind fun _ => .pure fun hb hv => hv.declares hb
  | .ret _ v => (option_fills v).bind fun _ => .pure fun h => h
  | .loop _ test body => (expr_fills test).bind fun _ => (block_fills body).bind fun _ =>
      .pure fun hb ht => ht.append hb
  | .each t name _ series body => by
    rw [stmt]
    refine (expr_fills series).bind fun e => .withScope ?_
    have hbody : ∀ i l : BindingId, Fills n z (do
        let item ← declare name.text name.token
        return (.each t name ⟨l, i, item⟩ e (← block body) : Stmt .resolved))
        fun s => (Store.declares l).Fair z ∧ z.Veiled l → (Store.declares i).Fair z ∧ z.Veiled i →
          Fair z (Stores.expr e) (Decls.expr e) → Fair z (Stores.stmt s) (Decls.stmt s) := fun i l =>
      (declare_fills name.text name.token).bind fun _ => (block_fills body).bind fun _ =>
        .pure fun hb hitem hl hi he => .loop he hi hl hitem hb
    dsimp only
    split
    · exact (declareHidden_fills _ t).bind fun i => (declareHidden_fills _ t).bind fun l =>
        (hbody i l).mono fun _ h hl hi => h hl hi
    · exact (declareHidden_fills _ t).bind fun l => (declareHidden_fills _ t).bind fun i =>
        (hbody i l).mono fun _ h hi hl => h hl hi
  | .leave _ | .next _ => .pure .nil
  | .func d => (declareNested_fills d).bind fun x => (func_fills x.1 (some x.2) d).bind
      fun _ => .pure fun h _ => h.names _
  | .impl .. | .record .. | .union .. | .use .. => .reported

end

theorem useModule_fills {load : String → Except LoadError HostModule}
    (hload : Loading.PlainLoader load) (tok : Token) (path : List String) :
    Fills n z (useModule load tok path) fun _ => True := by
  refine (Fills.onProgram fun p => (Loading.useModule_alongside load _ p).retains
    (Loading.useModule_objects hload _ p) (Loading.useModule_inherits hload _ p)).bind fun r => ?_
  cases r with
  | ok u => exact .pure fun _ => trivial
  | error e => exact .report

theorem declareType_fills (name : Name) (kind : TypeDef.Kind) :
    Fills n z (declareType name kind) fun _ => True := by
  refine .ofGet fun s => ?_
  split
  · exact Fills.reported s
  · rename_i id q hq
    intro hs
    have hretains : Retains n s.program q :=
      (addType_alongside hq).retains (addType_objects rfl hq) (addType_inherits rfl hq)
    exact ⟨hs.of_retains hretains rfl, hretains, fun he => ⟨he, fun _ => trivial⟩⟩

theorem fields_fills : (fs : List FieldDecl) → (seen : List String) →
    Fills n z (fields seen fs) fun _ => True
  | [], _ => .pure trivial
  | f :: fs, seen => by
    rw [fields]
    split
    · exact (Fills.report (Q := fun _ => True)).bind fun _ =>
        (fields_fills fs seen).mono fun _ _ _ => trivial
    · refine .ofGet fun s => ?_
      split
      · exact (fields_fills fs _).bind (fun _ => .pure fun _ => trivial) s
      · exact (Fills.failure (Q := fun _ => True)).bind
          (fun _ => (fields_fills fs _).mono fun _ _ _ => trivial) s

theorem variants_fills (union : String) (vs : List VariantDecl) (seen : List String) :
    Fills n z (variants union seen vs) fun _ => True := by
  induction vs generalizing seen with
  | nil => exact .pure trivial
  | cons v vs ih =>
    rw [variants]
    split
    · exact .reported
    · exact (fields_fills v.fields []).bind fun _ => (ih _).bind fun _ => .pure fun _ _ => trivial

theorem defineRecord_fills (id : TypeId) (decls : List FieldDecl) :
    Fills n z (defineRecord id decls) fun _ => True :=
  (fields_fills decls []).bind fun fs => (Fills.onProgram fun p =>
    p.modifyType_retains id (f := fun d => { d with fields := fs }) (fun _ => ⟨rfl, rfl, rfl⟩)
      fun h => h.of_eq rfl (p.modifyType_inherits id fun _ => rfl)).mono fun _ _ _ => trivial

theorem fields_program : (fs : List FieldDecl) → (seen : List String) → (s : State) →
    ((fields seen fs).run s).2.program = s.program
  | [], _, _ => rfl
  | f :: fs, seen, s => by
    rw [fields]
    split
    · exact fields_program fs seen _
    · simp only [StateT.run_bind, StateT.run_get, pure_bind]
      split
      · exact fields_program fs _ s
      · exact fields_program fs _ _

theorem variants_program (union : String) : (vs : List VariantDecl) → (seen : List String) →
    (s : State) → ((variants union seen vs).run s).2.program = s.program ∧
      ∀ ws, ((variants union seen vs).run s).1 = some ws → ∀ w ∈ ws, w.object = none
  | [], _, _ => ⟨rfl, fun ws h => by
    obtain rfl : [] = ws := Option.some.inj h
    simp⟩
  | v :: vs, seen, s => by
    rw [variants]
    split
    · exact ⟨rfl, fun ws h => by cases h⟩
    · obtain ⟨hprogram, hobjects⟩ :=
        variants_program union vs (v.name :: seen) ((fields [] v.fields).run s).2
      refine ⟨hprogram.trans (fields_program v.fields [] s), fun ws h => ?_⟩
      obtain ⟨us, hus, rfl⟩ := Option.map_eq_some_iff.mp h
      intro w hw
      rcases List.mem_cons.mp hw with rfl | hw
      · rfl
      · exact hobjects us hus w hw

theorem defineUnion_fills {s : State} {id : TypeId} (hunused : s.program.Unused id)
    (hid : id < s.program.nextType) (name : Name) (decls : List VariantDecl) :
    FillsAt n z s (defineUnion id name decls) fun _ => True := by
  intro hs
  obtain ⟨ht, hretains, hpost⟩ := variants_fills (n := n) (z := z) name.text decls [] s hs
  obtain ⟨hprogram, hobjects⟩ := variants_program name.text decls [] s
  rw [defineUnion_run]
  generalize (variants name.text [] decls).run s = x at *
  obtain ⟨r, t⟩ := x
  cases r with
  | none => exact ⟨ht, hretains, hpost⟩
  | some vs =>
    have hsettle : Retains n t.program ((t.program.modifyType id fun d =>
        { d with variants := vs }).bindVariants id name.token) :=
      t.program.settleVariants_retains ht.keyed (hprogram ▸ hid) (hprogram ▸ hunused) (hobjects vs rfl) _
    exact ⟨ht.of_retains hsettle rfl, hretains.trans hsettle, fun he => ⟨(hpost he).1, fun _ => trivial⟩⟩

theorem addMethod_fills (d : TypeDef) (f : FunDecl .parsed) :
    Fills n z (addMethod d f) fun _ => True := by
  refine (Fills.onProgram fun p => ?_).bind fun id => (Fills.onProgram fun p => ?_).bind
    fun _ => .pure fun _ _ => trivial
  · exact .of_types rfl rfl rfl rfl (by simp [addFun]) rfl
  · exact (p.modifyType_retains d.id (f := fun d => d.addMethod id) (fun _ => ⟨rfl, rfl, rfl⟩)
      fun h => h.of_eq rfl (p.modifyType_inherits d.id fun _ => rfl)).trans
      (.of_types rfl rfl rfl rfl (Nat.le_refl _) rfl)

theorem declareImpl_fills (name : Name) (ds : List (FunDecl .parsed)) :
    Fills n z (declareImpl name ds) fun _ => True := by
  refine .ofGet fun s => ?_
  split
  · exact Fills.reported s
  · exact Fills.reported s
  · rename_i d _
    split
    · exact (Fills.mapM (addMethod_fills d) ds).bind (fun _ => .pure fun _ => trivial) s
    · exact Fills.reported s

theorem declareFunction_fills (d : FunDecl .parsed) :
    Fills n z (declareFunction d) fun _ => True := by
  refine fun s hs => ?_
  let q := (s.program.declareGlobal d.name.text d.name.token).2
  have hadd : Retains n s.program (q.addFun (userFunction d)).2 :=
    (s.program.declareGlobal_retains d.name.text d.name.token).trans
      (.of_types rfl rfl rfl rfl (by simp [q, addFun]) rfl)
  have hnoted := noted_retains hadd (Nat.le_refl _)
    (s.program.declareGlobal_isGlobal d.name.text d.name.token)
    (f := fun x => { x with callable := some (.user q.funs.size) }) (fun _ => rfl)
    (.inr (s.program.newSlot_plain d.name.text d.name.token).2) (fun x c hc => by
      obtain rfl := Option.some.inj hc
      exact .inr (by simp [Callable.Made, addFun]))
    fun h => (hadd.named h).modifyBinding _ fun _ => rfl
  have hretains : Retains n s.program ((declareFunction d).run s).2.program :=
    hnoted.trans (.of_types rfl rfl rfl rfl (Nat.le_refl _) rfl)
  exact ⟨hs.of_retains hretains rfl, hretains, fun he => ⟨he, fun _ => trivial⟩⟩

/-- Types get new numbers in the order of their declarations. -/
structure Numbering (s t : State) (ids : List TypeId) : Prop where
  bindings : t.program.bindings = s.program.bindings
  later : s.program.nextType ≤ t.program.nextType
  distinct : ids.Nodup
  bounds : ∀ id ∈ ids, s.program.nextType ≤ id ∧ id < t.program.nextType

theorem Numbering.nil (s : State) : Numbering s s [] := ⟨rfl, Nat.le_refl _, List.nodup_nil, by simp⟩

theorem Numbering.append {s t u : State} {is js : List TypeId} (h : Numbering s t is)
    (k : Numbering t u js) : Numbering s u (is ++ js) := by
  refine ⟨k.bindings.trans h.bindings, Nat.le_trans h.later k.later,
    List.nodup_append.mpr ⟨h.distinct, k.distinct, fun i hi j hj => ?_⟩, fun i hi => ?_⟩
  · exact Nat.ne_of_lt (Nat.lt_of_lt_of_le (h.bounds i hi).2 (k.bounds j hj).1)
  · rcases List.mem_append.mp hi with hi | hi
    · exact ⟨(h.bounds i hi).1, Nat.lt_of_lt_of_le (h.bounds i hi).2 k.later⟩
    · exact ⟨Nat.le_trans h.later (k.bounds i hi).1, (k.bounds i hi).2⟩

theorem declareType_numbering (name : Name) (kind : TypeDef.Kind) (s : State) :
    Numbering s ((declareType name kind).run s).2 ((declareType name kind).run s).1.toList := by
  rw [declareType]
  simp only [StateT.run_bind, StateT.run_get, pure_bind]
  split
  · exact ⟨rfl, Nat.le_refl _, List.nodup_nil, fun i hi => absurd hi List.not_mem_nil⟩
  · rename_i id p hadd
    obtain ⟨rfl, hnext⟩ := addType_number rfl hadd
    have hlater : s.program.nextType < p.nextType := hnext ▸ Nat.lt_succ_self _
    refine ⟨(addType_alongside hadd).bindings, Nat.le_of_lt hlater, List.nodup_singleton _,
      fun i hi => ?_⟩
    obtain rfl : i = s.program.nextType := List.mem_singleton.mp hi
    exact ⟨Nat.le_refl _, hlater⟩

theorem types_numbering : (ts : List (Stmt .parsed)) → (s : State) →
    Numbering s ((ts.mapM typeFor).run s).2 (((ts.mapM typeFor).run s).1.flatMap Option.toList)
  | [], s => .nil s
  | t :: ts, s => by
    have hone : Numbering s ((typeFor t).run s).2 ((typeFor t).run s).1.toList := by
      cases t with
      | record | union => exact declareType_numbering _ _ s
      | _ => exact .nil s
    rw [List.mapM_cons]
    exact hone.append (types_numbering ts _)

theorem types_length : (ts : List (Stmt .parsed)) → (s : State) →
    ((ts.mapM typeFor).run s).1.length = ts.length
  | [], _ => rfl
  | t :: ts, s => by
    rw [List.mapM_cons]
    exact congrArg (· + 1) (types_length ts ((typeFor t).run s).2)

theorem define_unused {other : TypeId} {s : State} (h : s.program.Unused other)
    {x : Stmt .parsed × Option TypeId} (hne : x.2 ≠ some other) :
    ((define x).run s).2.program.Unused other := by
  rw [define.eq_def]
  split
  · rename_i decls id
    have hprogram := congrArg Program.bindings (fields_program decls [] s)
    refine Names.of_eq h ?_
    exact hprogram
  · rename_i name decls id
    rw [defineUnion_run]
    have hprogram := (variants_program name.text decls [] s).1
    generalize (variants name.text [] decls).run s = y at hprogram
    obtain ⟨r, t⟩ := y
    replace h : t.program.Unused other := hprogram ▸ h
    cases r with
    | none => exact h
    | some vs =>
      refine Unused.bindVariants (fun heq => hne (by rw [heq])) ?_ _
      exact Names.of_eq h rfl
  · exact h

theorem define_fills {s : State} {x : Stmt .parsed × Option TypeId}
    (h : ∀ id ∈ x.2, s.program.Unused id ∧ id < s.program.nextType) :
    FillsAt n z s (define x) fun _ => True := by
  rw [define.eq_def]
  split
  · exact defineRecord_fills _ _ s
  · exact defineUnion_fills (h _ rfl).1 (h _ rfl).2 _ _
  · exact Fills.pure trivial s

theorem defines_fills : (xs : List (Stmt .parsed × Option TypeId)) → (s : State) →
    (xs.flatMap (·.2.toList)).Nodup → (∀ id ∈ xs.flatMap (·.2.toList), s.program.Unused id ∧
      id < s.program.nextType) → FillsAt n z s (xs.forM define) fun _ => True
  | [], s, _, _ => Fills.pure trivial s
  | x :: xs, s, hnodup, hids => by
    rw [List.flatMap_cons] at hnodup hids
    obtain ⟨-, hrest, hapart⟩ := List.nodup_append.mp hnodup
    intro hs
    have hone : FillsAt n z s (define x) fun _ => True :=
      define_fills fun id hid => hids id (List.mem_append_left _ (by simpa using hid))
    obtain ⟨ht, hretains, hpost⟩ := hone hs
    obtain ⟨hu, hretains', hpost'⟩ := defines_fills xs ((define x).run s).2 hrest
      (fun id hid => ⟨define_unused (hids id (List.mem_append_right _ hid)).1 fun heq =>
          hapart id (by simp [heq]) id hid rfl,
        Nat.lt_of_lt_of_le (hids id (List.mem_append_right _ hid)).2 hretains.nextType⟩) ht
    exact ⟨hu, hretains.trans hretains', fun he => ⟨(hpost (hpost' he).1).1, fun _ => trivial⟩⟩

theorem hoist_fills {load : String → Except LoadError HostModule} (hload : Loading.PlainLoader load)
    (ss : List (Stmt .parsed)) : Fills n z (hoist load ss) fun _ => True := by
  have huse : Fills n z (ss.forM (useFor load)) fun _ => True := by
    refine .forM (fun s => ?_) ss
    cases s with
    | use tok path => exact useModule_fills hload tok path
    | _ => exact .pure trivial
  have htype : Fills n z (ss.mapM typeFor) fun _ => True := by
    refine .mapM (fun s => ?_) ss
    cases s with
    | record | union => exact declareType_fills _ _
    | _ => exact .pure trivial
  have hannounce : Fills n z (ss.mapM announce) fun _ => True := by
    refine .mapM (fun s => ?_) ss
    cases s with
    | impl tok name ds => exact declareImpl_fills name ds
    | func d => exact declareFunction_fills d
    | _ => exact .pure trivial
  have hdefine : Fills n z (ss.mapM typeFor >>= fun types => (ss.zip types).forM define) fun _ => True := by
    intro s hs
    obtain ⟨ht, hretains, hpost⟩ := htype s hs
    obtain ⟨hbindings, hlater, hdistinct, hbounds⟩ := types_numbering ss s
    have hzip : ((ss.zip ((ss.mapM typeFor).run s).1).flatMap (·.2.toList))
        = ((ss.mapM typeFor).run s).1.flatMap Option.toList := by
      have hsnd := List.map_snd_zip (Nat.le_of_eq (types_length ss s))
      conv_rhs => rw [← hsnd, List.flatMap_map]
    obtain ⟨hu, hretains', hpost'⟩ := defines_fills (n := n) (z := z)
      (ss.zip ((ss.mapM typeFor).run s).1) ((ss.mapM typeFor).run s).2 (hzip ▸ hdistinct)
      (fun id hid => ⟨(hs.founded.unused (hbounds id (hzip ▸ hid)).1).of_eq hbindings,
        (hbounds id (hzip ▸ hid)).2⟩) ht
    exact ⟨hu, hretains.trans hretains', fun he => ⟨(hpost (hpost' he).1).1, fun _ => trivial⟩⟩
  have hrest : Fills n z ((ss.mapM typeFor >>= fun types => (ss.zip types).forM define) >>= fun _ =>
      ss.mapM announce) fun _ => True :=
    hdefine.bind fun _ => hannounce.mono fun _ _ _ => trivial
  rw [bind_assoc] at hrest
  exact huse.bind fun _ => hrest.mono fun _ _ _ => trivial

theorem topStmt_fills (h : Hoisted) (s : Stmt .parsed) :
    Fills n z (topStmt h s) fun s => Fair z (Stores.stmt s) (Decls.stmt s) := by
  rw [topStmt.eq_def]
  split
  · exact (func_fills _ _ _).bind fun _ => .pure fun h => h.names _
  · exact (funcs_fills _ _).bind fun _ => .pure fun h => h
  · exact .pure .nil
  · exact .pure .nil
  · exact .pure .nil
  · exact stmt_fills s

theorem topStmts_fills : (xs : List (Hoisted × Stmt .parsed)) →
    Fills n z (xs.mapM fun (h, s) => topStmt h s) fun ss => Fair z (Stores.stmts ss) (Decls.stmts ss)
  | [] => .pure .nil
  | x :: xs => by
    rw [List.mapM_cons]
    exact (topStmt_fills x.1 x.2).bind fun _ => (topStmts_fills xs).bind fun _ =>
      .pure fun hss hs => hs.append hss

theorem batch_fills {load : String → Except LoadError HostModule} (hload : Loading.PlainLoader load)
    (ss : List (Stmt .parsed)) :
    Fills n z (batch load ss) fun ss => Fair z (Stores.stmts ss) (Decls.stmts ss) := by
  refine (hoist_fills hload ss).bind fun hs => .ofGet fun s => ?_
  split
  · exact (topStmts_fills _).mono (fun _ h _ => h) s
  · exact Fills.pure (fun _ => .nil) s

end Resolve

theorem Source.resolve_fair {n : Nat} {p : Program} (hq : p.Queued n) (hn : p.Named)
    (hf : p.Founded) (hh : p.Held) (hk : p.types.Keyed)
    {load : String → Except LoadError HostModule} (hload : Loading.PlainLoader load)
    (src : Source .parsed) :
    Retains n p (src.resolve load p).2 ∧ ∀ out, (src.resolve load p).1 = .ok out →
      Fair (src.resolve load p).2 (Stores.stmts out.stmts) (Decls.stmts out.stmts) := by
  obtain ⟨-, hretains, hfair⟩ := Resolve.batch_fills (n := n) (z := (src.resolve load p).2) hload
    src.stmts { program := p } ⟨hq, hn, hf, hh, hk, by simp⟩
  refine ⟨hretains, fun out hout => ?_⟩
  have hrun : (src.resolve load p).1
      = if ((Resolve.batch load src.stmts).run { program := p }).2.errors.isEmpty then
          .ok { file := src.file, stmts := ((Resolve.batch load src.stmts).run { program := p }).1 }
        else .error ((Resolve.batch load src.stmts).run { program := p }).2.errors.toList := rfl
  rw [hrun] at hout
  split at hout
  · rename_i hempty
    obtain rfl := Except.ok.inj hout
    exact (hfair (by simpa using hempty)).2 (.refl _)
  · cases hout

end Scripting
