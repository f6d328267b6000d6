import Mathlib.Data.List.Forall2
import Scripting.Resolved.Hoist
import Scripting.Proofs.Scope.Basic
import Scripting.Proofs.Scope.Growth
import Scripting.Proofs.Scope.Decls

/-!
# What name resolution knows

`State.Sees p s k` ties the state of name resolution to the slots of the open frames: every name in
scope that is stored in a frame is held by a slot of the function that it belongs to. All places are
those of a program `p` that grew from the one of the state. `Gives m Post` says what a step of
resolution leaves behind, if no failure was reported.
-/

namespace Scripting.Resolve

/-- A frame later on: it may have taken more slots and captured more variables. -/
structure Frame.Grows (f g : Frame) : Prop where
  depth : g.depth = f.depth
  slots : f.nextSlot ≤ g.nextSlot
  free : f.free.toList <+: g.free.toList

theorem Frame.Grows.refl (f : Frame) : f.Grows f := ⟨rfl, Nat.le_refl _, List.prefix_rfl⟩

theorem Frame.Grows.trans {f g h : Frame} (a : f.Grows g) (b : g.Grows h) : f.Grows h :=
  ⟨b.depth.trans a.depth, Nat.le_trans a.slots b.slots, a.free.trans b.free⟩

/-- A state later on. -/
structure State.Later (s t : State) : Prop where
  program : s.program.Grows t.program
  frames : List.Forall₂ Frame.Grows s.frames t.frames
  errors : t.errors = #[] → s.errors = #[]

theorem growsAll_refl : (fs : List Frame) → List.Forall₂ Frame.Grows fs fs
  | [] => .nil
  | f :: fs => .cons (.refl f) (growsAll_refl fs)

theorem growsAll_trans {fs gs hs : List Frame} (a : List.Forall₂ Frame.Grows fs gs)
    (b : List.Forall₂ Frame.Grows gs hs) : List.Forall₂ Frame.Grows fs hs := by
  induction a generalizing hs with
  | nil => exact b
  | cons hf _ ih =>
    cases b with
    | cons hg hgs => exact .cons (hf.trans hg) (ih hgs)

theorem State.Later.refl (s : State) : s.Later s := ⟨.refl _, growsAll_refl _, id⟩

theorem State.Later.trans {s t u : State} (a : s.Later t) (b : t.Later u) : s.Later u :=
  ⟨a.program.trans b.program, growsAll_trans a.frames b.frames, fun h => a.errors (b.errors h)⟩

/-- The slots of the open frames, the innermost first, the open scopes, the number of functions so
far, and the next slot of the innermost frame. -/
structure Known where
  slots : List Slots
  scopes : List Scope
  count : Nat
  next : Nat

def nextSlot : List Frame → Nat
  | [] => 0
  | f :: _ => f.nextSlot

def Known.top (k : Known) : Slots := k.slots.headD fun _ => none

def freeOf (fs : List Frame) : List BindingId :=
  match fs with
  | [] => []
  | f :: _ => f.free.toList.map (·.binding)

/-- What holds of an open frame, seen from a program `p` with at least `n` bindings. `fs` and `σs`
are the frames around it and their slots. -/
structure Frame.Holds (p : Program) (n : Nat) (f : Frame) (σ : Slots) (fs : List Frame)
    (σs : List Slots) : Prop where
  depth : f.depth = fs.length + 1
  held : ∀ j b, σ j = some b → j < f.nextSlot ∧ b < n ∧ (p.binding b).storage = .frame ∧
    (p.binding b).index = j ∧ (p.binding b).depth = f.depth
  free : ∀ v ∈ f.free.toList, v.binding < n ∧ (p.binding v.binding).depth < f.depth ∧
    (σs.headD fun _ => none).Captures p ⟨freeOf fs, 0⟩ v
  distinct : (f.free.toList.map (·.binding)).Nodup

def Layers (p : Program) (n : Nat) : List Frame → List Slots → Prop
  | [], [] => True
  | f :: fs, σ :: σs => f.Holds p n σ fs σs ∧ Layers p n fs σs
  | _, _ => False

/-- Whether a binding that is in scope is global or held by a slot of its function. -/
def Seen (p : Program) (n : Nat) (fs : List Frame) (σs : List Slots) (b : BindingId) : Prop :=
  b < n ∧ ((p.binding b).storage = .frame → ∃ (i : Nat) (f : Frame) (σ : Slots),
    fs[i]? = some f ∧ σs[i]? = some σ ∧ f.depth = (p.binding b).depth ∧
      σ (p.binding b).index = some b)

structure State.Sees (p : Program) (s : State) (k : Known) : Prop where
  layers : Layers p s.program.bindings.size s.frames k.slots
  visible : ∀ sc ∈ s.scopes, ∀ name b, sc.get? name = some b →
    Seen p s.program.bindings.size s.frames k.slots b
  inside : s.scopes = [] → s.frames = []
  scopes : k.scopes = s.scopes
  rooted : s.program.Rooted
  count : k.count = s.program.funs.size
  next : k.next = nextSlot s.frames

/-- More is known: the innermost frame holds more, and there are more functions. -/
structure Known.Extends (k l : Known) : Prop where
  outer : l.slots.tail = k.slots.tail
  length : l.slots.length = k.slots.length
  top : ∀ j b, k.top j = some b → l.top j = some b
  count : k.count ≤ l.count

theorem Known.Extends.refl (k : Known) : k.Extends k :=
  ⟨rfl, rfl, fun _ _ h => h, Nat.le_refl _⟩

theorem Known.Extends.trans {k l m : Known} (a : k.Extends l) (b : l.Extends m) : k.Extends m :=
  ⟨b.outer.trans a.outer, b.length.trans a.length, fun j c h => b.top j c (a.top j c h),
    Nat.le_trans a.count b.count⟩

/-- Whether a region has what the innermost frame has taken so far, and captures no variable of the
function itself. -/
def Fits (p : Program) (R : Region) : List Frame → Prop
  | [] => True
  | f :: _ => f.free.toList.map (·.binding) <+: R.free ∧ f.nextSlot ≤ R.size ∧
      ∀ b ∈ R.free, (p.binding b).depth ≠ f.depth

theorem Fits.earlier {p : Program} {R : Region} {fs gs : List Frame}
    (h : List.Forall₂ Frame.Grows fs gs) (hg : Fits p R gs) : Fits p R fs := by
  cases h with
  | nil => trivial
  | cons hf _ =>
    obtain ⟨hfree, hsize, hdepth⟩ := hg
    exact ⟨(hf.free.map _).trans hfree, Nat.le_trans hf.slots hsize, hf.depth ▸ hdepth⟩

/-- What a step of resolution leaves behind if no failure was reported: more is known, and `Post`
holds in every region that fits. -/
def GivesAt {α : Type} (s : State) (m : Resolve α)
    (Post : Program → Region → Known → α → Known → Prop) : Prop :=
  s.Later (m.run s).2 ∧ ∀ p, (m.run s).2.program.Grows p → (m.run s).2.errors = #[] →
    ∀ k, s.Sees p k → ∃ l, (m.run s).2.Sees p l ∧ k.Extends l ∧
      ∀ R, Fits p R (m.run s).2.frames → Post p R k (m.run s).1 l

def Gives {α : Type} (m : Resolve α)
    (Post : Program → Region → Known → α → Known → Prop) : Prop := ∀ s, GivesAt s m Post

section

variable {α β : Type} {m : Resolve α} {s : State}

theorem GivesAt.mono {P Q : Program → Region → Known → α → Known → Prop} (h : GivesAt s m P)
    (hPQ : ∀ p R k a l, P p R k a l → Q p R k a l) : GivesAt s m Q := by
  refine ⟨h.1, ?_⟩
  intro p hp he k hk
  obtain ⟨l, hl, hext, hpost⟩ := h.2 p hp he k hk
  exact ⟨l, hl, hext, fun R hR => hPQ p R k _ l (hpost R hR)⟩

theorem GivesAt.congr {P : Program → Region → Known → α → Known → Prop} {m' : Resolve α}
    (hrun : m.run s = m'.run s) (h : GivesAt s m' P) : GivesAt s m P := by
  rw [GivesAt, hrun]
  exact h

theorem GivesAt.ofGet {f : State → Resolve α} {P : Program → Region → Known → α → Known → Prop}
    (h : GivesAt s (f s) P) : GivesAt s (get >>= f) P := h

theorem GivesAt.bind {P : Program → Region → Known → α → Known → Prop} {f : α → Resolve β}
    {Q : α → Program → Region → Known → β → Known → Prop} (hm : GivesAt s m P)
    (hf : GivesAt (m.run s).2 (f (m.run s).1) (Q (m.run s).1)) :
    GivesAt s (m >>= f) fun p R k b l => ∃ a i, P p R k a i ∧ Q a p R i b l := by
  obtain ⟨hlater, hsees⟩ := hm
  obtain ⟨hlater', hsees'⟩ := hf
  refine ⟨hlater.trans hlater', ?_⟩
  intro p hp he k hk
  obtain ⟨i, hi, hki, hP⟩ := hsees p (hlater'.program.trans hp) (hlater'.errors he) k hk
  obtain ⟨l, hl, hil, hQ⟩ := hsees' p hp he i hi
  exact ⟨l, hl, hki.trans hil, fun R hR => ⟨_, i, hP R (hR.earlier hlater'.frames), hQ R hR⟩⟩

end

namespace Gives

variable {α β : Type} {m : Resolve α}

theorem mono {P Q : Program → Region → Known → α → Known → Prop} (h : Gives m P)
    (hPQ : ∀ p R k a l, P p R k a l → Q p R k a l) : Gives m Q :=
  fun s => (h s).mono hPQ

theorem pure (a : α) : Gives (Pure.pure a : Resolve α) fun _ _ k b l => b = a ∧ l = k :=
  fun s => ⟨.refl s, fun _ _ _ k hk => ⟨k, hk, .refl k, fun _ _ => ⟨rfl, rfl⟩⟩⟩

theorem bind {P : Program → Region → Known → α → Known → Prop} {f : α → Resolve β}
    {Q : α → Program → Region → Known → β → Known → Prop} (hm : Gives m P)
    (hf : ∀ a, Gives (f a) (Q a)) :
    Gives (m >>= f) fun p R k b l => ∃ a i, P p R k a i ∧ Q a p R i b l :=
  fun s => (hm s).bind (hf _ _)

theorem after {P : Program → Region → Known → α → Known → Prop} {f : α → Resolve β} {s : State}
    {Q : α → Program → Region → Known → β → Known → Prop} (hf : ∀ a, Gives (f a) (Q a))
    (hm : GivesAt s m P) :
    GivesAt s (m >>= f) fun p R k b l => ∃ a i, P p R k a i ∧ Q a p R i b l :=
  hm.bind (hf _ _)

theorem failed (d : Diagnostic) :
    Gives (modify fun s => { s with errors := s.errors.push d } : Resolve Unit)
      fun _ _ _ _ _ => False := by
  intro s
  have herr : s.errors.push d ≠ #[] := Array.push_ne_empty
  refine ⟨⟨.refl _, growsAll_refl _, fun h => absurd h herr⟩, ?_⟩
  intro p _ he
  exact absurd he herr

theorem report (code : Diagnostic.Code) (tok : Token) (msg : String) :
    Gives (Resolve.report code tok msg) fun _ _ _ _ _ => False := failed _

end Gives

section

variable {p : Program} {n m : Nat}

theorem Frame.Holds.weaken {f : Frame} {σ : Slots} {fs : List Frame} {σs : List Slots}
    (h : f.Holds p n σ fs σs) (hn : n ≤ m) : f.Holds p m σ fs σs :=
  ⟨h.depth, fun j b hb => ⟨(h.held j b hb).1, Nat.lt_of_lt_of_le (h.held j b hb).2.1 hn,
    (h.held j b hb).2.2⟩, fun v hv => ⟨Nat.lt_of_lt_of_le (h.free v hv).1 hn, (h.free v hv).2⟩,
    h.distinct⟩

theorem Layers.weaken (hn : n ≤ m) : {fs : List Frame} → {σs : List Slots} →
    Layers p n fs σs → Layers p m fs σs
  | [], [], _ => trivial
  | _ :: _, _ :: _, h => ⟨h.1.weaken hn, h.2.weaken hn⟩

theorem Layers.length : {fs : List Frame} → {σs : List Slots} → Layers p n fs σs →
    σs.length = fs.length
  | [], [], _ => rfl
  | _ :: _, _ :: _, h => congrArg (· + 1) h.2.length

theorem Seen.grow {fs gs : List Frame} {σs : List Slots} {b : BindingId} (h : Seen p n fs σs b)
    (hg : List.Forall₂ Frame.Grows fs gs) : Seen p n gs σs b := by
  refine ⟨h.1, fun hs => ?_⟩
  obtain ⟨i, f, σ, hf, hσ, hd, hb⟩ := h.2 hs
  obtain ⟨hi, rfl⟩ := List.getElem?_eq_some_iff.mp hf
  have hi' : i < gs.length := hg.length_eq ▸ hi
  exact ⟨i, gs[i], σ, List.getElem?_eq_getElem hi', hσ, (hg.get hi hi').depth.trans hd, hb⟩

theorem Seen.weaken {fs : List Frame} {σs : List Slots} {b : BindingId} (h : Seen p n fs σs b)
    (hn : n ≤ m) : Seen p m fs σs b :=
  ⟨Nat.lt_of_lt_of_le h.1 hn, h.2⟩

theorem Layers.depth {fs : List Frame} {σs : List Slots} (h : Layers p n fs σs) {i : Nat} {f : Frame}
    (hi : fs[i]? = some f) : f.depth + i = fs.length := by
  induction fs generalizing σs i with
  | nil => simp at hi
  | cons g fs ih =>
    cases σs with
    | nil => exact h.elim
    | cons σ σs =>
      cases i with
      | zero =>
        obtain rfl : g = f := by simpa using hi
        exact h.1.depth
      | succ i =>
        have := ih h.2 (by simpa using hi)
        rw [List.length_cons]
        omega

theorem State.Sees.withProgram {s : State} {k : Known} (h : s.Sees p k) {q : Program}
    (hg : s.program.Grows q) (hr : q.Rooted) (hf : q.funs.size = s.program.funs.size) :
    State.Sees p { s with program := q } k :=
  ⟨h.layers.weaken hg.size, fun sc hsc name b hb => (h.visible sc hsc name b hb).weaken hg.size,
    h.inside, h.scopes, hr, h.count.trans hf.symm, h.next⟩

theorem seen_of_isGlobal {q : Program} {b : BindingId} (hb : q.IsGlobal b) (hg : q.Grows p)
    (fs : List Frame) (σs : List Slots) : Seen p q.bindings.size fs σs b := by
  refine ⟨hb.1, fun hs => ?_⟩
  rw [hg.storage b hb.1, hb.2] at hs
  exact absurd hs (by decide)

end

def Ids (lo hi : Nat) (ds : List (FunDecl .resolved)) : Prop :=
  lo ≤ hi ∧ (ds.map (·.info.id)).Nodup ∧ ∀ d ∈ ds, lo ≤ d.info.id ∧ d.info.id < hi

theorem Ids.nil {lo hi : Nat} (h : lo ≤ hi) : Ids lo hi [] := ⟨h, List.nodup_nil, by simp⟩

theorem Ids.append {lo mid hi : Nat} {ds es : List (FunDecl .resolved)} (hd : Ids lo mid ds)
    (he : Ids mid hi es) : Ids lo hi (ds ++ es) := by
  obtain ⟨hle, hnodup, hbound⟩ := hd
  obtain ⟨hle', hnodup', hbound'⟩ := he
  refine ⟨Nat.le_trans hle hle', ?_, ?_⟩
  · rw [List.map_append, List.nodup_append]
    refine ⟨hnodup, hnodup', ?_⟩
    rintro i hi j hj rfl
    obtain ⟨d, hd, rfl⟩ := List.mem_map.mp hi
    obtain ⟨e, he, heq⟩ := List.mem_map.mp hj
    have hlt := Nat.lt_of_lt_of_le (hbound d hd).2 (hbound' e he).1
    exact absurd heq (Nat.ne_of_gt hlt)
  · intro d hd
    rcases List.mem_append.mp hd with hd | hd
    · exact ⟨(hbound d hd).1, Nat.lt_of_lt_of_le (hbound d hd).2 hle'⟩
    · exact ⟨Nat.le_trans hle (hbound' d hd).1, (hbound' d hd).2⟩

theorem Ids.cons {lo hi : Nat} {d : FunDecl .resolved} {ds : List (FunDecl .resolved)}
    (hd : d.info.id = lo) (h : Ids (lo + 1) hi ds) : Ids lo hi (d :: ds) := by
  have hone : Ids lo (lo + 1) [d] := by
    refine ⟨Nat.le_succ lo, by simp, ?_⟩
    intro e he
    obtain rfl := List.mem_singleton.mp he
    exact ⟨Nat.le_of_eq hd.symm, Nat.lt_succ_of_le (Nat.le_of_eq hd)⟩
  exact hone.append h

theorem Ids.perm {lo hi : Nat} {ds es : List (FunDecl .resolved)} (h : Ids lo hi ds)
    (hp : ds.Perm es) : Ids lo hi es :=
  ⟨h.1, (hp.map _).nodup_iff.mp h.2.1, fun d hd => h.2.2 d (hp.mem_iff.mpr hd)⟩

/-- What resolving a tree leaves behind that declares nothing for what follows it. -/
def Keeps {α : Type} (S : Program → Region → Slots → α → Prop) (D : α → List (FunDecl .resolved))
    (p : Program) (R : Region) (k : Known) (a : α) (l : Known) : Prop :=
  l.slots = k.slots ∧ l.scopes = k.scopes ∧ S p R k.top a ∧ Ids k.count l.count (D a)

end Scripting.Resolve
