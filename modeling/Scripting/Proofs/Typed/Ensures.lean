import Scripting.Proofs.Batch.Follows
import Scripting.Proofs.Batch.Own
import Scripting.Proofs.Slots.Queued
import Scripting.Proofs.Typed.Formed

/-!
# What a step of type checking ensures

Type checking settles the types of what the batch declares. It leaves the places of bindings and the
numbers of arguments as they were, and touches nothing that was there before the batch.
`Ensures p table m Q` says that `m` does, and that `Q` holds of its result if no failure was reported.
`table` holds the functions of the batch.
-/

namespace Scripting

def Program.oldBindings (p : Program) : Nat := (p.batch.map (·.bindings)).getD 0

def Program.oldFuns (p : Program) : Nat := (p.batch.map (·.funs)).getD 0

/-- A program whose types are being settled. -/
structure Program.Settles (p q : Program) : Prop where
  grows : p.Grows q
  marks : q.marks = p.marks
  steady : p.Steady q
  rest : q = { p with bindings := q.bindings, funs := q.funs }
  count : q.funs.size = p.funs.size
  bindings : ∀ b < p.oldBindings, q.bindings[b]? = p.bindings[b]?
  funs : ∀ i < p.oldFuns, q.funs[i]? = p.funs[i]?
  refs : ∀ i : FunId, (q.funs[i]?).bind (·.ref) = (p.funs[i]?).bind (·.ref)

namespace Program.Settles

variable {p q r : Program}

theorem types (h : p.Settles q) : q.types = p.types := by rw [h.rest]

theorem scope (h : p.Settles q) : q.scope = p.scope := by rw [h.rest]

theorem numbers (h : p.Settles q) : p.Numbers q := .of_eq h.marks (by rw [h.rest])

theorem oldBindings (h : p.Settles q) : q.oldBindings = p.oldBindings := by
  rw [h.rest]
  rfl

theorem oldFuns (h : p.Settles q) : q.oldFuns = p.oldFuns := by
  rw [h.rest]
  rfl

theorem refl (p : Program) : p.Settles p :=
  ⟨.refl p, rfl, .refl p, rfl, rfl, fun _ _ => rfl, fun _ _ => rfl, fun _ => rfl⟩

theorem trans (h : p.Settles q) (k : q.Settles r) : p.Settles r where
  grows := h.grows.trans k.grows
  marks := k.marks.trans h.marks
  steady := h.steady.trans k.steady
  rest := by rw [k.rest, h.rest]
  count := k.count.trans h.count
  bindings b hb := (k.bindings b (h.oldBindings ▸ hb)).trans (h.bindings b hb)
  funs i hi := (k.funs i (h.oldFuns ▸ hi)).trans (h.funs i hi)
  refs i := (k.refs i).trans (h.refs i)

theorem retains (h : p.Settles q) (n : Nat) : Retains n p q := by
  have hpending : q.pending = p.pending := by rw [h.rest]
  have hnext : q.nextType = p.nextType := by rw [h.rest]
  exact .of_marks h.marks h.steady h.scope hpending
    (.of_eq h.types (Nat.le_of_eq h.count.symm) hnext) (objects_of_types h.types) (.of_types h.types)

theorem setType (p : Program) {b : BindingId} (hb : p.oldBindings ≤ b) (t : Ty) :
    p.Settles (p.modifyBinding b fun x => { x with type := t }) where
  grows := p.modifyBinding_grows b _ fun _ => ⟨rfl, rfl, rfl, fun h => h⟩
  marks := p.marks_modifyBinding b fun _ => rfl
  steady := p.modifyBinding_steady b rfl rfl
  rest := rfl
  count := rfl
  bindings c hc := by rw [Program.modifyBinding, Array.getElem?_modify, if_neg (by omega)]
  funs _ _ := rfl
  refs _ := rfl

theorem modifyFun (p : Program) {id : FunId} (hid : p.oldFuns ≤ id) {f : UserFunction → UserFunction}
    (hf : ∀ x, (f x).arity = x.arity ∧ (f x).ref = x.ref) : p.Settles (p.modifyFun id f) where
  grows := p.modifyFun_grows id f fun x => (hf x).1
  marks := rfl
  steady := .of_eq rfl
  rest := rfl
  count := by simp [Program.modifyFun]
  bindings _ _ := rfl
  funs i hi := by rw [Program.modifyFun, Array.getElem?_modify, if_neg (by omega)]
  refs := modifyFun_refs p id fun x => (hf x).2

theorem follows {o : Program} (h : Follows o p) (ho : o.batch.isSome = true) (hq : p.Settles q) :
    Follows o q := by
  obtain ⟨b, hb⟩ := Option.isSome_iff_exists.mp (h.batch.trans ho)
  obtain ⟨⟨hbindings, hfuns, -, -⟩, -⟩ := h.undone b hb
  have hold : p.oldBindings = o.bindings.size := by rw [Program.oldBindings, hb, ← hbindings]; rfl
  have holdFuns : p.oldFuns = o.funs.size := by rw [Program.oldFuns, hb, ← hfuns]; rfl
  have hgrows := hq.grows
  have hcount := hq.count
  have hnew := hq.bindings
  have hnewFuns := hq.funs
  have hrefs := hq.refs
  rw [hq.rest] at hgrows hcount hnew hnewFuns hrefs ⊢
  exact h.keep ⟨fun _ => rfl, Alike.of_types rfl, rfl, rfl, rfl, rfl, hold ▸ hnew, holdFuns ▸ hnewFuns,
    fun _ _ => rfl, fun _ _ => rfl⟩ rfl ⟨hgrows.size, Nat.le_of_eq hcount.symm, Nat.le_refl _,
      Nat.le_refl _, List.prefix_rfl, Nat.le_refl _, hrefs⟩
    (h.tidy.grow hgrows rfl rfl (Nat.le_refl _) (Nat.le_refl _) rfl)

end Program.Settles

namespace Typing

abbrev Table := Std.TreeMap FunId (FunDecl .resolved)

/-- What holds of a state of type checking. What is done was kept, unless a failure was reported. -/
structure State.Sound (p : Program) (table : Table) (s : State) : Prop where
  program : p.Settles s.program
  decls : s.decls = table
  done : s.errors = #[] → ∀ (id : FunId) (t : FunDecl .typed),
    s.done[id]? = some t → ∃ d, table[id]? = some d ∧ KeepsFunc p d t

def Ensures (p : Program) (table : Table) {α : Type} (m : Typing α) (Q : α → Prop) : Prop :=
  ∀ s, s.Sound p table → (m.run s).2.Sound p table ∧
    ((m.run s).2.errors = #[] → s.errors = #[] ∧ Q (m.run s).1)

namespace Ensures

variable {p : Program} {table : Table} {α β : Type} {m : Typing α}

theorem mono {Q Q' : α → Prop} (h : Ensures p table m Q) (hQ : ∀ a, Q a → Q' a) :
    Ensures p table m Q' := by
  intro s hs
  obtain ⟨hsound, hpost⟩ := h s hs
  exact ⟨hsound, fun he => ⟨(hpost he).1, hQ _ (hpost he).2⟩⟩

theorem pure {a : α} {Q : α → Prop} (ha : Q a) : Ensures p table (Pure.pure a) Q :=
  fun _ hs => ⟨hs, fun he => ⟨he, ha⟩⟩

theorem ret (a : α) : Ensures p table (Pure.pure a) (· = a) := pure rfl

theorem bind {P : α → Prop} {f : α → Typing β} {Q : α → β → Prop} (hm : Ensures p table m P)
    (hf : ∀ a, Ensures p table (f a) (Q a)) :
    Ensures p table (m >>= f) fun b => ∃ a, P a ∧ Q a b := by
  intro s hs
  obtain ⟨hsound, hP⟩ := hm s hs
  obtain ⟨hsound', hQ⟩ := hf _ _ hsound
  refine ⟨hsound', fun he => ?_⟩
  obtain ⟨he', hq⟩ := hQ he
  exact ⟨(hP he').1, _, (hP he').2, hq⟩

theorem andThen {P : α → Prop} {f : α → Typing β} {Q : β → Prop} (hm : Ensures p table m P)
    (hf : ∀ a, Ensures p table (f a) Q) : Ensures p table (m >>= f) Q :=
  (hm.bind hf).mono fun _ ⟨_, _, h⟩ => h

theorem ofProgram {f : Program → Typing α} {Q : α → Prop}
    (hf : ∀ q, p.Settles q → Ensures p table (f q) Q) : Ensures p table (program >>= f) Q :=
  fun s hs => hf s.program hs.program s hs

theorem ofGet {f : State → Typing α} {Q : α → Prop} (hf : ∀ s, Ensures p table (f s) Q) :
    Ensures p table (get >>= f) Q := fun s hs => hf s s hs

theorem addError (d : Diagnostic) {Q : Unit → Prop} : Ensures p table (Typing.addError d) Q := by
  intro s hs
  have hrun : ((Typing.addError d).run s).2
      = if s.errors.any fun e =>
        e.token.line == d.token.line && e.token.col == d.token.col && e.code == d.code
        then s else { s with errors := s.errors.push d } := rfl
  have hne : ((Typing.addError d).run s).2.errors ≠ #[] := by
    rw [hrun]
    split
    case isTrue h =>
      intro he
      rw [he] at h
      exact absurd h (by simp)
    case isFalse => exact Array.push_ne_empty
  refine ⟨?_, fun he => absurd he hne⟩
  refine ⟨?_, ?_, fun he => absurd he hne⟩
  · rw [hrun]
    split
    · exact hs.program
    · exact hs.program
  · rw [hrun]
    split
    · exact hs.decls
    · exact hs.decls

theorem report {Q : Unit → Prop} (code : Diagnostic.Code) (tok : Token) (msg : String) :
    Ensures p table (Typing.report code tok msg) Q := addError _

theorem failedWith {d : Diagnostic} {a : α} {Q : α → Prop} (ha : Q a) :
    Ensures p table (do Typing.addError d; return a) Q :=
  (addError d (Q := fun _ => True)).andThen fun _ => .pure ha

theorem reported {code : Diagnostic.Code} {tok : Token} {msg : String} {a : α} {Q : α → Prop}
    (ha : Q a) : Ensures p table (do Typing.report code tok msg; return a) Q :=
  failedWith ha

theorem failed {Q : α → Prop} {e : Typing Unit}
    (he : Ensures p table e fun _ => False) (hm : Ensures p table m fun _ => True) :
    Ensures p table (do e; m) Q :=
  (he.bind fun _ => hm).mono fun _ ⟨_, h, _⟩ => h.elim

theorem onProgram {f : Program → Program} (hf : ∀ q : Program, p.Settles q → q.Settles (f q)) :
    Ensures p table (Typing.onProgram f) fun _ => True :=
  fun _ hs => ⟨⟨hs.program.trans (hf _ hs.program), hs.decls, hs.done⟩, fun he => ⟨he, trivial⟩⟩

theorem setType {b : BindingId} (hb : p.oldBindings ≤ b) (t : Ty) :
    Ensures p table (Typing.setType b t) fun _ => True :=
  onProgram fun q hq => .setType q (hq.oldBindings ▸ hb) t

theorem modifyFun {id : FunId} (hid : p.oldFuns ≤ id) {f : UserFunction → UserFunction}
    (hf : ∀ x, (f x).arity = x.arity ∧ (f x).ref = x.ref) :
    Ensures p table (Typing.onProgram fun q => q.modifyFun id f) fun _ => True :=
  onProgram fun q hq => .modifyFun q (hq.oldFuns ▸ hid) hf

theorem function (id : FunId) : Ensures p table (Typing.function id) fun _ => True :=
  ofProgram fun _ _ => .pure trivial

theorem assignable (t u : Ty) : Ensures p table (Typing.assignable t u) fun _ => True :=
  ofProgram fun _ _ => .pure trivial

theorem addSite (tok : Token) (t : Ty) : Ensures p table (Typing.addSite tok t) fun _ => True :=
  fun _ hs => ⟨⟨hs.program, hs.decls, hs.done⟩, fun he => ⟨he, trivial⟩⟩

theorem forM {f : α → Typing Unit} : (as : List α) →
    (∀ a ∈ as, Ensures p table (f a) fun _ => True) → Ensures p table (as.forM f) fun _ => True
  | [], _ => .pure trivial
  | a :: as, hf => (hf a (by simp)).andThen fun _ => forM as fun b hb => hf b (by simp [hb])

end Ensures

end Typing

end Scripting
