import Scripting.Proofs.Code.Flow
import Scripting.Proofs.Script.Lowers
import Scripting.Proofs.Typed.Formed

/-!
# The code of a tree keeps the stack

The code of an expression pushes one value and that of a statement none, on every way through it, and
every name it uses stands in a slot that was stored to. `Calm` says of a tree that loops are left only
where no operand waits on the stack; of such a tree all ways to an instruction have the same height.
-/

namespace Scripting

/-- The field whose value is pushed before those of the others, unless it is pushed again. -/
def Template.first (t : Template) : Option String :=
  match t.fields with
  | [] => none
  | f :: fs => if f ∈ fs then none else some f

namespace Calm

mutual

/-- Whether no loop is left from inside an expression while values of that loop's round wait on the
stack. `pending` tells whether some wait when the expression starts. -/
def expr (pending : Bool) : Expr .typed → Prop
  | .name .. | .int .. | .float .. | .string .. | .char .. | .bool .. => True
  | .interpolated _ _ es | .array _ _ es => exprs pending es
  | .unary _ _ _ e | .tryUnwrap _ _ e | .member _ _ e _ => expr pending e
  | .binary _ _ .and l r | .binary _ _ .or l r | .range _ _ l r => expr pending l ∧ expr pending r
  | .binary _ _ _ l r | .index _ _ l r => expr pending l ∧ expr true r
  | .assign _ _ (.member _ _ l _) r => expr pending l ∧ expr true r
  | .assign _ _ _ r => expr pending r
  | .call _ _ info f es =>
    (info.viaReceiver = true → receiver pending f) ∧ exprs (pending || info.viaReceiver) es ∧
      (info.isStatic = false → expr (pending || info.viaReceiver || !es.isEmpty) f)
  | .new _ _ t _ fs => inits pending t.first fs
  | .block b => block pending b
  | .cond _ _ test body alt => expr pending test ∧ block pending body ∧ option pending alt
  | .cases _ _ subject _ as => expr pending subject ∧ arms pending as

def exprs (pending : Bool) : List (Expr .typed) → Prop
  | [] => True
  | e :: es => expr pending e ∧ exprs true es

def option (pending : Bool) : Option (Expr .typed) → Prop
  | none => True
  | some e => expr pending e

def receiver (pending : Bool) : Expr .typed → Prop
  | .member _ _ left _ => expr pending left
  | _ => True

/-- The fields of a record; the value of `first` is pushed before those of the others. -/
def inits (pending : Bool) (first : Option String) : List (FieldInit .typed) → Prop
  | [] => True
  | .mk _ name e :: fs => expr (if first = some name then pending else true) e ∧
      inits pending first fs

def arms (pending : Bool) : List (Arm .typed) → Prop
  | [] => True
  | .mk _ q e :: as => pattern q ∧ expr pending e ∧ arms pending as

def pattern : Pattern .typed → Prop
  | .wildcard _ | .bind .. => True
  | .literal _ e => expr true e
  | .ctor _ _ _ qs => patterns qs

def patterns : List (Pattern .typed) → Prop
  | [] => True
  | q :: qs => pattern q ∧ patterns qs

def block (pending : Bool) : Block .typed → Prop
  | .mk _ _ ss _ => stmts pending ss

def stmts (pending : Bool) : List (Stmt .typed) → Prop
  | [] => True
  | s :: ss => stmt pending s ∧ stmts pending ss

def stmt (pending : Bool) : Stmt .typed → Prop
  | .expr _ e | .bind _ _ _ _ e => expr pending e
  | .block b => block pending b
  | .ret _ e => option pending e
  | .loop _ test b => expr pending test ∧ block false b
  | .each _ _ _ series b => expr pending series ∧ block false b
  | .leave _ | .next _ => pending = false
  | .func _ | .impl .. | .record .. | .union .. | .use .. => True

end

/-- Whether the body of a function is calm. -/
def func (d : FunDecl .typed) : Prop := block false d.body

end Calm

namespace Slots

def Inside (R : Region) (σ : Slots) : Prop := ∀ j b, σ j = some b → j < R.size

/-- Whether all variables of some slots are still there. -/
def Kept (σ τ : Slots) : Prop := ∀ j b, σ j = some b → τ j = some b

theorem Kept.refl (σ : Slots) : σ.Kept σ := fun _ _ h => h

theorem Kept.trans {σ τ υ : Slots} (h : σ.Kept τ) (k : τ.Kept υ) : σ.Kept υ :=
  fun j b hb => k j b (h j b hb)

variable (p : Program)

def Has (σ : Slots) (b : BindingId) : Prop :=
  (p.binding b).storage = .frame → σ (p.binding b).index = some b

def shape (σ : Slots) (height : Nat) : Shape :=
  ⟨height, fun j => (σ j).map fun b => (p.binding b).captured⟩

variable {p} {R : Region} {σ τ : Slots} {b c : BindingId} {h : Nat}

theorem Kept.add (hb : σ.Fresh p R b) : σ.Kept (σ.add p b) := by
  intro j c hc
  rw [Slots.add, if_neg]
  · exact hc
  · rintro ⟨hs, rfl⟩
    rw [(hb hs).2.1] at hc
    cases hc

theorem Inside.add (hσ : σ.Inside R) (hb : σ.Fresh p R b) : (σ.add p b).Inside R := by
  intro j c hc
  rw [Slots.add] at hc
  split at hc
  · rename_i hj
    rw [hj.2]
    exact (hb hj.1).1
  · exact hσ j c hc

theorem add_global (hs : (p.binding b).storage = .global) : σ.add p b = σ := by
  funext j
  rw [Slots.add, if_neg]
  rw [hs]
  exact fun h => absurd h.1 (by decide)

theorem Captures.of_add {v : FreeVar} (hb : (p.binding b).captured = false)
    (h : (σ.add p b).Captures p R v) : σ.Captures p R v := by
  obtain ⟨hstorage, hcaptured, hplace⟩ := h
  refine ⟨hstorage, hcaptured, ?_⟩
  split
  · rename_i hframe
    rw [if_pos hframe, Slots.add] at hplace
    split at hplace
    · obtain rfl := Option.some.inj hplace
      rw [hb] at hcaptured
      cases hcaptured
    · exact hplace
  · rename_i hframe
    rwa [if_neg hframe] at hplace

theorem has_add : (σ.add p b).Has p b := by
  intro hs
  rw [Slots.add, if_pos ⟨hs, rfl⟩]

theorem Has.kept (hc : σ.Has p c) (h : σ.Kept τ) : τ.Has p c :=
  fun hs => h _ _ (hc hs)

theorem Kept.within (exact : Bool) (hk : σ.Kept τ) : Shape.Within exact (τ.shape p h) (σ.shape p h) := by
  refine ⟨Nat.le_refl _, fun _ => rfl, fun i x hx => ?_⟩
  obtain ⟨b, hb, rfl⟩ := Option.map_eq_some_iff.mp hx
  exact Option.map_eq_some_iff.mpr ⟨b, hk i b hb, rfl⟩

theorem after_declare (σ : Slots) (b : BindingId) (h : Nat) :
    (σ.shape p (h + 1)).after (Lowering.declareOp (p.binding b)) [(p.binding b).index]
      = (σ.add p b).shape p h := by
  have hslots : ((σ.shape p (h + 1)).stored (Lowering.declareOp (p.binding b)) [(p.binding b).index])
      = ((σ.add p b).shape p h).slots := by
    funext j
    rw [Lowering.declareOp]
    cases hs : (p.binding b).storage with
    | global => simp [Shape.stored, Slots.shape, Slots.add, hs]
    | frame =>
      cases hc : (p.binding b).captured <;>
        by_cases hj : j = (p.binding b).index <;>
          simp [Shape.stored, Shape.store, Slots.shape, Slots.add, hs, hc, hj]
  rw [Shape.after, hslots, Lowering.declareOp]
  cases (p.binding b).storage <;> cases (p.binding b).captured <;> rfl

end Slots

/-- Whether code that is entered in a shape may leave the loop around it. While nothing is pending
the height is that of the place it goes to. -/
def Exits.Open (E : Exits) (inLoop pending : Bool) (s : Shape) : Prop :=
  inLoop = true → ∀ k, k ≠ .miss → ∃ t, E k = some t ∧ t.height ≤ s.height ∧
    (pending = false → s.height = t.height) ∧ ∀ i x, t.slots i = some x → s.slots i = some x

namespace Exits.Open

variable {E : Exits} {inLoop pending : Bool} {s t : Shape} {σ τ : Slots} {p : Program} {h : Nat}

theorem higher (hE : E.Open inLoop pending (σ.shape p h)) (n : Nat) :
    E.Open inLoop true (σ.shape p (h + n)) := by
  intro hl k hk
  obtain ⟨t, ht, hle, -, hslots⟩ := hE hl k hk
  exact ⟨t, ht, Nat.le_trans hle (Nat.le_add_right h n), nofun, hslots⟩

theorem kept (hE : E.Open inLoop pending (σ.shape p h)) (hk : σ.Kept τ) :
    E.Open inLoop pending (τ.shape p h) := by
  intro hl k hm
  obtain ⟨t, ht, hle, hsame, hslots⟩ := hE hl k hm
  exact ⟨t, ht, hle, hsame, fun i x hx => (hk.within true).slots i x (hslots i x hx)⟩

theorem miss (hE : E.Open inLoop pending s) : (E.set .miss t).Open inLoop pending s := by
  intro hl k hk
  obtain ⟨u, hu, hrest⟩ := hE hl k hk
  exact ⟨u, by rwa [Exits.set, if_neg hk], hrest⟩

theorem loop (hs : σ.Kept τ) :
    ((E.set .next (σ.shape p h)).set .leave (σ.shape p h)).Open inLoop false (τ.shape p h) := by
  intro _ k hk
  refine ⟨σ.shape p h, ?_, Nat.le_refl _, fun _ => rfl, (hs.within true).slots⟩
  cases k with
  | miss => exact absurd rfl hk
  | leave | next => rfl

theorem leaves {C : Limits} {k : Exit} {l : Int} {b : Shape}
    (hE : E.Open true pending s) (hk : k ≠ .miss) (hcalm : C.exact = true → pending = false) :
    Flows C E [⟨l, .exit k⟩] s b := by
  obtain ⟨t, ht, hle, hsame, hslots⟩ := hE rfl k hk
  exact .leaves hk ht ⟨hle, fun he => hsame (hcalm he), hslots⟩

end Exits.Open

namespace Flows

variable {C : Limits} {E : Exits} {a : Shape} {l : Int}

theorem plain {c : Opcode} (hc : c.widths = [] ∧ c.isSpecial = false)
    (hpops : c.pops [] ≤ a.height) (hasks : C.Asks a c []) :
    Flows C E (Assembly.op c l) a (a.after c []) :=
  .op ⟨hc.2, by rw [hc.1]; exact .nil⟩ hpops hasks

theorem word {c : Opcode} {n : Nat} (hc : c.widths = [2] ∧ c.isSpecial = false)
    (hn : n ≤ Emit.maxWord) (hpops : c.pops [n] ≤ a.height) (hasks : C.Asks a c [n]) :
    Flows C E (Lowering.word c n l) a (a.after c [n]) := by
  refine .op ⟨hc.2, ?_⟩ hpops hasks
  rw [hc.1]
  rw [Emit.maxWord] at hn
  exact .cons (by omega) .nil

end Flows

namespace Value

theorem eq_of_constKey_str {w : Value} {s : String} (h : w.constKey = (Value.str s).constKey) :
    w = .str s := by
  cases w with
  | str t => exact congrArg Value.str (ConstKey.str.inj h)
  | _ => cases h

theorem eq_of_constKey_func {w : Value} {r : Ref} (h : w.constKey = (Value.func r).constKey) :
    w = .func r := by
  cases w with
  | func t => exact congrArg Value.func (ConstKey.object.inj h).2
  | int | float | str | bool | char | unit => cases h
  | _ => exact absurd (ConstKey.object.inj h).1 (by decide)

theorem eq_of_constKey_ctor {w : Value} {i : Nat} {c : Ctor}
    (h : w.constKey = (Value.ctor i c).constKey) : ∃ d, w = .ctor i d := by
  cases w with
  | ctor j d => exact ⟨d, congrArg (Value.ctor · d) (ConstKey.object.inj h).2⟩
  | int | float | str | bool | char | unit => cases h
  | _ => exact absurd (ConstKey.object.inj h).1 (by decide)

end Value

/-- What code is checked against when it is generated for a function: the slots and captured
variables of that function, and the pool. Functions have objects, and templates are constructors. -/
structure Lowering.Suits (K : Lowering) (R : Region) (C : Limits) : Prop where
  pool : C.pool = K.pool
  locals : C.locals = R.size
  free : C.free = R.free.length
  refs : ∀ (i : FunId) (f : UserFunction), K.program.funs[i]? = some f → ∃ r, f.ref = some r
  templates : ∀ (t : Template) (v : Value), K.template t v → ∃ i c, v = .ctor i c

namespace Lowering

variable {K : Lowering} {R : Region} {C : Limits} {E : Exits} {σ : Slots} {h : Nat} {l : Int}
  {c : Assembly} {b : BindingId} (hC : K.Suits R C)
include hC

theorem const_flows {v : Value} (hc : K.Const v l c) :
    Flows C E c (σ.shape K.program h) (σ.shape K.program (h + 1)) := by
  obtain ⟨k, ⟨w, hw, -⟩, hk, rfl⟩ := hc
  refine .word (c := .const) ⟨rfl, rfl⟩ hk (Nat.zero_le _) ?_
  rw [Limits.Asks, hC.pool]
  exact (Array.getElem?_eq_some_iff.mp hw).1

theorem named_flows {o : Opcode} {name : String} (ho : o = .getField ∨ o = .setField ∨ o = .checkType)
    (hc : K.Named o name l c) :
    Flows C E c (σ.shape K.program (h + o.pops [])) (σ.shape K.program (h + 1)) := by
  obtain ⟨k, ⟨w, hw, hkey⟩, hk, rfl⟩ := hc
  obtain rfl := Value.eq_of_constKey_str hkey
  have hasks : ∃ t, C.pool[k]? = some (.str t) := ⟨name, hC.pool ▸ hw⟩
  rcases ho with rfl | rfl | rfl
  · exact .word (c := .getField) ⟨rfl, rfl⟩ hk (Nat.le_add_left 1 h) hasks
  · exact .word (c := .setField) ⟨rfl, rfl⟩ hk (Nat.le_add_left 2 h) hasks
  · exact .word (c := .checkType) ⟨rfl, rfl⟩ hk (Nat.le_add_left 1 h) hasks

theorem declare_flows (hb : K.Addressed b) (hfresh : σ.Fresh K.program R b) :
    Flows C E (K.declare b l) (σ.shape K.program (h + 1)) ((σ.add K.program b).shape K.program h) := by
  rw [← Slots.after_declare, declare]
  rw [Slots.Fresh, ← hC.locals] at hfresh
  rw [declareOp]
  cases hs : (K.program.binding b).storage with
  | global => exact .word (c := .setGlobal) ⟨rfl, rfl⟩ hb (Nat.le_add_left 1 h) trivial
  | frame =>
    cases (K.program.binding b).captured with
    | true => exact .word (c := .makeCell) ⟨rfl, rfl⟩ hb (Nat.le_add_left 1 h) (hfresh hs).1
    | false => exact .word (c := .setLocal) ⟨rfl, rfl⟩ hb (Nat.le_add_left 1 h) (hfresh hs).1

theorem slot_of_has {i : Nat} (hσ : σ.Inside R) (hb : σ i = some b) :
    i < C.locals ∧ (σ.shape K.program h).slots i = some (K.program.binding b).captured :=
  ⟨hC.locals ▸ hσ i b hb, congrArg (Option.map _) hb⟩

theorem read_flows {i : Nat} (hi : i ≤ Emit.maxWord) (hσ : σ.Inside R) (hb : σ i = some b) :
    Flows C E (word (if (K.program.binding b).captured then .getCell else .getLocal) i l)
      (σ.shape K.program h) (σ.shape K.program (h + 1)) := by
  have hslot := slot_of_has hC (h := h) hσ hb
  cases hc : (K.program.binding b).captured with
  | true =>
    rw [hc] at hslot
    exact .word (c := .getCell) ⟨rfl, rfl⟩ hi (Nat.zero_le _) hslot
  | false =>
    rw [hc] at hslot
    exact .word (c := .getLocal) ⟨rfl, rfl⟩ hi (Nat.zero_le _) hslot

theorem write_flows {i : Nat} (hi : i ≤ Emit.maxWord) (hσ : σ.Inside R) (hb : σ i = some b) :
    Flows C E (word (if (K.program.binding b).captured then .setCell else .setLocal) i l)
      (σ.shape K.program (h + 1)) (σ.shape K.program h) := by
  have hslot := slot_of_has hC (h := h) hσ hb
  cases hc : (K.program.binding b).captured with
  | true =>
    rw [hc] at hslot
    exact .word (c := .setCell) ⟨rfl, rfl⟩ hi (Nat.le_add_left 1 h) hslot
  | false =>
    rw [hc] at hslot
    have hsame : (σ.shape K.program (h + 1)).after .setLocal [i] = σ.shape K.program h := by
      refine congrArg (Shape.mk h) (funext fun j => ?_)
      rw [Shape.stored, Shape.store]
      split
      · rename_i hj
        rw [hj]
        exact hslot.2.symm
      · rfl
    rw [← hsame]
    exact .word (c := .setLocal) ⟨rfl, rfl⟩ hi (Nat.le_add_left 1 h) hslot.1

theorem load_flows (hb : K.Addressed b) (hσ : σ.Inside R) (hhas : σ.Has K.program b) :
    Flows C E (K.load b l) (σ.shape K.program h) (σ.shape K.program (h + 1)) := by
  rw [load, loadOp]
  cases hs : (K.program.binding b).storage with
  | global => exact .word (c := .getGlobal) ⟨rfl, rfl⟩ hb (Nat.zero_le _) trivial
  | frame =>
    have hread := read_flows hC (E := E) (l := l) (h := h) hb hσ (hhas hs)
    cases hc : (K.program.binding b).captured <;> rwa [hc] at hread

theorem assign_flows (hb : K.Addressed b) (hσ : σ.Inside R) (hhas : σ.Has K.program b) :
    Flows C E (K.assign b l) (σ.shape K.program (h + 1)) (σ.shape K.program h) := by
  rw [assign, assignOp]
  cases hs : (K.program.binding b).storage with
  | global => exact .word (c := .setGlobal) ⟨rfl, rfl⟩ hb (Nat.le_add_left 1 h) trivial
  | frame =>
    have hwrite := write_flows hC (E := E) (l := l) (h := h) hb hσ (hhas hs)
    cases hc : (K.program.binding b).captured <;> rwa [hc] at hwrite

theorem loadSlot_flows {s : Slot} (hs : s.index ≤ Emit.maxWord) (hσ : σ.Inside R)
    (hreads : σ.Reads K.program R s) :
    Flows C E (word (K.loadSlotOp s) s.index l) (σ.shape K.program h)
      (σ.shape K.program (h + 1)) := by
  rw [loadSlotOp]
  rw [Slots.Reads] at hreads
  cases hp : s.place with
  | global => exact .word (c := .getGlobal) ⟨rfl, rfl⟩ hs (Nat.zero_le _) trivial
  | free =>
    rw [hp] at hreads
    refine .word (c := .getUpvalue) ⟨rfl, rfl⟩ hs (Nat.zero_le _) ?_
    rw [Limits.Asks, hC.free]
    exact (List.getElem?_eq_some_iff.mp hreads.2).1
  | frame =>
    rw [hp] at hreads
    exact read_flows hC hs hσ hreads

theorem storeSlot_flows {s : Slot} (hs : s.index ≤ Emit.maxWord) (hσ : σ.Inside R)
    (hreads : σ.Reads K.program R s) :
    Flows C E (word (K.storeSlotOp s) s.index l) (σ.shape K.program (h + 1))
      (σ.shape K.program h) := by
  rw [storeSlotOp]
  rw [Slots.Reads] at hreads
  cases hp : s.place with
  | global => exact .word (c := .setGlobal) ⟨rfl, rfl⟩ hs (Nat.le_add_left 1 h) trivial
  | free =>
    rw [hp] at hreads
    refine .word (c := .setUpvalue) ⟨rfl, rfl⟩ hs (Nat.le_add_left 1 h) ?_
    rw [Limits.Asks, hC.free]
    exact (List.getElem?_eq_some_iff.mp hreads.2).1
  | frame =>
    rw [hp] at hreads
    exact write_flows hC hs hσ hreads

theorem closure_flows {info : FunSlots} (hσ : σ.Inside R) (hlisted : ∃ f, K.program.funs[info.id]? = some f)
    (hfree : ∀ v ∈ info.free, σ.Captures K.program R v) (hc : K.Closure info l c) :
    Flows C E c (σ.shape K.program h) (σ.shape K.program (h + 1)) := by
  obtain ⟨f, hf⟩ := hlisted
  obtain ⟨r, hr⟩ := hC.refs info.id f hf
  rw [Closure, hf] at hc
  dsimp only at hc
  rw [hr] at hc
  obtain ⟨hcount, hindices, k, ⟨w, hw, hkey⟩, hk, rfl⟩ := hc
  obtain rfl := Value.eq_of_constKey_func hkey
  rw [Emit.maxByte] at hcount
  rw [Emit.maxWord] at hk
  refine .closure ⟨by omega, by rw [List.length_map]; omega, ?_⟩ ⟨r, hC.pool ▸ hw⟩ ?_
  · intro x hx
    obtain ⟨v, hv, rfl⟩ := List.mem_map.mp hx
    have := hindices v hv
    rw [Emit.maxWord] at this
    dsimp only
    omega
  · intro x hx
    obtain ⟨v, hv, rfl⟩ := List.mem_map.mp hx
    obtain ⟨-, hcaptured, hplace⟩ := hfree v hv
    rw [Limits.Finds]
    split at hplace
    · rename_i hframe
      rw [if_pos hframe, ← hcaptured]
      exact slot_of_has hC hσ hplace
    · rename_i hframe
      rw [if_neg hframe, hC.free]
      exact (List.getElem?_eq_some_iff.mp hplace).1

theorem nested_flows {d : FunDecl .typed} (hσ : σ.Inside R)
    (hlisted : ∃ f, K.program.funs[d.info.id]? = some f) (hnames : σ.Names K.program R d.info)
    (hc : K.Nested d.info l c) :
    Flows C E c (σ.shape K.program h) ((σ.afterStmt K.program (.func d)).shape K.program h) := by
  rw [Slots.Names] at hnames
  rw [Nested] at hc
  rw [Slots.afterStmt]
  cases hb : d.info.binding with
  | none =>
    rw [hb] at hc
    obtain rfl : c = [] := hc
    exact .nil (.refl _ _)
  | some b =>
    rw [hb] at hnames hc
    obtain ⟨hfresh, -, hfree⟩ := hnames
    dsimp only at hc ⊢
    cases hs : (K.program.binding b).storage with
    | global =>
      rw [hs] at hc
      obtain rfl : c = [] := by cases hcap : (K.program.binding b).captured <;> rwa [hcap] at hc
      rw [Slots.add_global hs]
      exact .nil (.refl _ _)
    | frame =>
      cases hcap : (K.program.binding b).captured with
      | true =>
        rw [hs, hcap] at hc
        obtain ⟨hindex, f, hf, rfl⟩ := hc
        -- the cell is there before the closure is made, so that it may capture its own name
        have hunit : Flows C E (Assembly.op .unit l) (σ.shape K.program h)
            (σ.shape K.program (h + 1)) := .plain ⟨rfl, rfl⟩ (Nat.zero_le _) trivial
        have hcell := declare_flows hC (E := E) (l := l) (h := h) hindex hfresh
        have hclosure := closure_flows hC (E := E) (h := h) (hσ.add hfresh) hlisted hfree hf
        have hset := assign_flows hC (E := E) (l := l) (h := h) hindex (hσ.add hfresh)
          Slots.has_add
        simp only [declare, declareOp, hs, hcap] at hcell
        simp only [assign, assignOp, hs, hcap] at hset
        exact ((hunit.append hcell).append hclosure).append hset
      | false =>
        rw [hs, hcap] at hc
        obtain ⟨hindex, f, hf, rfl⟩ := hc
        have hclosure := closure_flows hC (E := E) (h := h) hσ hlisted
          (fun v hv => (hfree v hv).of_add hcap) hf
        have hset := declare_flows hC (E := E) (l := l) (h := h) hindex hfresh
        simp only [declare, declareOp, hs, hcap] at hset
        exact hclosure.append hset

theorem build_flows {t : Template} (hc : K.Build t l c) :
    Flows C E c (σ.shape K.program (h + t.fields.length)) (σ.shape K.program (h + 1)) := by
  obtain ⟨hcount, k, v, ht, ⟨w, hw, hkey⟩, hk, rfl⟩ := hc
  obtain ⟨i, d, rfl⟩ := hC.templates t v ht
  obtain ⟨d', rfl⟩ := Value.eq_of_constKey_ctor hkey
  rw [Emit.maxByte] at hcount
  rw [Emit.maxWord] at hk
  have hop : Flows C E [⟨l, .op .new [k, t.fields.length]⟩]
      (σ.shape K.program (h + t.fields.length)) _ :=
    .op ⟨rfl, .cons (by omega) (.cons (by omega) .nil)⟩ (Nat.le_add_left _ h) ⟨i, d', hC.pool ▸ hw⟩
  have hafter : (σ.shape K.program (h + t.fields.length)).after .new [k, t.fields.length]
      = σ.shape K.program (h + 1) := by
    refine congrArg (Shape.mk · _) ?_
    show h + t.fields.length - t.fields.length + 1 = h + 1
    omega
  rwa [hafter] at hop

omit hC in
theorem makeArray_flows {n : Nat} (hn : n ≤ Emit.maxWord) :
    Flows C E (word .makeArray n l) (σ.shape K.program (h + n)) (σ.shape K.program (h + 1)) := by
  have hop : Flows C E (word .makeArray n l) (σ.shape K.program (h + n)) _ :=
    .word ⟨rfl, rfl⟩ hn (Nat.le_add_left n h) trivial
  have hafter : (σ.shape K.program (h + n)).after .makeArray [n] = σ.shape K.program (h + 1) := by
    refine congrArg (Shape.mk · _) ?_
    show h + n - n + 1 = h + 1
    omega
  rwa [hafter] at hop

omit hC in
theorem call_flows {n : Nat} (hn : n ≤ Emit.maxByte) :
    Flows C E (call n l) (σ.shape K.program (h + n + 1)) (σ.shape K.program (h + 1)) := by
  rw [Emit.maxByte] at hn
  have hpops : n + 1 ≤ h + n + 1 := by omega
  have hop : Flows C E (call n l) (σ.shape K.program (h + n + 1)) _ :=
    .op ⟨rfl, .cons (by omega) .nil⟩ hpops trivial
  have hafter : (σ.shape K.program (h + n + 1)).after .call [n] = σ.shape K.program (h + 1) := by
    refine congrArg (Shape.mk · _) ?_
    show h + n + 1 - (n + 1) + 1 = h + 1
    omega
  rwa [hafter] at hop

theorem eachTest_flows {slots : LoopSlots} (isRange : Bool) (hσ : σ.Inside R)
    (hi : K.Addressed slots.index) (hl : K.Addressed slots.limit)
    (hindex : σ.Has K.program slots.index) (hlimit : σ.Has K.program slots.limit) :
    Flows C E (K.eachTest slots isRange l) (σ.shape K.program h) (σ.shape K.program (h + 1)) := by
  have hindex := load_flows hC (E := E) (l := l) (h := h) hi hσ hindex
  have hlimit := load_flows hC (E := E) (l := l) (h := h + 1) hl hσ hlimit
  have hlen : Flows C E (if isRange then [] else Assembly.op .len l)
      (σ.shape K.program (h + 2)) (σ.shape K.program (h + 2)) := by
    split
    · exact .nil (.refl _ _)
    · exact .plain (c := .len) ⟨rfl, rfl⟩ (Nat.le_add_left 1 (h + 1)) trivial
  have hlt : Flows C E (Assembly.op .lt l) (σ.shape K.program (h + 2))
      (σ.shape K.program (h + 1)) := .plain ⟨rfl, rfl⟩ (Nat.le_add_left 2 h) trivial
  exact ((hindex.append hlimit).append hlen).append hlt

theorem eachHead_flows {slots : LoopSlots} (isRange : Bool) (hσ : σ.Inside R)
    (hi : K.Addressed slots.index) (hl : K.Addressed slots.limit) (hx : K.Addressed slots.item)
    (hindex : σ.Has K.program slots.index) (hlimit : σ.Has K.program slots.limit)
    (hitem : σ.Fresh K.program R slots.item) :
    Flows C E (K.eachHead slots isRange l) (σ.shape K.program h)
      ((σ.add K.program slots.item).shape K.program h) := by
  refine Flows.append (b := σ.shape K.program (h + 1)) ?_ (declare_flows hC hx hitem)
  split
  · exact load_flows hC hi hσ hindex
  · have hlimit := load_flows hC (E := E) (l := l) (h := h) hl hσ hlimit
    have hindex := load_flows hC (E := E) (l := l) (h := h + 1) hi hσ hindex
    exact (hlimit.append hindex).append
      (.plain (c := .getElem) ⟨rfl, rfl⟩ (Nat.le_add_left 2 h) trivial)

theorem eachStep_flows {slots : LoopSlots} {k : Nat} (hσ : σ.Inside R)
    (hi : K.Addressed slots.index) (hindex : σ.Has K.program slots.index)
    (hone : K.Holds k (.int 1)) (hk : k ≤ Emit.maxWord) :
    Flows C E (K.eachStep slots k l) (σ.shape K.program h) (σ.shape K.program h) := by
  have hload := load_flows hC (E := E) (l := l) (h := h) hi hσ hindex
  have hconst : Flows C E (word .const k l) (σ.shape K.program (h + 1))
      (σ.shape K.program (h + 2)) := const_flows hC ⟨k, hone, hk, rfl⟩
  have hadd : Flows C E (Assembly.op .add l) (σ.shape K.program (h + 2))
      (σ.shape K.program (h + 1)) := .plain ⟨rfl, rfl⟩ (Nat.le_add_left 2 h) trivial
  exact ((hload.append hconst).append hadd).append (assign_flows hC hi hσ hindex)

theorem eachLoop_flows {slots : LoopSlots} {isRange : Bool} {body : Assembly} (hσ : σ.Inside R)
    (hindex : σ.Has K.program slots.index) (hlimit : σ.Has K.program slots.limit)
    (hitem : σ.Fresh K.program R slots.item) (hc : K.EachLoop slots isRange body l c)
    (hbody : Flows C ((E.set .next (σ.shape K.program h)).set .leave (σ.shape K.program h)) body
      ((σ.add K.program slots.item).shape K.program h) (σ.shape K.program h)) :
    Flows C E c (σ.shape K.program h) (σ.shape K.program h) := by
  obtain ⟨hi, hl, hx, k, hone, hk, rfl⟩ := hc
  rw [Assembly.countLoop_eq]
  exact .loop (eachTest_flows hC isRange hσ hi hl hindex hlimit)
    (eachHead_flows hC isRange hσ hi hl hx hindex hlimit hitem) hbody
    (eachStep_flows hC hσ hi hindex hone hk) (.inl rfl)

end Lowering

end Scripting
