import Scripting.Machine.Step
import Scripting.Proofs.Machine.Host

/-!
# What pieces of instructions do

`Exec.Meets x v Q` says what a piece of an instruction does to the part of the machine that control
depends on: the open calls, the stack, the budget and the memory that code shares. It also says that
the piece does not find the code broken. There are two common cases: `Exec.Yields` knows the result, and
`Exec.Trades n k` exchanges the top `n` values of the stack for `k` others and leaves the rest alone.
-/

namespace Scripting

/-- The memory that code shares: functions, global slots, cells of captured variables and the number of
the next object. Few instructions change it. -/
structure Memory where
  funcs : Array Function
  globals : Array Value
  cells : Array Value
  nextId : Nat

namespace Memory

def ofCore (globals : Array Value) (c : Heap.Core) : Memory := ⟨c.funcs, globals, c.cells, c.nextId⟩

def storeGlobal (M : Memory) (i : Nat) (v : Value) : Memory :=
  { M with globals := Exec.storeGlobal M.globals i v }

def newCell (M : Memory) (v : Value) : Memory := { M with cells := M.cells.push v }

def setCell (M : Memory) (r : Ref) (v : Value) : Memory :=
  { M with cells := M.cells.setIfInBounds r v }

def newId (M : Memory) : Memory := { M with nextId := M.nextId + 1 }

/-- A memory that a run comes to: it has the same functions, and no number is given out again. -/
structure Later (M M' : Memory) : Prop where
  funcs : M'.funcs = M.funcs
  nextId : M.nextId ≤ M'.nextId

theorem Later.refl (M : Memory) : M.Later M := ⟨rfl, Nat.le_refl _⟩

theorem Later.trans {M M' M'' : Memory} (h : M.Later M') (k : M'.Later M'') : M.Later M'' :=
  ⟨k.funcs.trans h.funcs, Nat.le_trans h.nextId k.nextId⟩

end Memory

def Machine.memory (m : Machine) : Memory := .ofCore m.globals m.world.heap.core

/-- What the control of a machine depends on. -/
structure View where
  frames : List Frame
  stack : List Value
  budget : Nat
  memory : Memory

def Machine.view (m : Machine) : View := ⟨m.frames, m.stack, m.budget, m.memory⟩

namespace Exec

variable {α β : Type}

def Blameless (M : Memory) (e : Failure) (m : Machine) : Prop :=
  (∀ text, e ≠ .broken text) ∧ m.memory = M

/-- What `x` does to a machine that is seen as `v`; see the head of the module. -/
def Meets (x : Exec α) (v : View) (Q : α → View → Prop) : Prop :=
  ∀ m, m.view = v → match x.run m with
    | (.ok a, m') => Q a m'.view
    | (.error e, m') => Blameless v.memory e m'

/-- Whether `x` gives `a` and leads from `v` to `w`. -/
def Yields (x : Exec α) (v : View) (a : α) (w : View) : Prop :=
  ∀ m, m.view = v → ∃ m', x.run m = (.ok a, m') ∧ m'.view = w

variable {x : Exec α} {f : α → Exec β} {v : View} {Q : α → View → Prop} {R : β → View → Prop}
  {fs gs : List Frame} {st st' : List Value} {b b' : Nat} {M : Memory}

theorem bind_run (x : Exec α) (f : α → Exec β) (m : Machine) :
    (x >>= f).run m = match x.run m with
      | (.ok a, m') => (f a).run m'
      | (.error e, m') => (.error e, m') := by
  have hrun : (x >>= f).run m = ExceptT.bindCont f (x.run m).1 (x.run m).2 := rfl
  rw [hrun]
  generalize x.run m = r
  obtain ⟨a, m'⟩ := r
  cases a <;> rfl

theorem Meets.pure {a : α} (h : Q a v) : Meets (pure a) v Q := by
  rintro m rfl
  exact h

/-- A failure leaves the memory as it was, so it has to be known to stay the same behind each piece that
another one follows. -/
theorem Meets.bind (hx : Meets x v fun a w => w.memory = v.memory ∧ Q a w)
    (hf : ∀ a w, Q a w → Meets (f a) w R) : Meets (x >>= f) v R := by
  intro m hm
  have h := hx m hm
  rw [bind_run]
  generalize x.run m = r at h
  obtain ⟨a, m'⟩ := r
  cases a with
  | error e => exact h
  | ok a =>
    have hrest := hf a m'.view h.2 m' rfl
    dsimp only at hrest ⊢
    rw [h.1] at hrest
    exact hrest

theorem Meets.map {g : α → β} (hx : Meets x v fun a w => R (g a) w) :
    Meets (x >>= fun a => Pure.pure (g a)) v R := by
  intro m hm
  have h := hx m hm
  rw [bind_run]
  generalize x.run m = r at h
  obtain ⟨a, m'⟩ := r
  cases a with
  | error e => exact h
  | ok a => exact h

theorem Meets.mono {Q' : α → View → Prop} (hx : Meets x v Q) (h : ∀ a w, Q a w → Q' a w) :
    Meets x v Q' := by
  intro m hm
  have hrun := hx m hm
  generalize x.run m = r at hrun ⊢
  obtain ⟨a, m'⟩ := r
  cases a with
  | error e => exact hrun
  | ok a => exact h a _ hrun

theorem Meets.fail (msg : String) : Meets (fail msg) v Q := by
  rintro m rfl
  exact ⟨fun _ h => (nomatch h), rfl⟩

theorem Meets.fault (cause : HostFault) : Meets (fault cause) v Q := by
  rintro m rfl
  exact ⟨fun _ h => (nomatch h), rfl⟩

theorem Meets.ofGet {f : Machine → Exec β} (h : ∀ m, m.view = v → Meets (f m) v R) :
    Meets (get >>= f) v R := fun m hm => h m hm m hm

theorem Yields.pure (a : α) : Yields (pure a) v a v := fun m hm => ⟨m, rfl, hm⟩

theorem Yields.meets {a : α} {w : View} (hx : Yields x v a w) (h : Q a w) : Meets x v Q := by
  intro m hm
  obtain ⟨m', hrun, rfl⟩ := hx m hm
  rw [hrun]
  exact h

theorem Yields.andThen {a : α} {c : β} {w u : View} (hx : Yields x v a w) (hf : Yields (f a) w c u) :
    Yields (x >>= f) v c u := by
  intro m hm
  obtain ⟨m', hrun, hm'⟩ := hx m hm
  obtain ⟨m'', hrun', hm''⟩ := hf m' hm'
  exact ⟨m'', by rw [bind_run, hrun]; exact hrun', hm''⟩

theorem Yields.ofGet {f : Machine → Exec β} {c : β} {w : View}
    (h : ∀ m, m.view = v → Yields (f m) v c w) : Yields (get >>= f) v c w := fun m hm => h m hm m hm

theorem Yields.bind {a : α} (hx : Yields x ⟨fs, st, b, M⟩ a ⟨gs, st', b', M⟩)
    (hf : Meets (f a) ⟨gs, st', b', M⟩ R) : Meets (x >>= f) ⟨fs, st, b, M⟩ R := by
  have hx' : Meets x ⟨fs, st, b, M⟩ fun a' w => w.memory = M ∧ (a' = a ∧ w = ⟨gs, st', b', M⟩) :=
    hx.meets ⟨rfl, rfl, rfl⟩
  refine hx'.bind ?_
  rintro _ _ ⟨rfl, rfl⟩
  exact hf

/-- Whether a computation exchanges the top `n` values of the stack for `k` others, and leaves the
rest of the stack, the open calls, the budget and the memory alone. -/
def Trades (n k : Nat) (x : Exec α) : Prop :=
  ∀ fs top rest b M, top.length = n → Meets x ⟨fs, top ++ rest, b, M⟩ fun _ v =>
    ∃ top', top'.length = k ∧ v = ⟨fs, top' ++ rest, b, M⟩

variable {n k l : Nat}

theorem Trades.andThen (hx : Trades n k x) {top rest : List Value} (hn : top.length = n)
    (hf : ∀ a top', top'.length = k → Meets (f a) ⟨fs, top' ++ rest, b, M⟩ R) :
    Meets (x >>= f) ⟨fs, top ++ rest, b, M⟩ R := by
  have hx' : Meets x ⟨fs, top ++ rest, b, M⟩ fun _ w =>
      w.memory = M ∧ ∃ top', top'.length = k ∧ w = ⟨fs, top' ++ rest, b, M⟩ := by
    refine (hx fs top rest b M hn).mono ?_
    rintro _ _ ⟨top', hk, rfl⟩
    exact ⟨rfl, top', hk, rfl⟩
  refine hx'.bind ?_
  rintro a _ ⟨top', hk, rfl⟩
  exact hf a top' hk

theorem Trades.before (hx : Trades n k x) (hn : n ≤ st.length)
    (hf : ∀ a top, top.length = k → Meets (f a) ⟨fs, top ++ st.drop n, b, M⟩ R) :
    Meets (x >>= f) ⟨fs, st, b, M⟩ R := by
  have h : Meets (x >>= f) ⟨fs, st.take n ++ st.drop n, b, M⟩ R :=
    hx.andThen (List.length_take_of_le hn) hf
  rwa [List.take_append_drop] at h

theorem Trades.meets (hx : Trades n k x) (hn : n ≤ st.length) :
    Meets x ⟨fs, st, b, M⟩ fun _ v => ∃ top, top.length = k ∧ v = ⟨fs, top ++ st.drop n, b, M⟩ := by
  have h := hx fs (st.take n) (st.drop n) b M (List.length_take_of_le hn)
  rwa [List.take_append_drop] at h

theorem Trades.pure (a : α) : Trades n n (pure a) := fun _ top _ _ _ h => .pure ⟨top, h, rfl⟩

theorem Trades.bind (hx : Trades n k x) (hf : ∀ a, Trades k l (f a)) : Trades n l (x >>= f) :=
  fun _ _ _ _ _ hn => hx.andThen hn fun a top' hk => hf a _ top' _ _ _ hk

theorem Trades.fail (msg : String) : Trades n k (fail msg : Exec α) := fun _ _ _ _ _ _ => .fail msg

theorem Trades.fault (cause : HostFault) : Trades n k (fault cause : Exec α) :=
  fun _ _ _ _ _ _ => .fault cause

theorem pop_trades (n : Nat) : Trades (n + 1) n pop := by
  rintro fs top rest b M hn ⟨w, gs, st, gs', b'⟩ hm
  obtain ⟨rfl, rfl, rfl, rfl⟩ := View.mk.inj hm
  cases top with
  | nil => cases hn
  | cons a top => exact ⟨top, Nat.succ.inj hn, rfl⟩

theorem push_trades (n : Nat) (a : Value) : Trades n (n + 1) (push a) := by
  rintro fs top rest b M hn m hm
  obtain ⟨rfl, hst, rfl, rfl⟩ := View.mk.inj hm
  refine ⟨a :: top, congrArg Nat.succ hn, ?_⟩
  rw [List.cons_append, ← hst]
  rfl

theorem top_trades (n : Nat) : Trades (n + 1) (n + 1) top := by
  rintro fs top rest b M hn ⟨w, gs, st, gs', b'⟩ hm
  obtain ⟨rfl, rfl, rfl, rfl⟩ := View.mk.inj hm
  cases top with
  | nil => cases hn
  | cons a top => exact ⟨a :: top, hn, rfl⟩

theorem takeFrom_append (top : List Value) : ∀ taken rest,
    takeFrom top.length taken (top ++ rest) = some (top.reverse ++ taken, rest) := by
  induction top with
  | nil => exact fun _ _ => rfl
  | cons a top ih =>
    intro taken rest
    rw [List.length_cons, List.cons_append, takeFrom, ih, List.reverse_cons, List.append_assoc]
    rfl

theorem popMany_yields (top rest : List Value) :
    Yields (popMany top.length) ⟨fs, top ++ rest, b, M⟩ top.reverse ⟨fs, rest, b, M⟩ := by
  refine .ofGet fun m hm => ?_
  obtain ⟨-, hst, -, -⟩ := View.mk.inj hm
  rw [hst, takeFrom_append, List.append_nil]
  intro m' hm'
  obtain ⟨rfl, -, rfl, rfl⟩ := View.mk.inj hm'
  exact ⟨_, rfl, rfl⟩

theorem popMany_trades (n : Nat) : Trades n 0 (popMany n) := by
  rintro fs top rest b M rfl
  exact (popMany_yields top rest).meets ⟨[], rfl, rfl⟩

theorem look_trades (n : Nat) (f : Heap → α) : Trades n n (look f) := by
  rintro fs top rest b M hn m hm
  exact ⟨top, hn, hm⟩

theorem onHeap_trades (n : Nat) {f : Heap → α × Heap} (hf : ∀ h, (f h).2.core = h.core) :
    Trades n n (onHeap f) := by
  rintro fs top rest b M hn ⟨⟨h, o⟩, gs, st, gs', b'⟩ hm
  obtain ⟨rfl, rfl, rfl, rfl⟩ := View.mk.inj hm
  exact ⟨top, hn, congrArg (fun c => View.mk _ _ _ (Memory.ofCore gs c)) (hf h)⟩

theorem setCell_yields (r : Ref) (a : Value) :
    Yields (setCell r a) ⟨fs, st, b, M⟩ () ⟨fs, st, b, M.setCell r a⟩ := by
  rintro ⟨⟨h, o⟩, gs, st', gs', b'⟩ hm
  obtain ⟨rfl, rfl, rfl, rfl⟩ := View.mk.inj hm
  exact ⟨_, rfl, rfl⟩

theorem newCell_yields (a : Value) :
    Yields (onHeap fun h => h.newCell a) ⟨fs, st, b, M⟩ M.cells.size ⟨fs, st, b, M.newCell a⟩ := by
  rintro ⟨⟨h, o⟩, gs, st', gs', b'⟩ hm
  obtain ⟨rfl, rfl, rfl, rfl⟩ := View.mk.inj hm
  exact ⟨_, rfl, rfl⟩

theorem newId_yields :
    Yields (onHeap Heap.newId) ⟨fs, st, b, M⟩ M.nextId ⟨fs, st, b, M.newId⟩ := by
  rintro ⟨⟨h, o⟩, gs, st', gs', b'⟩ hm
  obtain ⟨rfl, rfl, rfl, rfl⟩ := View.mk.inj hm
  exact ⟨_, rfl, rfl⟩

theorem typeText_trades (n : Nat) (a : Value) : Trades n n (typeText a) := by
  refine .bind (look_trades n _) fun t => ?_
  cases t with
  | none => exact .fault _
  | some t => exact .pure _

theorem orFault_trades (n : Nat) (x : Except HostFault α) : Trades n n (orFault x) := by
  cases x with
  | ok a => exact .pure a
  | error cause => exact .fault cause

theorem textOf_trades (n : Nat) (a : Value) : Trades n n (textOf a) :=
  .bind (look_trades n _) fun _ => orFault_trades n _

theorem presentText_trades (n : Nat) (a : Value) : Trades n n (presentText a) := by
  cases a with
  | absent => exact .fault _
  | _ => exact textOf_trades n _

theorem itemAt_trades (n : Nat) (items : Array α) (i : Nat) : Trades n n (itemAt items i) := by
  rw [itemAt]
  split
  · exact .pure _
  · exact .fault _

theorem typesFail_trades (left right : Value) (msg : String → String → String) :
    Trades 0 k (do fail (msg (← typeText left) (← typeText right)) : Exec α) :=
  .bind (typeText_trades 0 left) fun _ => .bind (typeText_trades 0 right) fun _ => .fail _

theorem typeFail_trades (a : Value) (msg : String → String) :
    Trades 0 k (do fail (msg (← typeText a)) : Exec α) :=
  .bind (typeText_trades 0 a) fun _ => .fail _

theorem intArith_trades (op : Opcode) (a c : Int64) : Trades 0 0 (intArith op a c) := by
  rw [intArith.eq_def]
  split
  · exact .pure _
  · exact .pure _
  · exact .pure _
  · split
    · exact .fail _
    · exact .pure _
  · split
    · exact .fail _
    · exact .pure _
  · exact .pure _

theorem arith_trades (op : Opcode) : Trades 2 1 (arith op) := by
  refine .bind (pop_trades 1) fun right => .bind (pop_trades 0) fun left => ?_
  split
  · exact .bind (textOf_trades 0 left) fun _ => .bind (textOf_trades 0 right) fun _ => push_trades 0 _
  · split
    · exact .bind (intArith_trades op _ _) fun _ => push_trades 0 _
    · split
      · exact push_trades 0 _
      · exact typesFail_trades _ _ _

theorem comparison_trades (op : Opcode) : Trades 2 1 (comparison op) := by
  refine .bind (pop_trades 1) fun right => .bind (pop_trades 0) fun left => ?_
  split
  · exact .bind (look_trades 0 _) fun _ => .bind (orFault_trades 0 _) fun _ => push_trades 0 _
  · exact .bind (look_trades 0 _) fun _ => .bind (orFault_trades 0 _) fun _ => push_trades 0 _
  · split
    · exact push_trades 0 _
    · exact typesFail_trades _ _ _

theorem bitOr_trades : Trades 2 1 bitOr := by
  refine .bind (pop_trades 1) fun right => .bind (pop_trades 0) fun left => ?_
  split
  · exact push_trades 0 _
  · exact push_trades 0 _
  · exact typesFail_trades _ _ _

theorem negate_trades : Trades 1 1 negate := by
  refine .bind (pop_trades 0) fun a => ?_
  split
  · exact push_trades 0 _
  · exact push_trades 0 _
  · exact typeFail_trades _ _

theorem fieldOf_trades (a : Value) (name : String) : Trades 0 0 (fieldOf a name) := by
  rw [fieldOf.eq_def]
  split
  · refine .bind (look_trades 0 _) fun t => ?_
    split
    · exact .pure _
    · exact .bind (presentText_trades 0 _) fun _ => .fail _
  · exact typeFail_trades _ _

theorem getField_trades (name : String) : Trades 1 1 (getField name) := by
  refine .bind (pop_trades 0) fun a => .bind (fieldOf_trades a name) fun _ => ?_
  exact .bind (look_trades 0 _) fun _ => .bind (itemAt_trades 0 _ _) fun _ => push_trades 0 _

theorem setField_trades (name : String) : Trades 2 1 (setField name) := by
  refine .bind (pop_trades 1) fun a => .bind (pop_trades 0) fun target =>
    .bind (fieldOf_trades target name) fun _ => .bind (look_trades 0 _) fun size => ?_
  split
  · exact .bind (onHeap_trades 0 fun _ => rfl) fun _ => push_trades 0 _
  · exact .fault _

theorem pushItem_trades (checked : Bool) (item : Option Value) (msg : String) : Trades 0 1 (do
    match item with
    | some a => if checked then push (← onHeap fun h => h.newInst (.some_ a)) else push a
    | none => if checked then push Value.none_ else fail msg : Exec Unit) := by
  cases item with
  | some a =>
    cases checked with
    | true => exact .bind (onHeap_trades 0 fun _ => rfl) fun _ => push_trades 0 _
    | false => exact push_trades 0 _
  | none =>
    cases checked with
    | true => exact push_trades 0 _
    | false => exact .fail _

theorem element_trades (checked : Bool) : Trades 2 1 (element checked) := by
  refine .bind (pop_trades 1) fun index => .bind (pop_trades 0) fun target => ?_
  split
  · split
    · exact .bind (look_trades 0 _) fun _ => pushItem_trades checked _ _
    · exact typeFail_trades _ _
  · exact typeFail_trades _ _

theorem length_trades : Trades 1 1 length := by
  refine .bind (pop_trades 0) fun a => ?_
  split
  · exact .bind (look_trades 0 _) fun _ => push_trades 0 _
  · exact push_trades 0 _
  · exact typeFail_trades _ _

theorem construct_trades (c : Ctor) (n : Nat) : Trades n 1 (construct c n) := by
  refine .bind (popMany_trades n) fun vs => ?_
  split
  · exact .bind (onHeap_trades 0 fun _ => rfl) fun _ => push_trades 0 _
  · exact .fail _

theorem makeArray_trades (n : Nat) : Trades n 1 (do
    let vs ← popMany n
    push (← onHeap fun h => h.newArray ⟨.unknown, vs.toArray⟩)) :=
  .bind (popMany_trades n) fun _ => .bind (onHeap_trades 0 fun _ => rfl) fun _ => push_trades 0 _

theorem checkType_trades (tag : String) : Trades 1 1 (do
    let a ← pop
    match ← look fun h => h.matchesTag? a tag with
    | some c => push (.bool c)
    | none => fault .missing) := by
  refine .bind (pop_trades 0) fun a => .bind (look_trades 0 _) fun t => ?_
  split
  · exact push_trades 0 _
  · exact .fault _

theorem setGlobal_yields (i : Nat) (a : Value) : Yields (modify fun m => match m with
    | ⟨w, gs, st, fs, b⟩ => ⟨w, storeGlobal gs i a, st, fs, b⟩ : Exec Unit)
      ⟨fs, st, b, M⟩ () ⟨fs, st, b, M.storeGlobal i a⟩ := by
  rintro m hm
  obtain ⟨rfl, rfl, rfl, rfl⟩ := View.mk.inj hm
  exact ⟨_, rfl, rfl⟩

theorem getGlobal_trades (i : Nat) : Trades 0 1 (do
    match (← get).global? i with
    | some a => push a
    | none => fail ("global slot " ++ toString i ++ " read before it was set") : Exec Unit) := by
  intro fs top rest b M hn
  refine .ofGet fun m _ => ?_
  split
  · exact push_trades 0 _ _ _ _ _ _ hn
  · exact .fail _

theorem callHost_trades (n : Nat) (p : Prim) (args : List Value) : Trades n n (callHost p args) := by
  rintro fs top rest b M hn ⟨w, gs, st, gs', b'⟩ hm
  obtain ⟨rfl, rfl, rfl, rfl⟩ := View.mk.inj hm
  exact ⟨top, hn, congrArg (fun c => View.mk _ _ _ (Memory.ofCore gs c.1)) (p.run_leaves args w)⟩

end Exec

end Scripting
