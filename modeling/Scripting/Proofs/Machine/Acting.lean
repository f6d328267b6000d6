import Mathlib.Order.Defs.Unbundled
import Scripting.Proofs.Machine.Fetch

/-!
# Operands and actions

An instruction reads its operands from the code and then acts on them. `Exec.act` is what it does with
given operands, and the equations behind it split `Exec.operate` into the two. What an action may change is
said first: a piece is `Steady` if it stays where it is and changes neither functions nor the sizes of
instances.
-/

namespace Scripting

/-- Whether a heap comes from another one with the same functions, in which instances have as many
fields as they had. -/
structure Heap.Stays (h h' : Heap) : Prop where
  funcs : h'.funcs = h.funcs
  insts : ∀ (r : Ref) i, h.insts[r]? = some i → ∃ j, h'.insts[r]? = some j ∧ j.fields.size = i.fields.size

namespace Heap.Stays

variable {h h' h'' : Heap}

theorem of_eq (hf : h'.funcs = h.funcs) (hi : h'.insts = h.insts) : h.Stays h' :=
  ⟨hf, fun _ i hr => ⟨i, hi ▸ hr, rfl⟩⟩

theorem refl (h : Heap) : h.Stays h := .of_eq rfl rfl

theorem trans (a : h.Stays h') (b : h'.Stays h'') : h.Stays h'' := by
  refine ⟨b.funcs.trans a.funcs, fun r i hr => ?_⟩
  obtain ⟨j, hj, hij⟩ := a.insts r i hr
  obtain ⟨k, hk, hjk⟩ := b.insts r j hj
  exact ⟨k, hk, hjk.trans hij⟩

theorem newInst (h : Heap) (i : Instance) : h.Stays (h.newInst i).2 := by
  refine ⟨rfl, fun r j hr => ⟨j, ?_, rfl⟩⟩
  have hlt : r < h.insts.size := (Array.getElem?_eq_some_iff.mp hr).1
  rwa [Heap.newInst, Array.getElem?_push_lt hlt, ← Array.getElem?_eq_getElem hlt]

theorem setField (h : Heap) (r : Ref) (k : Nat) (v : Value) : h.Stays { h with
    insts := h.insts.modify r fun i => { i with fields := i.fields.setIfInBounds k v } } := by
  refine ⟨rfl, fun q j hq => ?_⟩
  rw [Array.getElem?_modify, hq]
  split
  · exact ⟨_, rfl, Array.size_setIfInBounds⟩
  · exact ⟨j, rfl, rfl⟩

end Heap.Stays

namespace Machine

/-- Whether a machine comes from another one by a piece of an instruction that stays where it is: no
open call changes but the slots of the running one, and the heap changes as far as it may. -/
structure Steady (m m' : Machine) : Prop where
  heap : m.world.heap.Stays m'.world.heap
  frames : ∀ f fs, m.frames = f :: fs → ∃ ls, m'.frames = { f with locals := ls } :: fs

instance : IsPreorder Machine Steady where
  refl m := ⟨.refl _, fun f _ hm => ⟨f.locals, hm⟩⟩
  trans _ _ _ h k := by
    refine ⟨h.heap.trans k.heap, fun f fs hm => ?_⟩
    obtain ⟨ls, hm'⟩ := h.frames f fs hm
    obtain ⟨ls', hm''⟩ := k.frames _ fs hm'
    exact ⟨ls', hm''⟩

theorem Steady.of_heap {m m' : Machine} (hheap : m.world.heap.Stays m'.world.heap)
    (hframes : m'.frames = m.frames) : m.Steady m' :=
  ⟨hheap, fun f _ hm => ⟨f.locals, hframes.trans hm⟩⟩

theorem Steady.of_eq {m m' : Machine} (hworld : m'.world = m.world) (hframes : m'.frames = m.frames) :
    m.Steady m' := .of_heap (hworld ▸ .refl _) hframes

end Machine

def Value.entered : Value → Bool
  | func _ | closure .. => true
  | _ => false

def Opcode.mayLeave : Opcode → Bool
  | jump | jumpIfFalse | loop | call | ret | unwrapOrReturn => true
  | _ => false

namespace Exec

variable {α β : Type}

/-- Whether `R` relates every machine to what a piece of an instruction makes of it. -/
def Keeps (R : Machine → Machine → Prop) (x : Exec α) : Prop := ∀ m, R m (x.run m).2

namespace Keeps

variable {R R' : Machine → Machine → Prop}

theorem mono {x : Exec α} (hx : Keeps R x) (h : ∀ m m', R m m' → R' m m') : Keeps R' x :=
  fun m => h _ _ (hx m)

variable [IsPreorder Machine R]

theorem pure (a : α) : Keeps R (Pure.pure a) := fun m => refl_of R m

theorem throw (e : Failure) : Keeps R (throw e : Exec α) := fun m => refl_of R m

theorem bind {x : Exec α} {f : α → Exec β} (hx : Keeps R x) (hf : ∀ a, Keeps R (f a)) :
    Keeps R (x >>= f) := by
  intro m
  have h := hx m
  rw [bind_run]
  generalize x.run m = y at h
  obtain ⟨r, m'⟩ := y
  cases r with
  | error e => exact h
  | ok a => exact trans_of R h (hf a m')

theorem get : Keeps R (get : Exec Machine) := fun m => refl_of R m

omit [IsPreorder Machine R] in
theorem modifyGet {f : Machine → α × Machine} (hf : ∀ m, R m (f m).2) :
    Keeps R (modifyGet f : Exec α) := hf

omit [IsPreorder Machine R] in
theorem modify {f : Machine → Machine} (hf : ∀ m, R m (f m)) : Keeps R (modify f : Exec Unit) := hf

theorem fail (msg : String) : Keeps R (fail msg : Exec α) := throw _

theorem fault (cause : HostFault) : Keeps R (fault cause : Exec α) := throw _

theorem broken (msg : String) : Keeps R (broken msg : Exec α) := throw _

theorem mapM {β : Type} {f : β → Exec α} (hf : ∀ b, Keeps R (f b)) (bs : List β) : Keeps R (bs.mapM f) := by
  induction bs with
  | nil => exact pure _
  | cons b bs ih =>
    rw [List.mapM_cons]
    exact .bind (hf b) fun _ => .bind ih fun _ => pure _

theorem look (f : Heap → α) : Keeps R (look f) := get.bind fun _ => pure _

theorem itemAt (items : Array α) (i : Nat) : Keeps R (itemAt items i) := by
  rw [Exec.itemAt]
  split
  · exact pure _
  · exact fault _

theorem operandAt (items : Array α) (i : Nat) : Keeps R (operandAt items i) := by
  rw [Exec.operandAt]
  split
  · exact pure _
  · exact broken _

theorem top : Keeps R top := by
  refine .bind .get fun m => ?_
  split
  · exact pure _
  · exact broken _

theorem frame : Keeps R frame := by
  refine .bind .get fun m => ?_
  split
  · exact pure _
  · exact fault _

theorem getLocal (i : Nat) : Keeps R (getLocal i) := .bind frame fun _ => operandAt _ _

theorem localCell (i : Nat) : Keeps R (localCell i) := by
  refine .bind (getLocal i) fun v => ?_
  split
  · exact pure _
  · exact broken _

theorem freeCell (i : Nat) : Keeps R (freeCell i) := .bind frame fun _ => operandAt _ _

theorem orFault (x : Except HostFault α) : Keeps R (orFault x) := by
  cases x with
  | ok a => exact pure a
  | error cause => exact fault cause

theorem typeText (v : Value) : Keeps R (typeText v) := by
  refine .bind (look _) fun t => ?_
  split
  · exact pure _
  · exact fault _

theorem textOf (v : Value) : Keeps R (textOf v) := .bind (look _) fun _ => orFault _

theorem presentText (v : Value) : Keeps R (presentText v) := by
  rw [presentText.eq_def]
  split
  · exact fault _
  · exact textOf _

theorem intArith (op : Opcode) (a b : Int64) : Keeps R (intArith op a b) := by
  rw [intArith.eq_def]
  split
  case h_4 | h_5 =>
    split
    · exact fail _
    · exact pure _
  all_goals exact pure _

theorem fieldOf (v : Value) (name : String) : Keeps R (fieldOf v name) := by
  rw [fieldOf.eq_def]
  split
  · refine .bind (look _) fun k => ?_
    split
    · exact pure _
    · exact .bind (presentText _) fun _ => fail _
  · exact .bind (typeText _) fun _ => fail _

theorem functionAt (r : Ref) : Keeps R (functionAt r) := by
  refine .bind (look _) fun f => ?_
  split
  · exact pure _
  · exact fault _

end Keeps

open Keeps

abbrev Steady (x : Exec α) : Prop := Keeps Machine.Steady x

theorem onHeap_steady {f : Heap → α × Heap} (hf : ∀ h : Heap, h.Stays (f h).2) : Steady (onHeap f) :=
  fun m => .of_heap (hf m.world.heap) rfl

theorem push_steady (v : Value) : Steady (push v) := .modify fun _ => .of_eq rfl rfl

theorem pop_steady : Steady pop := by
  refine .bind (.modifyGet fun m => ?_) fun o => ?_
  · split <;> exact .of_eq rfl rfl
  · cases o with
    | some v => exact .pure v
    | none => exact .broken _

theorem popMany_steady (n : Nat) : Steady (popMany n) := by
  refine .bind .get fun m => ?_
  split
  · exact .bind (.modify fun _ => .of_eq rfl rfl) fun _ => .pure _
  · exact .broken _

theorem setLocal_steady (i : Nat) (v : Value) : Steady (setLocal i v) := by
  refine .bind .frame fun f => ?_
  dsimp only
  split
  · rintro ⟨w, gs, st, _ | ⟨g, fs⟩, b⟩
    · exact refl_of Machine.Steady _
    · refine ⟨.refl _, fun f' fs' hm => ?_⟩
      obtain ⟨rfl, rfl⟩ := List.cons.inj hm
      exact ⟨_, rfl⟩
  · exact .broken _

theorem setCell_steady (r : Ref) (v : Value) : Steady (setCell r v) := onHeap_steady fun _ => .of_eq rfl rfl

theorem arith_steady (op : Opcode) : Steady (arith op) := by
  refine .bind pop_steady fun right => .bind pop_steady fun left => ?_
  split
  · exact .bind (.textOf _) fun _ => .bind (.textOf _) fun _ => push_steady _
  · split
    · exact .bind (.intArith op _ _) fun _ => push_steady _
    · split
      · exact push_steady _
      · exact .bind (.typeText _) fun _ => .bind (.typeText _) fun _ => .fail _

theorem comparison_steady (op : Opcode) : Steady (comparison op) := by
  refine .bind pop_steady fun right => .bind pop_steady fun left => ?_
  split
  · exact .bind (.look _) fun _ => .bind (.orFault _) fun _ => push_steady _
  · exact .bind (.look _) fun _ => .bind (.orFault _) fun _ => push_steady _
  · split
    · exact push_steady _
    · exact .bind (.typeText _) fun _ => .bind (.typeText _) fun _ => .fail _

theorem bitOr_steady : Steady bitOr := by
  refine .bind pop_steady fun right => .bind pop_steady fun left => ?_
  split
  · exact push_steady _
  · exact push_steady _
  · exact .bind (.typeText _) fun _ => .bind (.typeText _) fun _ => .fail _

theorem negate_steady : Steady negate := by
  refine .bind pop_steady fun v => ?_
  split
  · exact push_steady _
  · exact push_steady _
  · exact .bind (.typeText _) fun _ => .fail _

theorem getField_steady (name : String) : Steady (getField name) :=
  .bind pop_steady fun _ => .bind (.fieldOf _ _) fun _ => .bind (.look _) fun _ =>
    .bind (.itemAt _ _) fun _ => push_steady _

theorem setField_steady (name : String) : Steady (setField name) := by
  refine .bind pop_steady fun v => .bind pop_steady fun t => .bind (.fieldOf _ _) fun x =>
    .bind (.look _) fun size => ?_
  split
  · exact .bind (onHeap_steady fun h => .setField h _ _ _) fun _ => push_steady _
  · exact .fault _

theorem element_steady (checked : Bool) : Steady (element checked) := by
  refine .bind pop_steady fun index => .bind pop_steady fun target => ?_
  split
  · split
    · refine .bind (.look _) fun items => ?_
      dsimp only
      split
      · split
        · exact .bind (onHeap_steady fun h => .newInst h _) fun _ => push_steady _
        · exact push_steady _
      · split
        · exact push_steady _
        · exact .fail _
    · exact .bind (.typeText _) fun _ => .fail _
  · exact .bind (.typeText _) fun _ => .fail _

theorem length_steady : Steady length := by
  refine .bind pop_steady fun v => ?_
  split
  · exact .bind (.look _) fun _ => push_steady _
  · exact push_steady _
  · exact .bind (.typeText _) fun _ => .fail _

theorem construct_steady (c : Ctor) (n : Nat) : Steady (construct c n) := by
  refine .bind (popMany_steady n) fun vs => ?_
  split
  · exact .bind (onHeap_steady fun h => .newInst h _) fun _ => push_steady _
  · exact .fail _

theorem callHost_steady (p : Prim) (args : List Value) : Steady (callHost p args) := fun m =>
  have hguarded := p.run_leaves args m.world
  .of_heap (.of_eq (congrArg (fun x => x.1.funcs) hguarded) (congrArg Prod.snd hguarded)) rfl

def callValue (argc : Nat) (callee : Value) : Exec Unit := do
  if (takeFrom argc [] (← get).stack).isNone then underflow
  else match callee with
    | .func r => callFunction (← functionAt r) [] argc
    | .closure _ r free => callFunction (← functionAt r) free argc
    | .builtin _ b =>
      match b.impl with
      | none => fail (b.name ++ " has no implementation")
      | some p =>
        match ← callHost p (← popMany argc) with
        | .ok .absent => push .unit
        | .ok v => push v
        | .error (.message msg) => fail (b.name ++ ": " ++ msg)
        | .error (.fault cause) => fault cause
    | .ctor _ c => construct c argc
    | v => fail ((← presentText v) ++ " is not callable")

theorem callValue_steady {v : Value} (hv : v.entered = false) (argc : Nat) : Steady (callValue argc v) := by
  refine .bind .get fun m => ?_
  split
  · exact .broken _
  · split
    · cases hv
    · cases hv
    · split
      · exact .fail _
      · refine .bind (popMany_steady _) fun _ => .bind (callHost_steady _ _) fun r => ?_
        split
        · exact push_steady _
        · exact push_steady _
        · exact .fail _
        · exact .fault _
    · exact construct_steady _ _
    · exact .bind (.presentText _) fun _ => .fail _

def constantAt (i : Nat) : Exec Value := do operandAt (← frame).chunk.constants i

def nameAt (i : Nat) : Exec String := do
  match ← constantAt i with
  | .str s => return s
  | _ => broken "name operand is not a string constant"

def cellOf (c : Capture) : Exec Ref := if c.isLocal then localCell c.index else freeCell c.index

/-- What an instruction that stays in the running call or enters another one does with its operands. -/
def act (op : Opcode) (operands : List Nat) (captures : List Capture) : Exec Unit := do
  let i := operands.headD 0
  match op with
  | .const => push (← constantAt i)
  | .getLocal => push (← getLocal i)
  | .setLocal => setLocal i (← pop)
  | .getGlobal =>
    match (← get).global? i with
    | some v => push v
    | none => fail ("global slot " ++ toString i ++ " read before it was set")
  | .setGlobal =>
    let v ← pop
    modify fun m => match m with
      | ⟨w, gs, st, fs, b⟩ => ⟨w, storeGlobal gs i v, st, fs, b⟩
  | .makeCell =>
    let v ← pop
    let r ← onHeap fun h => h.newCell v
    setLocal i (.cell r)
  | .getCell => push (← getCell (← localCell i))
  | .setCell =>
    let r ← localCell i
    setCell r (← pop)
  | .getUpvalue => push (← getCell (← freeCell i))
  | .setUpvalue =>
    let v ← pop
    setCell (← freeCell i) v
  | .closure =>
    match ← constantAt i with
    | .func r =>
      let cells ← captures.mapM cellOf
      let id ← onHeap Heap.newId
      push (.closure id r cells)
    | _ => broken "CLOSURE operand is not a function"
  | .jump => jumpTo i
  | .jumpIfFalse => if !(← pop).truthy then jumpTo i
  | .loop =>
    jumpTo i
    match ← modifyGet fun m => match m.budget with
      | 0 => (false, m)
      | n + 1 => (true, { m with budget := n }) with
    | true => return
    | false => fail "context canceled"
  | .call => call i
  | .getField => getField (← nameAt i)
  | .setField => setField (← nameAt i)
  | .new =>
    match ← constantAt i with
    | .ctor _ c => construct c (operands.getD 1 0)
    | _ => broken "NEW operand is not a record type"
  | .makeArray =>
    let vs ← popMany i
    push (← onHeap fun h => h.newArray ⟨.unknown, vs.toArray⟩)
  | .checkType =>
    let tag ← nameAt i
    let v ← pop
    match ← look fun h => h.matchesTag? v tag with
    | some b => push (.bool b)
    | none => fault .missing
  | op => operate op

theorem cellOf_keeps {R : Machine → Machine → Prop} [IsPreorder Machine R] (c : Capture) :
    Keeps R (cellOf c) := by
  rw [cellOf]
  split
  · exact .localCell _
  · exact .freeCell _

theorem constantAt_keeps {R : Machine → Machine → Prop} [IsPreorder Machine R] (i : Nat) :
    Keeps R (constantAt i) := .bind .frame fun _ => .operandAt _ _

theorem nameAt_keeps {R : Machine → Machine → Prop} [IsPreorder Machine R] (i : Nat) :
    Keeps R (nameAt i) := by
  refine .bind (constantAt_keeps i) fun v => ?_
  split
  · exact .pure _
  · exact .broken _

theorem act_steady {op : Opcode} (hop : op.mayLeave = false) (ns : List Nat) (cs : List Capture) :
    Steady (act op ns cs) := by
  cases op with
  | const => exact .bind (constantAt_keeps _) fun _ => push_steady _
  | pop => exact .bind pop_steady fun _ => .pure _
  | popBelow => exact .bind pop_steady fun _ => .bind pop_steady fun _ => push_steady _
  | dup => exact .bind .top fun _ => push_steady _
  | unit => exact push_steady _
  | add | sub | mul | div | mod => exact arith_steady _
  | eq => exact comparison_steady .eq
  | ne => exact comparison_steady .ne
  | lt => exact comparison_steady .lt
  | le => exact comparison_steady .le
  | gt => exact comparison_steady .gt
  | ge => exact comparison_steady .ge
  | bitOr => exact bitOr_steady
  | neg => exact negate_steady
  | not => exact .bind pop_steady fun _ => push_steady _
  | getLocal => exact .bind (.getLocal _) fun _ => push_steady _
  | setLocal => exact .bind pop_steady fun _ => setLocal_steady _ _
  | getGlobal =>
    refine .bind .get fun m => ?_
    split
    · exact push_steady _
    · exact .fail _
  | setGlobal => exact .bind pop_steady fun _ => .modify fun _ => .of_eq rfl rfl
  | makeCell =>
    exact .bind pop_steady fun _ => .bind (onHeap_steady fun _ => .of_eq rfl rfl) fun _ => setLocal_steady _ _
  | getCell => exact .bind (.localCell _) fun _ => .bind (.look _) fun _ => push_steady _
  | setCell => exact .bind (.localCell _) fun _ => .bind pop_steady fun _ => setCell_steady _ _
  | getUpvalue => exact .bind (.freeCell _) fun _ => .bind (.look _) fun _ => push_steady _
  | setUpvalue => exact .bind pop_steady fun _ => .bind (.freeCell _) fun _ => setCell_steady _ _
  | closure =>
    refine .bind (constantAt_keeps _) fun v => ?_
    split
    · exact .bind (.mapM cellOf_keeps cs) fun _ => .bind (onHeap_steady fun _ => .of_eq rfl rfl) fun _ =>
        push_steady _
    · exact .broken _
  | getField => exact .bind (nameAt_keeps _) fun _ => getField_steady _
  | setField => exact .bind (nameAt_keeps _) fun _ => setField_steady _
  | new =>
    refine .bind (constantAt_keeps _) fun v => ?_
    split
    · exact construct_steady _ _
    · exact .broken _
  | makeArray =>
    exact .bind (popMany_steady _) fun _ => .bind (onHeap_steady fun _ => .of_eq rfl rfl) fun _ => push_steady _
  | getIndex | getElem => exact element_steady _
  | len => exact length_steady
  | checkType =>
    refine .bind (nameAt_keeps _) fun tag => .bind pop_steady fun v => .bind (.look _) fun b => ?_
    split
    · exact push_steady _
    · exact .fault _
  | toText => exact .bind pop_steady fun _ => .bind (.textOf _) fun _ => push_steady _
  | jump | jumpIfFalse | loop | call | ret | unwrapOrReturn => cases hop

theorem readConstant_eq : readConstant = readWord 2 >>= constantAt := rfl

theorem readName_eq : readName = readWord 2 >>= nameAt := by
  rw [readName, readConstant_eq, bind_assoc]
  rfl

theorem operate_word {op : Opcode} (hw : op.widths = [2]) :
    operate op = readWord 2 >>= fun i => act op [i] [] := by
  cases op with
  | const => simp only [operate, readConstant_eq, bind_assoc]; rfl
  | getField | setField | checkType => simp only [operate, readName_eq, bind_assoc]; rfl
  | getLocal | setLocal | getGlobal | setGlobal | makeCell | getCell | setCell | getUpvalue | setUpvalue
  | makeArray => rfl
  | _ => cases hw

theorem operate_jump {op : Opcode} (hw : op.widths = [4]) :
    operate op = readWord 4 >>= fun i => act op [i] [] := by
  cases op with
  | jump | jumpIfFalse | loop => rfl
  | _ => cases hw

theorem operate_call : operate .call = readByte >>= fun n => act .call [n.toNat] [] := rfl

theorem operate_plain {op : Opcode} (hw : op.widths = []) : operate op = act op [] [] := by
  cases op <;> first | rfl | cases hw

end Exec

end Scripting
