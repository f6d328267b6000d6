import Scripting.Proofs.Machine.Acting
import Scripting.Proofs.Machine.Ending

/-!
# Code changes no function

Whatever code is run, checked or not, the functions of the heap stay the same, and instances get no
fields: `Machine.Ends.stays`.
-/

namespace Scripting

def Machine.Quiet (m m' : Machine) : Prop := m.world.heap.Stays m'.world.heap

instance : IsPreorder Machine Machine.Quiet where
  refl _ := .refl _
  trans _ _ _ h k := Heap.Stays.trans h k

namespace Exec

variable {α : Type}

/-- Whether a piece of an instruction leaves the functions of the heap alone, and the sizes of
instances. -/
abbrev Quiet (x : Exec α) : Prop := Keeps Machine.Quiet x

theorem Steady.quiet {x : Exec α} (hx : Steady x) : Quiet x := hx.mono fun _ _ h => h.heap

theorem setFrame_quiet (g : Frame → Frame) : Quiet (setFrame g) := by
  refine .modify fun m => ?_
  split <;> exact refl_of Machine.Quiet _

theorem jumpTo_quiet (target : Nat) : Quiet (jumpTo target) := setFrame_quiet _

theorem readWord_quiet (width : Nat) : Quiet (readWord width) := by
  refine .bind .frame fun f => ?_
  split
  · exact .bind (jumpTo_quiet _) fun _ => .pure _
  · exact .broken _

theorem readByte_quiet : Quiet readByte := by
  refine .bind .frame fun f => ?_
  split
  · exact .bind (jumpTo_quiet _) fun _ => .pure _
  · exact .broken _

theorem captureCells_quiet : (n : Nat) → Quiet (captureCells n)
  | 0 => .pure _
  | n + 1 => by
    refine .bind readByte_quiet fun b => .bind (readWord_quiet 2) fun i => ?_
    have hrest : ∀ r : Ref, Quiet (do return r :: (← captureCells n)) := fun r =>
      .bind (captureCells_quiet n) fun _ => .pure _
    dsimp only
    split
    · exact .bind (.localCell i) hrest
    · exact .bind (.freeCell i) hrest

theorem makeClosure_quiet : Quiet makeClosure := by
  refine .bind (.bind (readWord_quiet 2) constantAt_keeps) fun f => .bind readByte_quiet fun n => ?_
  split
  · exact .bind (captureCells_quiet _) fun _ =>
      Steady.quiet (.bind (onHeap_steady fun _ => .of_eq rfl rfl) fun _ => push_steady _)
  · exact .broken _

theorem enter_quiet (name : String) (chunk : Chunk) (localCount : Int) (free : List Ref)
    (args : List Value) : Quiet (enter name chunk localCount free args) := by
  refine .bind .get fun m => ?_
  split
  · exact .fail _
  · exact .modify fun _ => refl_of Machine.Quiet _

theorem callFunction_quiet (f : Function) (free : List Ref) (argc : Nat) :
    Quiet (callFunction f free argc) := by
  rw [callFunction]
  split
  · exact .fail _
  · split
    · exact .fail _
    · split
      · exact .fail _
      · exact .bind (popMany_steady _).quiet fun _ => enter_quiet _ _ _ _ _

theorem call_quiet (argc : Nat) : Quiet (call argc) := by
  refine .bind pop_steady.quiet fun callee => ?_
  have hother (hv : callee.entered = false) : Quiet (callValue argc callee) := (callValue_steady hv argc).quiet
  cases callee with
  | func r | closure _ r _ =>
    refine .bind .get fun m => ?_
    split
    · exact .broken _
    · exact .bind (.functionAt _) fun _ => callFunction_quiet _ _ _
  | _ => exact hother rfl

theorem leave_quiet (result : Value) : Quiet (leave result) :=
  .bind .frame fun _ => .bind (.modify fun _ => refl_of Machine.Quiet _) fun _ => .bind .get fun _ => .pure _

theorem loop_quiet (target : Nat) : Quiet (act .loop [target] []) := by
  refine .bind (jumpTo_quiet _) fun _ => .bind (.modifyGet fun m => ?_) fun more => ?_
  · split <;> exact refl_of Machine.Quiet _
  · cases more with
    | true => exact .pure _
    | false => exact .fail _

theorem jumpIfFalse_quiet (target : Nat) : Quiet (act .jumpIfFalse [target] []) := by
  refine .bind pop_steady.quiet fun v => ?_
  split
  · exact jumpTo_quiet _
  · exact .pure _

theorem operate_quiet (op : Opcode) : Quiet (operate op) := by
  have hplain (hw : op.widths = []) (hop : op.mayLeave = false) : Quiet (operate op) :=
    operate_plain hw ▸ (act_steady hop [] []).quiet
  have hword (hw : op.widths = [2]) (hop : op.mayLeave = false) : Quiet (operate op) :=
    operate_word hw ▸ .bind (readWord_quiet 2) fun i => (act_steady hop [i] []).quiet
  have hjump (hw : op.widths = [4]) (hact : ∀ i, Quiet (act op [i] [])) : Quiet (operate op) :=
    operate_jump hw ▸ .bind (readWord_quiet 4) hact
  cases op with
  | jump => exact hjump rfl jumpTo_quiet
  | jumpIfFalse => exact hjump rfl jumpIfFalse_quiet
  | loop => exact hjump rfl loop_quiet
  | call => exact .bind readByte_quiet fun _ => call_quiet _
  | closure => exact makeClosure_quiet
  | new =>
    refine .bind (.bind (readWord_quiet 2) constantAt_keeps) fun v => .bind readByte_quiet fun n => ?_
    split
    · exact (construct_steady _ _).quiet
    · exact .broken _
  | ret | unwrapOrReturn => exact .pure _
  | const | getLocal | setLocal | getGlobal | setGlobal | makeCell | getCell | setCell | getUpvalue
  | setUpvalue | getField | setField | makeArray | checkType => exact hword rfl rfl
  | _ => exact hplain rfl rfl

theorem execute_quiet (op : Opcode) : Quiet (execute op) := by
  rw [execute.eq_def]
  split
  · exact .bind pop_steady.quiet fun _ => leave_quiet _
  · refine .bind pop_steady.quiet fun v => .bind (.look _) fun u => ?_
    split
    · exact .bind (push_steady _).quiet fun _ => .pure _
    · exact leave_quiet _
    · exact .fault _
  · exact .bind (operate_quiet _) fun _ => .pure _

theorem step_quiet : Quiet step := by
  refine .bind readByte_quiet fun b => ?_
  split
  · exact execute_quiet _
  · exact .broken _

end Exec

namespace Machine

variable {m m' : Machine}

theorem next_stays (m : Machine) : match m.next with
    | .inl m' | .inr (_, m') => m.world.heap.Stays m'.world.heap := by
  have h : m.world.heap.Stays (Exec.step.run m).2.world.heap := Exec.step_quiet m
  unfold next
  generalize Exec.step.run m = x at h
  obtain ⟨_ | _ | _, m'⟩ := x <;> exact h

theorem Ends.stays {n : Nat} {o : Outcome} (h : m.Ends n o m') : m.world.heap.Stays m'.world.heap := by
  induction h with
  | @last m _ _ stop =>
    have h := m.next_stays
    rw [stop] at h
    exact h
  | @next m _ _ _ _ step _ ih =>
    have h := m.next_stays
    rw [step] at h
    exact h.trans ih

end Machine

end Scripting
