import Scripting.Proofs.Machine.Acting
import Scripting.Proofs.Machine.Ending
import Scripting.Proofs.Values.Comparing
import Scripting.Proofs.Values.Knots

/-!
# Instructions that never end

Printing and comparing are all that an instruction does that may have no end. `Machine.shown` lists what the
next instruction prints or compares. When that has no end, an object that holds itself is met in one of
these values: `Machine.Stands.knotted`.
-/

namespace Scripting

section

variable {ε σ α β : Type} {stuck : ε} {x : ExceptT ε (StateM σ) α} {f : α → ExceptT ε (StateM σ) β} {s : σ}
  {P : Prop}

def Answers (stuck : ε) (x : ExceptT ε (StateM σ) α) (s : σ) (P : Prop) : Prop :=
  (x.run.run s).1 = .error stuck → P

/-- Whether a computation only looks at the state, and gets stuck only if `P` holds. -/
def Looks (stuck : ε) (x : ExceptT ε (StateM σ) α) (s : σ) (P : Prop) : Prop :=
  (x.run.run s).2 = s ∧ Answers stuck x s P

theorem bind_run_run (x : ExceptT ε (StateM σ) α) (f : α → ExceptT ε (StateM σ) β) (s : σ) :
    (x >>= f).run.run s = match x.run.run s with
      | (.ok a, s') => (f a).run.run s'
      | (.error e, s') => (.error e, s') := by
  have hrun : (x >>= f).run.run s = ExceptT.bindCont f (x.run.run s).1 (x.run.run s).2 := rfl
  rw [hrun]
  generalize x.run.run s = y
  obtain ⟨r, s'⟩ := y
  cases r <;> rfl

namespace Answers

theorem pure (a : α) : Answers stuck (Pure.pure a : ExceptT ε (StateM σ) α) s P := nofun

theorem throw {e : ε} (he : e ≠ stuck) : Answers stuck (throw e : ExceptT ε (StateM σ) α) s P :=
  fun h => absurd (Except.error.inj h) he

theorem bindOk (hx : Answers stuck x s P)
    (hf : ∀ a s', x.run.run s = (.ok a, s') → Answers stuck (f a) s' P) : Answers stuck (x >>= f) s P := by
  intro hstuck
  rw [bind_run_run] at hstuck
  generalize hrun : x.run.run s = y at hstuck
  obtain ⟨_ | a, s'⟩ := y
  · exact hx (by rw [hrun, Except.error.inj hstuck])
  · exact hf a s' hrun hstuck

theorem bind (hx : Answers stuck x s P) (hf : ∀ a s, Answers stuck (f a) s P) :
    Answers stuck (x >>= f) s P := hx.bindOk fun a s' _ => hf a s'

theorem get : Answers stuck (get : ExceptT ε (StateM σ) σ) s P := nofun

theorem modifyGet (g : σ → α × σ) : Answers stuck (modifyGet g : ExceptT ε (StateM σ) α) s P := nofun

theorem modify (g : σ → σ) : Answers stuck (modify g : ExceptT ε (StateM σ) Unit) s P := nofun

end Answers

namespace Looks

theorem pure (a : α) : Looks stuck (Pure.pure a : ExceptT ε (StateM σ) α) s P := ⟨rfl, .pure a⟩

theorem answers (hx : Looks stuck x s P) (hf : ∀ a, Answers stuck (f a) s P) : Answers stuck (x >>= f) s P := by
  refine hx.2.bindOk fun a s' hrun => ?_
  obtain rfl : s' = s := by simpa [hrun] using hx.1
  exact hf a

theorem bind (hx : Looks stuck x s P) (hf : ∀ a, Looks stuck (f a) s P) : Looks stuck (x >>= f) s P := by
  refine ⟨?_, hx.answers fun a => (hf a).2⟩
  have hstays := hx.1
  rw [bind_run_run]
  generalize x.run.run s = y at hstays ⊢
  obtain ⟨_ | a, s'⟩ := y
  · exact hstays
  · obtain rfl : s' = s := hstays
    exact (hf a).1

theorem mapM {f : β → ExceptT ε (StateM σ) α} {bs : List β} (hf : ∀ b ∈ bs, Looks stuck (f b) s P) :
    Looks stuck (bs.mapM f) s P := by
  induction bs with
  | nil => exact pure _
  | cons b bs ih =>
    rw [List.mapM_cons]
    exact .bind (hf b List.mem_cons_self) fun _ =>
      .bind (ih fun b hb => hf b (List.mem_cons_of_mem _ hb)) fun _ => pure _

end Looks

end

def Heap.AnyKnotted (h : Heap) (vs : List Value) : Prop := ∃ v ∈ vs, h.Knotted v

namespace Call

variable {α β : Type} {w : World} {vs : List Value} {v : Value}

/-- Whether a piece of a host function returns, unless an object that holds itself is met in one of some
values. -/
abbrev Returns (vs : List Value) (w : World) (x : Call α) : Prop :=
  Answers (.fault .endless) x w (w.heap.AnyKnotted vs)

abbrev Sees (vs : List Value) (w : World) (x : Call α) : Prop :=
  Looks (.fault .endless) x w (w.heap.AnyKnotted vs)

theorem fail_returns (msg : String) : Returns vs w (fail msg : Call α) := .throw nofun

theorem fault_returns {cause : HostFault} (h : cause ≠ .endless) : Returns vs w (fault cause : Call α) :=
  .throw fun he => h (CallFailure.fault.inj he)

theorem fail_sees (msg : String) : Sees vs w (fail msg : Call α) := ⟨rfl, fail_returns msg⟩

theorem fault_sees {cause : HostFault} (h : cause ≠ .endless) : Sees vs w (fault cause : Call α) :=
  ⟨rfl, fault_returns h⟩

theorem look_sees (f : Heap → α) : Sees vs w (look f) := ⟨rfl, nofun⟩

theorem ofLook_returns {f : Heap → β} {g : β → Call α} (h : Returns vs w (g (f w.heap))) :
    Returns vs w (look f >>= g) := h

theorem ofLook_sees {f : Heap → β} {g : β → Call α} (h : Sees vs w (g (f w.heap))) :
    Sees vs w (look f >>= g) := h

theorem orFault_sees {r : Except HostFault α} (h : r = .error .endless → w.heap.AnyKnotted vs) :
    Sees vs w (orFault r) := by
  cases r with
  | ok a => exact .pure a
  | error cause =>
    refine ⟨rfl, fun hstuck => h ?_⟩
    rw [CallFailure.fault.inj (Except.error.inj hstuck)]

theorem textOf_sees (hv : v ∈ vs) : Sees vs w (textOf v) :=
  ofLook_sees (orFault_sees fun h => ⟨v, hv, Heap.knotted_of_inspect h⟩)

theorem presentText_sees (hv : v ∈ vs) : Sees vs w (presentText v) := by
  rw [presentText.eq_def]
  split
  · exact fault_sees (by simp)
  · exact textOf_sees hv

theorem textFail_sees (hv : v ∈ vs) (msg : String → String) :
    Sees vs w (do fail (msg (← presentText v)) : Call α) :=
  (presentText_sees hv).bind fun _ => fail_sees _

theorem arg_cases (args : List Value) (i : Nat) : (∃ v ∈ args, arg args i = pure v) ∨
    arg args i = fault (.outOfRange i args.length) := by
  rw [arg]
  cases h : args[i]? with
  | none => exact .inr rfl
  | some v => exact .inl ⟨v, List.mem_of_getElem? h, rfl⟩

theorem ofArg_sees {i : Nat} {f : Value → Call α} (hf : ∀ v ∈ vs, Sees vs w (f v)) :
    Sees vs w (arg vs i >>= f) := by
  rcases arg_cases vs i with ⟨v, hv, harg⟩ | harg
  · rw [harg, pure_bind]
    exact hf v hv
  · rw [harg]
    exact fault_sees (α := α) (by simp)

theorem ofArg_returns {i : Nat} {f : Value → Call α} (hf : ∀ v ∈ vs, Returns vs w (f v)) :
    Returns vs w (arg vs i >>= f) := by
  rcases arg_cases vs i with ⟨v, hv, harg⟩ | harg
  · rw [harg, pure_bind]
    exact hf v hv
  · rw [harg]
    exact fault_returns (α := α) (by simp)

theorem asInt_sees (v : Value) : Sees vs w (asInt v) := by
  cases v with
  | int n => exact .pure n
  | _ => exact fault_sees (by simp)

theorem asArray_sees (v : Value) : Sees vs w (asArray v) := by
  cases v with
  | array r => exact .pure r
  | _ => exact fault_sees (by simp)

theorem asList_sees (hv : v ∈ vs) : Sees vs w (asList v) := by
  rw [asList.eq_def]
  split
  · refine .bind (look_sees _) fun o => ?_
    split
    · exact .pure _
    · exact textFail_sees hv _
  · exact textFail_sees hv _

theorem asBuilder_sees (hv : v ∈ vs) : Sees vs w (asBuilder v) := by
  rw [asBuilder.eq_def]
  split
  · refine .bind (look_sees _) fun o => ?_
    split
    · exact .pure _
    · exact textFail_sees hv _
  · exact textFail_sees hv _

theorem enumerate_sees (hv : v ∈ vs) : Sees vs w (enumerate v) := by
  rw [enumerate.eq_def]
  split
  · exact look_sees _
  · refine .bind (look_sees _) fun o => ?_
    split
    · exact .pure _
    · exact textFail_sees hv _
  · exact textFail_sees hv _

theorem onNumber_sees (f : Float → Float) : Sees vs w (onNumber f vs) := by
  refine ofArg_sees fun v hv => ?_
  split
  · exact .pure _
  · exact textFail_sees hv _

theorem onText_sees (f : String → Value) : Sees vs w (onText f vs) :=
  ofArg_sees fun _ hv => .bind (textOf_sees hv) fun _ => .pure _

theorem onTexts_sees (f : String → String → Bool) : Sees vs w (onTexts f vs) :=
  ofArg_sees fun _ hv => .bind (textOf_sees hv) fun _ => ofArg_sees fun _ hv =>
    .bind (textOf_sees hv) fun _ => .pure _

theorem order_sees {v' : Value} (hv : v ∈ vs) (hv' : v' ∈ vs) : Sees vs w (order v v') := by
  rw [order.eq_def]
  split
  · exact .bind (textOf_sees hv) fun _ => .bind (textOf_sees hv') fun _ => fail_sees _
  · split
    · exact .pure _
    · exact .bind (presentText_sees hv) fun _ => .bind (presentText_sees hv') fun _ => fail_sees _

theorem pick_sees (keep : Ordering → Bool) : Sees vs w (pick keep vs) :=
  ofArg_sees fun _ hv => ofArg_sees fun _ hv' => .bind (order_sees hv hv') fun _ => .pure _

theorem knotted_of_findEqual {h : Heap} {items : List Value} (hnone : h.findEqual v items = none) :
    h.Knotted v := by
  induction items with
  | nil => cases hnone
  | cons u us ih =>
    rw [Heap.findEqual] at hnone
    cases hu : h.equal u v with
    | none => exact (Heap.knotted_of_equal hu).2
    | some same =>
      cases hus : h.findEqual v us with
      | none => exact ih hus
      | some i => cases same <;> simp [hu, hus] at hnone

theorem answered_eq_endless {o : Option α} (h : HostFault.answered o = .error .endless) : o = none := by
  cases o with
  | none => rfl
  | some a => cases h

theorem findItem_sees (r : Ref) (hv : v ∈ vs) : Sees vs w (findItem r v) :=
  .bind (look_sees _) fun _ => ofLook_sees
    (orFault_sees fun h => ⟨v, hv, knotted_of_findEqual (answered_eq_endless h)⟩)

end Call

open Call in
theorem Prim.run_returns (p : Prim) (args : List Value) (w : World) : Call.Returns args w (p.run args) := by
  cases p with
  | print =>
    exact Looks.answers (.mapM fun _ hv => textOf_sees hv) fun _ => .bind (.modify _) fun _ _ => .pure _
  | concat => exact Looks.answers (.mapM fun _ hv => textOf_sees hv) fun _ => .pure _
  | toText => exact ofArg_returns fun _ hv => (textOf_sees hv).answers fun _ => .pure _
  | len =>
    refine ofArg_returns fun v hv => ?_
    split
    · exact .pure _
    · exact (look_sees _).answers fun _ => .pure _
    · exact fault_returns (by simp)
    · exact fail_returns _
  | panic => exact ofArg_returns fun _ hv => (textOf_sees hv).answers fun _ => fail_returns _
  | equals =>
    refine ofArg_returns fun v hv => ofArg_returns fun v' _ => ofLook_returns
      ((orFault_sees fun h => ?_).answers fun _ => .pure _)
    exact ⟨v, hv, (Heap.knotted_of_equal (answered_eq_endless h)).1⟩
  | typeName =>
    refine ofArg_returns fun v hv => (look_sees _).answers fun t => ?_
    split
    · split
      · exact .pure _
      · exact fault_returns (by simp)
    · exact fault_returns (by simp)
  | absInt => exact ofArg_returns fun _ _ => (asInt_sees _).answers fun _ => .pure _
  | abs | sqrt | floor => exact (onNumber_sees _).2
  | pow => exact ofArg_returns fun _ _ => ofArg_returns fun _ _ => .pure _
  | max | min => exact (pick_sees _).2
  | writeLine | write =>
    exact ofArg_returns fun _ hv => (textOf_sees hv).answers fun _ => .bind (.modify _) fun _ _ => .pure _
  | upper | lower | trim | length => exact (onText_sees _).2
  | contains | startsWith | endsWith => exact (onTexts_sees _).2
  | split =>
    exact ofArg_returns fun _ hv => (textOf_sees hv).answers fun _ => ofArg_returns fun _ hv =>
      (textOf_sees hv).answers fun _ => .modifyGet _
  | push =>
    exact ofArg_returns fun _ _ => (asArray_sees _).answers fun _ => ofArg_returns fun _ _ =>
      .bind (.modify _) fun _ _ => .pure _
  | count => exact ofArg_returns fun _ _ => (asArray_sees _).answers fun _ =>
      (look_sees _).answers fun _ => .pure _
  | arrayContains =>
    exact ofArg_returns fun _ _ => (asArray_sees _).answers fun _ => ofArg_returns fun _ hv =>
      (findItem_sees _ hv).answers fun _ => .pure _
  | indexOf =>
    refine ofArg_returns fun _ _ => (asArray_sees _).answers fun _ => ofArg_returns fun _ hv =>
      (findItem_sees _ hv).answers fun i => ?_
    cases i with
    | some i => exact .pure _
    | none => exact .pure _
  | newBuilder | emptyList => exact .modifyGet _
  | append =>
    exact ofArg_returns fun _ hv => (asBuilder_sees hv).answers fun _ => ofArg_returns fun _ hv =>
      (textOf_sees hv).answers fun _ => .bind (.modify _) fun _ _ => .pure _
  | builderLength | build => exact ofArg_returns fun _ hv => (asBuilder_sees hv).answers fun _ => .pure _
  | listOf =>
    exact ofArg_returns fun _ _ => (asArray_sees _).answers fun _ => (look_sees _).answers fun _ => .modifyGet _
  | add =>
    exact ofArg_returns fun _ hv => (asList_sees hv).answers fun _ => ofArg_returns fun _ _ =>
      .bind (.modify _) fun _ _ => .pure _
  | get =>
    refine ofArg_returns fun _ hv => (asList_sees hv).answers fun x => ofArg_returns fun _ _ =>
      (asInt_sees _).answers fun i => ?_
    by_cases hi : i < 0
    · rw [if_pos hi]
      exact fail_returns _
    · rw [if_neg hi]
      split
      · exact .pure _
      · exact fail_returns _
  | enumCount => exact ofArg_returns fun _ hv => (enumerate_sees hv).answers fun _ => .pure _
  | enumFirst =>
    refine ofArg_returns fun _ hv => (enumerate_sees hv).answers fun items => ?_
    split
    · exact .pure _
    · exact fail_returns _
  | missing key => exact fail_returns _

/-- The values on the stack that an instruction compares or prints, if it does any of this. -/
def Opcode.shown (argc : Nat) (stack : List Value) : Opcode → List Value
  | add | eq | ne => stack.take 2
  | toText | getField => stack.take 1
  | setField => (stack.drop 1).take 1
  | call =>
    match stack with
    | .builtin .. :: args => args.take argc
    | _ => stack.take 1
  | _ => []

theorem Opcode.mem_shown_call {v : Value} {argc : Nat} {st : List Value} (h : ∀ i b, v ≠ .builtin i b) :
    v ∈ shown argc (v :: st) .call := by
  cases v with
  | builtin i b => exact absurd rfl (h i b)
  | _ => simp [shown]

def Machine.SameValues (m m' : Machine) : Prop := m'.world = m.world ∧ m'.stack = m.stack

instance : IsPreorder Machine Machine.SameValues where
  refl _ := ⟨rfl, rfl⟩
  trans _ _ _ h k := ⟨k.1.trans h.1, k.2.trans h.2⟩

namespace Exec

variable {α β : Type} {m : Machine} {P : Prop} {v : Value} {vs : List Value}

abbrev Returns (P : Prop) (m : Machine) (x : Exec α) : Prop := Answers (.fault .endless) x m P

theorem fail_returns (msg : String) : Returns P m (fail msg : Exec α) := .throw nofun

theorem broken_returns (msg : String) : Returns P m (broken msg : Exec α) := .throw nofun

theorem fault_returns {cause : HostFault} (h : cause = .endless → P) : Returns P m (fault cause : Exec α) :=
  fun hstuck => h (Failure.fault.inj (Except.error.inj hstuck))

theorem look_returns (f : Heap → α) : Returns P m (look f) := nofun

theorem onHeap_returns (f : Heap → α × Heap) : Returns P m (onHeap f) := nofun

theorem push_returns (v : Value) : Returns P m (push v) := nofun

theorem ofPop_returns {f : Value → Exec α}
    (hf : ∀ v vs, m.stack = v :: vs → Returns P { m with stack := vs } (f v)) :
    Returns P m (pop >>= f) := by
  obtain ⟨w, gs, _ | ⟨v, vs⟩, fs, b⟩ := m
  · exact nofun
  · exact hf v vs rfl

theorem pop_returns : Returns P m pop := by
  rw [← bind_pure pop]
  exact ofPop_returns fun v vs _ => .pure v

theorem top_returns : Returns P m top := by
  refine .bind .get fun m' m => ?_
  split
  · exact .pure _
  · exact broken_returns _

theorem popMany_returns (n : Nat) : Returns P m (popMany n) := by
  refine .bind .get fun m' m => ?_
  split
  · exact .bind (.modify _) fun _ _ => .pure _
  · exact broken_returns _

theorem frame_returns : Returns P m frame := by
  refine .bind .get fun m' m => ?_
  split
  · exact .pure _
  · exact fault_returns (by simp)

theorem setFrame_returns (g : Frame → Frame) : Returns P m (setFrame g) := .modify _

theorem readWord_returns (width : Nat) : Returns P m (readWord width) := by
  refine .bind frame_returns fun f m => ?_
  split
  · exact .bind (setFrame_returns _) fun _ _ => .pure _
  · exact broken_returns _

theorem readByte_returns : Returns P m readByte := by
  refine .bind frame_returns fun f m => ?_
  split
  · exact .bind (setFrame_returns _) fun _ _ => .pure _
  · exact broken_returns _

theorem setFrame_keeps (g : Frame → Frame) : Keeps Machine.SameValues (setFrame g) := by
  refine .modify fun m => ?_
  split <;> exact ⟨rfl, rfl⟩

theorem readWord_keeps (width : Nat) : Keeps Machine.SameValues (readWord width) := by
  refine .bind .frame fun f => ?_
  split
  · exact .bind (setFrame_keeps _) fun _ => .pure _
  · exact .broken _

theorem readName_keeps : Keeps Machine.SameValues readName := by
  rw [readName_eq]
  exact .bind (readWord_keeps 2) nameAt_keeps

theorem itemAt_returns (items : Array α) (i : Nat) : Returns P m (itemAt items i) := by
  rw [itemAt]
  split
  · exact .pure _
  · exact fault_returns (by simp)

theorem operandAt_returns (items : Array α) (i : Nat) : Returns P m (operandAt items i) := by
  rw [operandAt]
  split
  · exact .pure _
  · exact broken_returns _

theorem readConstant_returns : Returns P m readConstant :=
  .bind (readWord_returns 2) fun _ _ => .bind frame_returns fun _ _ => operandAt_returns _ _

theorem readName_returns : Returns P m readName := by
  refine .bind readConstant_returns fun v m => ?_
  split
  · exact .pure _
  · exact broken_returns _

theorem getLocal_returns (i : Nat) : Returns P m (getLocal i) :=
  .bind frame_returns fun _ _ => operandAt_returns _ _

theorem setLocal_returns (i : Nat) (v : Value) : Returns P m (setLocal i v) := by
  refine .bind frame_returns fun f m => ?_
  dsimp only
  split
  · exact setFrame_returns _
  · exact broken_returns _

theorem localCell_returns (i : Nat) : Returns P m (localCell i) := by
  refine .bind (getLocal_returns i) fun v m => ?_
  split
  · exact .pure _
  · exact broken_returns _

theorem freeCell_returns (i : Nat) : Returns P m (freeCell i) :=
  .bind frame_returns fun _ _ => operandAt_returns _ _

theorem typeText_returns (v : Value) : Returns P m (typeText v) := by
  refine .bind (look_returns _) fun t m => ?_
  split
  · exact .pure _
  · exact fault_returns (by simp)

theorem typesFail_returns (v w : Value) (msg : String → String → String) :
    Returns P m (do fail (msg (← typeText v) (← typeText w)) : Exec α) :=
  .bind (typeText_returns v) fun _ _ => .bind (typeText_returns w) fun _ _ => fail_returns _

theorem typeFail_returns (v : Value) (msg : String → String) :
    Returns P m (do fail (msg (← typeText v)) : Exec α) :=
  .bind (typeText_returns v) fun _ _ => fail_returns _

theorem intArith_returns (op : Opcode) (a b : Int64) : Returns P m (intArith op a b) := by
  rw [intArith.eq_def]
  split
  case h_4 | h_5 =>
    split
    · exact fail_returns _
    · exact .pure _
  all_goals exact .pure _

theorem functionAt_returns (r : Ref) : Returns P m (functionAt r) := by
  refine .bind (look_returns _) fun f m => ?_
  split
  · exact .pure _
  · exact fault_returns (by simp)

theorem orFault_returns {r : Except HostFault α} (h : r = .error .endless → P) : Returns P m (orFault r) := by
  cases r with
  | ok a => exact .pure a
  | error cause => exact fault_returns fun hcause => h (by rw [hcause])

theorem ofLook_returns {f : Heap → β} {g : β → Exec α} (h : Returns P m (g (f m.world.heap))) :
    Returns P m (look f >>= g) := h

theorem ofText_returns {f : String → Exec α} (hv : v ∈ vs)
    (hf : ∀ s, Returns (m.world.heap.AnyKnotted vs) m (f s)) :
    Returns (m.world.heap.AnyKnotted vs) m (textOf v >>= f) := by
  have hlooks : Looks (.fault .endless) (textOf v) m (m.world.heap.AnyKnotted vs) := by
    refine ⟨?_, ofLook_returns (orFault_returns fun h => ⟨v, hv, Heap.knotted_of_inspect h⟩)⟩
    exact (Keeps.textOf (R := Eq) v m).symm
  exact hlooks.answers hf

theorem textFail_returns (hv : v ∈ vs) (msg : String → String) :
    Returns (m.world.heap.AnyKnotted vs) m (do fail (msg (← presentText v)) : Exec α) := by
  rw [presentText.eq_def]
  split
  · exact .bind (fault_returns (by simp)) fun _ _ => fail_returns _
  · exact ofText_returns hv fun _ => fail_returns _

theorem arith_returns (op : Opcode) : Returns (m.world.heap.AnyKnotted (op.shown 0 m.stack)) m (arith op) := by
  refine ofPop_returns fun right st hright => ofPop_returns fun left st hleft => ?_
  obtain rfl := hleft
  rw [hright]
  split
  · rename_i htext
    obtain rfl : op = .add := by cases op <;> first | rfl | cases htext
    exact ofText_returns (by simp [Opcode.shown]) fun _ => ofText_returns (by simp [Opcode.shown]) fun _ =>
      push_returns _
  · split
    · exact .bind (intArith_returns op _ _) fun _ _ => push_returns _
    · split
      · exact push_returns _
      · exact typesFail_returns _ _ _

theorem compare_returns (hv : v ∈ vs) (w : Value) (f : Bool → Bool) : Returns (m.world.heap.AnyKnotted vs) m (do
    push (.bool (f (← orFault (← look fun h => HostFault.answered (h.equal v w)))))) := by
  refine ofLook_returns (.bind (orFault_returns fun h => ?_) fun _ _ => push_returns _)
  exact ⟨v, hv, (Heap.knotted_of_equal (Call.answered_eq_endless h)).1⟩

theorem comparison_returns (op : Opcode) :
    Returns (m.world.heap.AnyKnotted (op.shown 0 m.stack)) m (comparison op) := by
  refine ofPop_returns fun right st hright => ofPop_returns fun left st hleft => ?_
  obtain rfl := hleft
  rw [hright]
  split
  · exact compare_returns (v := left) (by simp [Opcode.shown]) right id
  · exact compare_returns (v := left) (by simp [Opcode.shown]) right (!·)
  · split
    · exact push_returns _
    · exact typesFail_returns _ _ _

theorem bitOr_returns : Returns P m bitOr := by
  refine .bind pop_returns fun right m => .bind pop_returns fun left m => ?_
  split
  · exact push_returns _
  · exact push_returns _
  · exact typesFail_returns _ _ _

theorem negate_returns : Returns P m negate := by
  refine .bind pop_returns fun v m => ?_
  split
  · exact push_returns _
  · exact push_returns _
  · exact typeFail_returns _ _

theorem fieldOf_returns (hv : v ∈ vs) (name : String) :
    Returns (m.world.heap.AnyKnotted vs) m (fieldOf v name) := by
  rw [fieldOf.eq_def]
  split
  · refine ofLook_returns ?_
    split
    · exact .pure _
    · exact textFail_returns hv _
  · exact typeFail_returns _ _

theorem getField_returns (name : String) :
    Returns (m.world.heap.AnyKnotted (m.stack.take 1)) m (getField name) := by
  refine ofPop_returns fun v st hv => .bind (fieldOf_returns (by simp [hv]) name) fun x m => ?_
  exact .bind (look_returns _) fun _ _ => .bind (itemAt_returns _ _) fun _ _ => push_returns _

theorem setField_returns (name : String) :
    Returns (m.world.heap.AnyKnotted ((m.stack.drop 1).take 1)) m (setField name) := by
  refine ofPop_returns fun v st hv => ofPop_returns fun target st ht => ?_
  obtain rfl := ht
  refine .bind (fieldOf_returns (by simp [hv]) name) fun x m => .bind (look_returns _) fun size m => ?_
  split
  · exact .bind (onHeap_returns _) fun _ _ => push_returns _
  · refine fault_returns (by simp)

theorem element_returns (checked : Bool) : Returns P m (element checked) := by
  refine .bind pop_returns fun index m => .bind pop_returns fun target m => ?_
  split
  · split
    · refine .bind (look_returns _) fun items m => ?_
      dsimp only
      split
      · split
        · exact .bind (onHeap_returns _) fun _ _ => push_returns _
        · exact push_returns _
      · split
        · exact push_returns _
        · exact fail_returns _
    · exact typeFail_returns _ _
  · exact typeFail_returns _ _

theorem length_returns : Returns P m length := by
  refine .bind pop_returns fun v m => ?_
  split
  · exact .bind (look_returns _) fun _ _ => push_returns _
  · exact push_returns _
  · exact typeFail_returns _ _

theorem construct_returns (c : Ctor) (n : Nat) : Returns P m (construct c n) := by
  refine .bind (popMany_returns n) fun vs m => ?_
  split
  · exact .bind (onHeap_returns _) fun _ _ => push_returns _
  · exact fail_returns _

theorem captureCells_returns : (n : Nat) → {m : Machine} → Returns P m (captureCells n)
  | 0, _ => .pure _
  | n + 1, _ => by
    refine .bind readByte_returns fun b m => .bind (readWord_returns 2) fun i m => ?_
    have hrest (r : Ref) (m : Machine) : Returns P m (do return r :: (← captureCells n)) :=
      .bind (captureCells_returns n) fun _ _ => .pure _
    dsimp only
    split
    · exact .bind (localCell_returns i) hrest
    · exact .bind (freeCell_returns i) hrest

theorem makeClosure_returns : Returns P m makeClosure := by
  refine .bind readConstant_returns fun f m => .bind readByte_returns fun n m => ?_
  split
  · exact .bind (captureCells_returns _) fun _ _ => .bind (onHeap_returns _) fun _ _ => push_returns _
  · exact broken_returns _

theorem callFunction_returns (f : Function) (free : List Ref) (argc : Nat) :
    Returns P m (callFunction f free argc) := by
  rw [callFunction]
  split
  · exact fail_returns _
  · split
    · exact fail_returns _
    · split
      · exact fail_returns _
      · refine .bind (popMany_returns _) fun _ m => .bind .get fun _ m => ?_
        split
        · exact fail_returns _
        · exact .modify _

theorem ofGet_returns {f : Machine → Exec α} (h : Returns P m (f m)) : Returns P m (get >>= f) := h

theorem takeFrom_eq {n : Nat} {taken stack vs rest : List Value}
    (h : takeFrom n taken stack = some (vs, rest)) :
    vs = (stack.take n).reverse ++ taken := by
  induction n generalizing taken stack with
  | zero =>
    obtain ⟨rfl, rfl⟩ := Prod.mk.inj (Option.some.inj h)
    simp
  | succ n ih =>
    cases stack with
    | nil => cases h
    | cons v stack => simp [ih h]

theorem popMany_takes {n : Nat} {m' : Machine} (h : (popMany n).run.run m = (.ok vs, m')) :
    vs = (m.stack.take n).reverse ∧ m'.world = m.world := by
  have hget : (get : Exec Machine).run.run m = (.ok m, m) := rfl
  rw [popMany, bind_run_run, hget] at h
  dsimp only at h
  split at h
  · rename_i vs' rest htake
    obtain ⟨hvs, rfl⟩ := Prod.mk.inj h
    obtain rfl := Except.ok.inj hvs
    exact ⟨by rw [takeFrom_eq htake, List.append_nil], rfl⟩
  · cases h

theorem host_returns (p : Prim) (argc : Nat) (name : String) :
    Returns (m.world.heap.AnyKnotted (m.stack.take argc)) m (do
      match ← callHost p (← popMany argc) with
      | .ok .absent => push .unit
      | .ok v => push v
      | .error (.message msg) => fail (name ++ ": " ++ msg)
      | .error (.fault cause) => fault cause) := by
  refine (popMany_returns argc).bindOk fun args m' hpop => ?_
  obtain ⟨hargs, hworld⟩ := popMany_takes hpop
  refine Answers.bindOk nofun fun r m'' hcall => ?_
  split
  · exact push_returns _
  · exact push_returns _
  · exact fail_returns _
  · rename_i cause
    refine fault_returns fun hcause => ?_
    have hresult : ((p.run args).run.run m'.world).1 = .error (.fault .endless) :=
      hcause ▸ Except.ok.inj (congrArg Prod.fst hcall)
    obtain ⟨v, hv, hknotted⟩ := p.run_returns args m'.world hresult
    exact ⟨v, List.mem_reverse.mp (hargs ▸ hv), hworld ▸ hknotted⟩

theorem call_returns (argc : Nat) :
    Returns (m.world.heap.AnyKnotted (Opcode.shown argc m.stack .call)) m (call argc) := by
  refine ofPop_returns fun callee st hstack => ofGet_returns ?_
  rw [hstack]
  split
  · exact broken_returns _
  · split
    · exact .bind (functionAt_returns _) fun _ _ => callFunction_returns _ _ _
    · exact .bind (functionAt_returns _) fun _ _ => callFunction_returns _ _ _
    · split
      · exact fail_returns _
      · exact host_returns _ _ _
    · exact construct_returns _ _
    · rename_i hbuiltin _
      exact textFail_returns (Opcode.mem_shown_call hbuiltin) _

theorem ofName_returns {f : String → Exec α} {s : List Value → List Value}
    (hf : ∀ name (m : Machine), Returns (m.world.heap.AnyKnotted (s m.stack)) m (f name)) :
    Returns (m.world.heap.AnyKnotted (s m.stack)) m (readName >>= f) := by
  refine readName_returns.bindOk fun name m' hread => ?_
  obtain ⟨hworld, hstack⟩ : m.SameValues m' := by
    have hkeeps := readName_keeps m
    rwa [show readName.run m = _ from hread] at hkeeps
  rw [← hworld, ← hstack]
  exact hf name m'

theorem operate_returns {op : Opcode} (hop : op ≠ .call) :
    Returns (m.world.heap.AnyKnotted (op.shown 0 m.stack)) m (operate op) := by
  cases op with
  | const => exact .bind readConstant_returns fun _ _ => push_returns _
  | pop => exact .bind pop_returns fun _ _ => .pure _
  | popBelow => exact .bind pop_returns fun _ _ => .bind pop_returns fun _ _ => push_returns _
  | dup => exact .bind top_returns fun _ _ => push_returns _
  | unit => exact push_returns _
  | add => exact arith_returns .add
  | sub => exact arith_returns .sub
  | mul => exact arith_returns .mul
  | div => exact arith_returns .div
  | mod => exact arith_returns .mod
  | eq => exact comparison_returns .eq
  | ne => exact comparison_returns .ne
  | lt => exact comparison_returns .lt
  | le => exact comparison_returns .le
  | gt => exact comparison_returns .gt
  | ge => exact comparison_returns .ge
  | bitOr => exact bitOr_returns
  | neg => exact negate_returns
  | not => exact .bind pop_returns fun _ _ => push_returns _
  | getLocal => exact .bind (readWord_returns 2) fun _ _ => .bind (getLocal_returns _) fun _ _ => push_returns _
  | setLocal => exact .bind (readWord_returns 2) fun _ _ => .bind pop_returns fun _ _ => setLocal_returns _ _
  | getGlobal =>
    refine .bind (readWord_returns 2) fun i _ => .bind .get fun m _ => ?_
    split
    · exact push_returns _
    · exact fail_returns _
  | setGlobal => exact .bind (readWord_returns 2) fun _ _ => .bind pop_returns fun _ _ => .modify _
  | makeCell =>
    exact .bind (readWord_returns 2) fun _ _ => .bind pop_returns fun _ _ => .bind (onHeap_returns _) fun _ _ =>
      setLocal_returns _ _
  | getCell =>
    exact .bind (readWord_returns 2) fun _ _ => .bind (localCell_returns _) fun _ _ =>
      .bind (look_returns _) fun _ _ => push_returns _
  | setCell =>
    exact .bind (readWord_returns 2) fun _ _ => .bind (localCell_returns _) fun _ _ =>
      .bind pop_returns fun _ _ => onHeap_returns _
  | getUpvalue =>
    exact .bind (readWord_returns 2) fun _ _ => .bind (freeCell_returns _) fun _ _ =>
      .bind (look_returns _) fun _ _ => push_returns _
  | setUpvalue =>
    exact .bind (readWord_returns 2) fun _ _ => .bind pop_returns fun _ _ =>
      .bind (freeCell_returns _) fun _ _ => onHeap_returns _
  | closure => exact makeClosure_returns
  | jump => exact .bind (readWord_returns 4) fun _ _ => setFrame_returns _
  | jumpIfFalse =>
    refine .bind (readWord_returns 4) fun _ _ => .bind pop_returns fun _ _ => ?_
    split
    · exact setFrame_returns _
    · exact .pure _
  | loop =>
    refine .bind (readWord_returns 4) fun _ _ => .bind (setFrame_returns _) fun _ _ =>
      .bind (.modifyGet _) fun more _ => ?_
    cases more with
    | true => exact .pure _
    | false => exact fail_returns _
  | call => exact absurd rfl hop
  | getField => exact ofName_returns fun name _ => getField_returns name
  | setField => exact ofName_returns (s := fun st => (st.drop 1).take 1) fun name _ => setField_returns name
  | new =>
    refine .bind readConstant_returns fun v _ => .bind readByte_returns fun n _ => ?_
    split
    · exact construct_returns _ _
    · exact broken_returns _
  | makeArray =>
    exact .bind (readWord_returns 2) fun _ _ => .bind (popMany_returns _) fun _ _ =>
      .bind (onHeap_returns _) fun _ _ => push_returns _
  | getIndex | getElem => exact element_returns _
  | len => exact length_returns
  | checkType =>
    refine .bind readName_returns fun tag _ => .bind pop_returns fun v _ => .bind (look_returns _) fun b _ => ?_
    split
    · exact push_returns _
    · exact fault_returns (by simp)
  | toText =>
    exact ofPop_returns fun v st hv => ofText_returns (by simp [Opcode.shown, hv]) fun _ => push_returns _
  | ret | unwrapOrReturn => exact .pure _

theorem execute_eq_run {v w : Value} {st : List Value} (hstack : m.stack = w :: v :: st)
    (hnone : m.world.heap.equal v w = none) : ((execute .eq).run m).1 = .error (.fault .endless) := by
  have hrun := eq_run hstack
  rw [hnone] at hrun
  have hexecute : (execute .eq).run m = (operate .eq >>= fun _ => pure none : Exec (Option Value)).run m := rfl
  rw [hexecute, bind_run, hrun]

theorem leave_returns (v : Value) : Returns P m (leave v) :=
  .bind frame_returns fun _ _ => .bind (.modify _) fun _ _ => .bind .get fun _ _ => .pure _

theorem execute_returns {op : Opcode} (hop : op ≠ .call) :
    Returns (m.world.heap.AnyKnotted (op.shown 0 m.stack)) m (execute op) := by
  rw [execute.eq_def]
  split
  · exact .bind pop_returns fun _ _ => leave_returns _
  · refine .bind pop_returns fun v _ => .bind (look_returns _) fun u _ => ?_
    split
    · exact .bind (push_returns _) fun _ _ => .pure _
    · exact leave_returns _
    · exact fault_returns (by simp)
  · exact .bind (operate_returns hop) fun _ _ => .pure _

end Exec

namespace Machine

variable {m m' : Machine} {ws : List (List Nat)}

/-- The values that the next instruction compares or prints, if it does any of this. -/
def shown (m : Machine) : List Value :=
  match m.instruction? with
  | some (op, d) => op.shown (d.operands.headD 0) m.stack
  | none => []

variable {L : Listing} {i : Nat} {f : Frame} {fs : List Frame} {w : List Nat} {l : Asm.Line}

theorem Runs.call_returns (h : m.Runs L i f fs w ws) (hi : L.code[i]? = some l) {ns : List Nat}
    (hasm : l.asm = .op .call ns) :
    Exec.Returns (m.world.heap.AnyKnotted (Opcode.shown (ns.headD 0) m.stack .call))
      (m.withFrames (f.skip 1 :: fs)) (Exec.execute .call) := by
  have hgood := h.sound.good hi
  have hahead := h.here.ahead h.sound hi
  rw [hasm] at hgood hahead
  obtain ⟨⟨-, hfits⟩, -⟩ := hgood
  obtain ⟨n, _, hn, hnil, rfl⟩ := List.forall₂_cons_left_iff.mp hfits
  obtain rfl := List.forall₂_nil_left_iff.mp hnil
  have hread := Exec.readByte_run (m := m.withFrames (f.skip 1 :: fs)) rfl hahead.tail
  have hbyte : (UInt8.ofNat n).toNat = n := littleEndian_one (by simpa using hn)
  refine .bind (Exec.readByte_returns.bindOk fun b m' hb => ?_) fun _ _ => .pure _
  obtain ⟨hok, rfl⟩ := Prod.mk.inj (hread.symm.trans hb)
  obtain rfl := Except.ok.inj hok
  rw [hbyte]
  exact Exec.call_returns n

theorem Runs.step_run (h : m.Runs L i f fs w ws) (hi : L.code[i]? = some l) :
    Exec.step.run m = (Exec.execute l.asm.opcode).run (m.withFrames (f.skip 1 :: fs)) := by
  have hahead := h.here.ahead h.sound hi
  have hread : Exec.readByte.run m = (.ok l.asm.opcode.byte, m.withFrames (f.skip 1 :: fs)) := by
    cases hasm : l.asm <;> rw [hasm] at hahead <;> exact Exec.readByte_run h.frames hahead
  rw [Exec.step, Exec.bind_run, hread]
  dsimp only
  rw [Opcode.ofByte?_byte]

theorem Runs.step_returns (h : m.Runs L i f fs w ws) :
    Exec.Returns (m.world.heap.AnyKnotted m.shown) m Exec.step := by
  obtain ⟨l, hi⟩ := h.here.instruction
  have hexecute : Exec.Returns (m.world.heap.AnyKnotted m.shown) (m.withFrames (f.skip 1 :: fs))
      (Exec.execute l.asm.opcode) := by
    rw [shown, h.here.instruction? h.sound hi h.frames]
    by_cases hcall : l.asm.opcode = .call
    · obtain ⟨ns, hasm⟩ : ∃ ns, l.asm = .op .call ns := by
        cases hasm : l.asm with
        | op c ns =>
          rw [hasm] at hcall
          obtain rfl : c = .call := hcall
          exact ⟨ns, rfl⟩
        | _ =>
          rw [hasm] at hcall
          cases hcall
      rw [hasm]
      exact h.call_returns hi hasm
    · have hnone (n : Nat) : l.asm.opcode.shown n m.stack = l.asm.opcode.shown 0 m.stack := by
        generalize l.asm.opcode = op at hcall ⊢
        cases op <;> first | rfl | exact absurd rfl hcall
      dsimp only
      rw [hnone]
      exact Exec.execute_returns hcall
  exact fun hstuck => hexecute ((congrArg Prod.fst (h.step_run hi)).symm.trans hstuck)

theorem outcome_eq_unfinished {e : Failure} (h : m.outcome e = .unfinished) : e = .fault .endless := by
  unfold outcome at h
  split at h
  · rfl
  · cases h

theorem next_ne_crashed : m.next ≠ .inr (.crashed, m') := by
  unfold next
  split
  · exact nofun
  · exact nofun
  · rename_i e _ _
    intro h
    have hcrashed := (Prod.mk.inj (Sum.inr.inj h)).1
    unfold outcome at hcrashed
    split at hcrashed <;> cases hcrashed

theorem Stands.knotted (h : m.Stands ws) (hnext : m.next = .inr (.unfinished, m')) :
    m.world.heap.AnyKnotted m.shown := by
  obtain ⟨L, i, f, fs, w, ws, rfl, hr⟩ := h.runs
  refine hr.step_returns ?_
  have hrun : Exec.step.run.run m = Exec.step.run m := rfl
  rw [hrun]
  rw [Machine.next] at hnext
  generalize Exec.step.run m = x at hnext ⊢
  obtain ⟨r, m''⟩ := x
  cases r with
  | error e => rw [outcome_eq_unfinished (Prod.mk.inj (Sum.inr.inj hnext)).1]
  | ok v => cases v <;> cases hnext

theorem Stands.next_unfinished {v w : Value} {st : List Value} (h : m.Stands ws)
    (hop : m.instruction?.map (·.1) = some .eq) (hstack : m.stack = w :: v :: st)
    (hnone : m.world.heap.equal v w = none) : ∃ m', m.next = .inr (.unfinished, m') := by
  obtain ⟨L, i, f, fs, _, ws, rfl, hr⟩ := h.runs
  obtain ⟨l, hi⟩ := hr.here.instruction
  rw [hr.here.instruction? hr.sound hi hr.frames] at hop
  have hopcode : l.asm.opcode = .eq := Option.some.inj hop
  have hfails : (Exec.step.run m).1 = .error (.fault .endless) := by
    rw [hr.step_run hi, hopcode]
    exact Exec.execute_eq_run (m := m.withFrames (f.skip 1 :: fs)) hstack hnone
  refine ⟨(Exec.step.run m).2, ?_⟩
  rw [Machine.next]
  generalize Exec.step.run m = x at hfails ⊢
  obtain ⟨r, m'⟩ := x
  obtain rfl : r = .error (.fault .endless) := hfails
  rfl

end Machine

end Scripting
