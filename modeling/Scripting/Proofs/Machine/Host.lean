import Scripting.Library.Call

/-!
# Host functions and code

Host functions change arrays, lists and builders, but never a function, an instance or the cell of a
variable: the code that is run and the variables that it shares stay the same whatever they do.
-/

namespace Scripting

/-- The part of a heap that belongs to code. -/
structure Heap.Core where
  funcs : Array Function
  cells : Array Value
  nextId : Nat

def Heap.core (h : Heap) : Heap.Core := ⟨h.funcs, h.cells, h.nextId⟩

def Heap.guarded (h : Heap) : Heap.Core × Array Instance := (h.core, h.insts)

namespace Call

variable {α β : Type}

/-- Whether a host computation leaves the part of the heap alone that belongs to code, and instances. -/
def Leaves (m : Call α) : Prop := ∀ w, (m.run.run w).2.heap.guarded = w.heap.guarded

theorem Leaves.pure (a : α) : Leaves (pure a) := fun _ => rfl

theorem Leaves.bind {m : Call α} {f : α → Call β} (hm : Leaves m) (hf : ∀ a, Leaves (f a)) :
    Leaves (m >>= f) := by
  intro w
  have hrun : (m >>= f).run.run w = ExceptT.bindCont f (m.run.run w).1 (m.run.run w).2 := rfl
  have h := hm w
  rw [hrun]
  generalize m.run.run w = x at h
  obtain ⟨r, w'⟩ := x
  cases r with
  | error e => exact h
  | ok a => exact (hf a w').trans h

theorem Leaves.fail (msg : String) : Leaves (fail msg : Call α) := fun _ => rfl

theorem Leaves.fault (cause : HostFault) : Leaves (fault cause : Call α) := fun _ => rfl

theorem Leaves.look (f : Heap → α) : Leaves (look f) := fun _ => rfl

theorem Leaves.make {f : Heap → α × Heap} (hf : ∀ h, (f h).2.guarded = h.guarded) : Leaves (make f) :=
  fun w => hf w.heap

theorem Leaves.emit (s : String) : Leaves (emit s) := fun _ => rfl

theorem Leaves.mapM {f : α → Call β} (hf : ∀ a, Leaves (f a)) (as : List α) : Leaves (as.mapM f) := by
  induction as with
  | nil => exact .pure _
  | cons a as ih =>
    rw [List.mapM_cons]
    exact .bind (hf a) fun _ => .bind ih fun _ => .pure _

theorem orFault_leaves (x : Except HostFault α) : Leaves (orFault x) := by
  cases x with
  | ok a => exact .pure a
  | error cause => exact .fault cause

theorem textOf_leaves (v : Value) : Leaves (textOf v) := .bind (.look _) fun _ => orFault_leaves _

theorem presentText_leaves (v : Value) : Leaves (presentText v) := by
  cases v with
  | absent => exact .fault _
  | _ => exact textOf_leaves _

theorem arg_leaves (args : List Value) (i : Nat) : Leaves (arg args i) := by
  rw [arg]
  split
  · exact .pure _
  · exact .fault _

theorem asInt_leaves (v : Value) : Leaves (asInt v) := by
  cases v with
  | int n => exact .pure _
  | _ => exact .fault _

theorem asArray_leaves (v : Value) : Leaves (asArray v) := by
  cases v with
  | array r => exact .pure _
  | _ => exact .fault _

theorem asList_leaves (v : Value) : Leaves (asList v) := by
  cases v with
  | host r =>
    refine .bind (.look _) fun o => ?_
    split
    · exact .pure _
    · exact .bind (presentText_leaves _) fun _ => .fail _
  | _ => exact .bind (presentText_leaves _) fun _ => .fail _

theorem asBuilder_leaves (v : Value) : Leaves (asBuilder v) := by
  cases v with
  | host r =>
    refine .bind (.look _) fun o => ?_
    split
    · exact .pure _
    · exact .bind (presentText_leaves _) fun _ => .fail _
  | _ => exact .bind (presentText_leaves _) fun _ => .fail _

theorem enumerate_leaves (v : Value) : Leaves (enumerate v) := by
  cases v with
  | array r => exact .look _
  | host r =>
    refine .bind (.look _) fun o => ?_
    split
    · exact .pure _
    · exact .bind (presentText_leaves _) fun _ => .fail _
  | _ => exact .bind (presentText_leaves _) fun _ => .fail _

theorem onNumber_leaves (f : Float → Float) (args : List Value) : Leaves (onNumber f args) := by
  refine .bind (arg_leaves _ _) fun v => ?_
  split
  · exact .pure _
  · exact .bind (presentText_leaves _) fun _ => .fail _

theorem onText_leaves (f : String → Value) (args : List Value) : Leaves (onText f args) :=
  .bind (arg_leaves _ _) fun _ => .bind (textOf_leaves _) fun _ => .pure _

theorem onTexts_leaves (f : String → String → Bool) (args : List Value) : Leaves (onTexts f args) :=
  .bind (arg_leaves _ _) fun _ => .bind (textOf_leaves _) fun _ => .bind (arg_leaves _ _) fun _ =>
    .bind (textOf_leaves _) fun _ => .pure _

theorem order_leaves (v w : Value) : Leaves (order v w) := by
  rw [order.eq_def]
  split
  · exact .bind (textOf_leaves _) fun _ => .bind (textOf_leaves _) fun _ => .fail _
  · split
    · exact .pure _
    · exact .bind (presentText_leaves _) fun _ => .bind (presentText_leaves _) fun _ => .fail _

theorem pick_leaves (keep : Ordering → Bool) (args : List Value) : Leaves (pick keep args) :=
  .bind (arg_leaves _ _) fun _ => .bind (arg_leaves _ _) fun _ => .bind (order_leaves _ _) fun _ =>
    .pure _

theorem findItem_leaves (r : Ref) (v : Value) : Leaves (findItem r v) :=
  .bind (.look _) fun _ => .bind (.look _) fun _ => orFault_leaves _

end Call

open Call in
theorem Prim.run_leaves (p : Prim) (args : List Value) : Leaves (p.run args) := by
  have first := arg_leaves args 0
  have second := arg_leaves args 1
  cases p with
  | print => exact .bind (.mapM textOf_leaves _) fun _ => .bind (.emit _) fun _ => .pure _
  | concat => exact .bind (.mapM textOf_leaves _) fun _ => .pure _
  | toText => exact first.bind fun _ => .bind (textOf_leaves _) fun _ => .pure _
  | len =>
    refine first.bind fun v => ?_
    split
    · exact .pure _
    · exact .bind (.look _) fun _ => .pure _
    · exact .fault _
    · exact .fail _
  | panic => exact first.bind fun _ => .bind (textOf_leaves _) fun _ => .fail _
  | equals =>
    exact first.bind fun _ => second.bind fun _ => .bind (.look _) fun _ =>
      .bind (orFault_leaves _) fun _ => .pure _
  | typeName =>
    refine first.bind fun v => .bind (.look _) fun t => ?_
    split
    · split
      · exact .pure _
      · exact .fault _
    · exact .fault _
  | absInt => exact first.bind fun _ => .bind (asInt_leaves _) fun _ => .pure _
  | abs | sqrt | floor => exact onNumber_leaves _ _
  | pow => exact first.bind fun _ => second.bind fun _ => .pure _
  | max | min => exact pick_leaves _ _
  | writeLine | write =>
    exact first.bind fun _ => .bind (textOf_leaves _) fun _ => .bind (.emit _) fun _ => .pure _
  | upper | lower | trim | length => exact onText_leaves _ _
  | contains | startsWith | endsWith => exact onTexts_leaves _ _
  | split =>
    exact first.bind fun _ => .bind (textOf_leaves _) fun _ => second.bind fun _ =>
      .bind (textOf_leaves _) fun _ => .make fun _ => rfl
  | push =>
    exact first.bind fun _ => .bind (asArray_leaves _) fun _ => second.bind fun _ =>
      .bind (fun _ => rfl) fun _ => .pure _
  | count =>
    exact first.bind fun _ => .bind (asArray_leaves _) fun _ => .bind (.look _) fun _ => .pure _
  | arrayContains =>
    exact first.bind fun _ => .bind (asArray_leaves _) fun _ => second.bind fun _ =>
      .bind (findItem_leaves _ _) fun _ => .pure _
  | indexOf =>
    refine first.bind fun _ => .bind (asArray_leaves _) fun _ => second.bind fun _ =>
      .bind (findItem_leaves _ _) fun i => ?_
    cases i with
    | some i => exact .pure _
    | none => exact .pure _
  | newBuilder | emptyList => exact .make fun _ => rfl
  | append =>
    exact first.bind fun _ => .bind (asBuilder_leaves _) fun _ => second.bind fun _ =>
      .bind (textOf_leaves _) fun _ => .bind (fun _ => rfl) fun _ => .pure _
  | builderLength | build => exact first.bind fun _ => .bind (asBuilder_leaves _) fun _ => .pure _
  | listOf =>
    exact first.bind fun _ => .bind (asArray_leaves _) fun _ => .bind (.look _) fun _ =>
      .make fun _ => rfl
  | add =>
    exact first.bind fun _ => .bind (asList_leaves _) fun _ => second.bind fun _ =>
      .bind (fun _ => rfl) fun _ => .pure _
  | get =>
    refine first.bind fun _ => .bind (asList_leaves _) fun x => second.bind fun _ =>
      .bind (asInt_leaves _) fun i => ?_
    by_cases hi : i < 0
    · rw [if_pos hi]
      exact .fail _
    · rw [if_neg hi]
      split
      · exact .pure _
      · exact .fail _
  | enumCount => exact first.bind fun _ => .bind (enumerate_leaves _) fun _ => .pure _
  | enumFirst =>
    refine first.bind fun _ => .bind (enumerate_leaves _) fun items => ?_
    split
    · exact .pure _
    · exact .fail _
  | missing key => exact .fail _

end Scripting
