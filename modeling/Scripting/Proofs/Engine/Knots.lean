import Scripting.Proofs.Engine.Sessions
import Scripting.Proofs.Machine.Answers

/-!
# A record that is stored in itself
-/

namespace Scripting

namespace Engine

def knot : String := "type Node { next: Any }\nlet n = Node { next = 0 }\nn.next = n"

def outcomeAfter (e : Engine) (script : Ref) (n : Nat) : Option (Outcome × Machine) := do
  let f ← e.heap.func? script
  let chunk ← f.chunk
  match (e.machine.enter f chunk 0).after n with
  | .inl _ => none
  | .inr x => some x

theorem run_of_outcomeAfter {e : Engine} {r : Ref} {n : Nat} {o : Outcome} {m : Machine}
    (h : e.outcomeAfter r n = some (o, m)) : e.run r 0 = (o, { e with machine := m }) := by
  obtain ⟨f, hf, h⟩ := Option.bind_eq_some_iff.mp h
  obtain ⟨chunk, hchunk, h⟩ := Option.bind_eq_some_iff.mp h
  have hfinish : (e.machine.enter f chunk 0).finish = (o, m) := by
    generalize hx : (e.machine.enter f chunk 0).after n = x at h
    cases x with
    | inl m' => cases h
    | inr x =>
      obtain rfl := Option.some.inj h
      exact Machine.finish_of_after hx
  have hrun : e.machine.run f 0 = (o, m) := by
    rw [Machine.run, hchunk]
    exact hfinish
  rw [run, hf]
  dsimp only
  rw [hrun]

def isKnot (h : Heap) (r : Ref) : Bool :=
  match h.inst? r with
  | some ⟨_, _, _, ⟨.inst s :: _⟩⟩ => s == r
  | _ => false

theorem exists_of_isKnot {h : Heap} {r : Ref} (hr : isKnot h r = true) :
    ∃ i rest, h.inst? r = some i ∧ i.fields.toList = .inst r :: rest := by
  unfold isKnot at hr
  split at hr
  · rename_i s rest hi
    obtain rfl : s = r := by simpa using hr
    exact ⟨_, rest, hi, rfl⟩
  · cases hr

def givesKnot : Option (Outcome × Machine) → Bool
  | some (.value (.inst r), m) => isKnot m.world.heap r
  | _ => false

theorem exists_of_givesKnot {x : Option (Outcome × Machine)} (h : givesKnot x = true) :
    ∃ r m i rest, x = some (.value (.inst r), m) ∧ m.world.heap.inst? r = some i ∧
      i.fields.toList = .inst r :: rest := by
  unfold givesKnot at h
  split at h
  · rename_i r m
    obtain ⟨i, rest, hi, hfields⟩ := exists_of_isKnot h
    exact ⟨r, m, i, rest, rfl, hi, hfields⟩
  · cases h

/-- Printing the value of a program does not end, nor does comparing it, if it is a record that is its
own first field. -/
theorem endless_of_givesKnot {e : Engine} {text : String} {n : Nat}
    (hknot : (match e.compile text "a.jz" with
      | (.ok r, e) => givesKnot (e.outcomeAfter r n)
      | (.error _, _) => false) = true) :
    ∃ v e', e.extend text "a.jz" 0 = (.ran (.value v), e') ∧
      e'.heap.inspect v = .error .endless ∧ e'.heap.equal v v = none := by
  unfold extend
  generalize e.compile text "a.jz" = x at hknot ⊢
  obtain ⟨script, e'⟩ := x
  cases script with
  | error ds => cases hknot
  | ok r =>
    obtain ⟨k, m, i, rest, houtcome, hi, hfields⟩ := exists_of_givesKnot hknot
    refine ⟨.inst k, { e' with machine := m }, ?_, ?_, Heap.equalFrom_self_eq_none hi hfields⟩
    · dsimp only
      rw [run_of_outcomeAfter houtcome]
    · have hfollows : Heap.Follows m.world.heap (.inst k) (.inst k) :=
        ⟨[], rest, by simp [Heap.parts, hi, hfields], by simp⟩
      exact Heap.inspect_eq_endless_iff.mpr ⟨.inst k, .refl, .single hfollows⟩

/-- Only `loop` goes backward, and a run executes one `loop` more than its budget at most. It gives a value
or fails, unless it comes to an instruction that compares or prints a value in which an object that holds
itself is met. -/
theorem script_stops {e : Engine} {bs : List Compiled} (h : e.Session bs) {b : Compiled} (hb : b ∈ bs) :
    (∀ x ∈ e.heap.funcs, ∀ chunk, x.chunk = some chunk → chunk.Forward) ∧
      ∀ budget, ∃ script chunk n o m, e.heap.func? b.script = some script ∧ script.chunk = some chunk ∧
        (e.machine.enter script chunk budget).Ends n o m ∧ n ≤ budget + 1 ∧
          e.run b.script budget = (o, { e with machine := m }) ∧
            ((∃ v, o = .value v) ∨ (∃ d, o = .failed d) ∨
              o = .unfinished ∧ ∃ m' ws, (e.machine.enter script chunk budget).Passes m' ws ∧
                m'.next = .inr (.unfinished, m) ∧ m'.world.heap.AnyKnotted m'.shown) := by
  refine ⟨fun x hx chunk hchunk => ?_, fun budget => ?_⟩
  · exact (h.ready.verified x hx).forward (h.ready.short x hx) hchunk
  · obtain ⟨x, chunk, n, o, m, hx, hchunk, hstands, hends, hn, hrun⟩ := h.ready.run_ends hb budget
    refine ⟨x, chunk, n, o, m, hx, hchunk, hends, hn, hrun, ?_⟩
    obtain ⟨m', ws, hpasses, hlast⟩ := hends.exists_last .start
    cases o with
    | value v => exact .inl ⟨v, rfl⟩
    | failed d => exact .inr (.inl ⟨d, rfl⟩)
    | crashed => exact absurd hlast Machine.next_ne_crashed
    | unfinished =>
      exact .inr (.inr ⟨rfl, m', ws, hpasses, hlast, (hpasses.stands hstands).knotted hlast⟩)

theorem counter_stops : ∃ b e script chunk n o m, plain.compile counter "a.jz" = (.ok b.script, e) ∧
    e.Session [b] ∧ e.heap.func? b.script = some script ∧ script.chunk = some chunk ∧
      (e.machine.enter script chunk 3).Ends n o m ∧ n ≤ 4 ∧
        e.run b.script 3 = (o, { e with machine := m }) := by
  obtain ⟨b, e, script, chunk, -, hcompile, hsession, hscript, hchunk, -⟩ := reaches_session counter_reaches
  obtain ⟨-, hstops⟩ := script_stops hsession List.mem_cons_self
  obtain ⟨script', chunk', n, o, m, hscript', hchunk', hends, hn, hrun, -⟩ := hstops 3
  obtain rfl := Option.some.inj (hscript.symm.trans hscript')
  obtain rfl := Option.some.inj (hchunk.symm.trans hchunk')
  exact ⟨b, e, script, chunk, n, o, m, hcompile, hsession, hscript, hchunk, hends, hn, hrun⟩

def knotCompared : String := "type Node \x7b next: Any \x7d\nlet n = Node \x7b next = 0 \x7d\nn.next = n\nn == n"

/-- Whether a record with itself in its first field is compared with itself next. -/
def comparesKnot (m : Machine) : Bool :=
  m.instruction?.map (·.1) == some .eq &&
    match m.stack with
    | .inst r :: .inst s :: _ => s == r && isKnot m.world.heap r
    | _ => false

theorem exists_of_comparesKnot {m : Machine} (h : comparesKnot m = true) : ∃ r st,
    m.instruction?.map (·.1) = some .eq ∧ m.stack = .inst r :: .inst r :: st ∧
      ∀ n, m.world.heap.equalFrom n (.inst r) (.inst r) = none := by
  obtain ⟨heq, hstack⟩ := Bool.and_eq_true_iff.mp h
  split at hstack
  · rename_i r s st hm
    obtain ⟨hs, hknot⟩ := Bool.and_eq_true_iff.mp hstack
    obtain rfl : s = r := beq_iff_eq.mp hs
    obtain ⟨i, rest, hi, hfields⟩ := exists_of_isKnot hknot
    exact ⟨s, st, beq_iff_eq.mp heq, hm, fun n => Heap.equalFrom_self_eq_none hi hfields⟩
  · cases hstack

/-- The run of a script that compares such a record never ends. -/
theorem knot_unfinished : ∃ b e script chunk m m' ws r, plain.compile knotCompared "a.jz" = (.ok b.script, e) ∧
    e.Session [b] ∧ e.heap.func? b.script = some script ∧ script.chunk = some chunk ∧
      (e.machine.enter script chunk 0).Passes m ws ∧ m.shown = [.inst r, .inst r] ∧
        (∀ n, m.world.heap.equalFrom n (.inst r) (.inst r) = none) ∧ m.next = .inr (.unfinished, m') ∧
          e.run b.script 0 = (.unfinished, { e with machine := m' }) := by
  have hreaches : reaches knotCompared 0 29 comparesKnot = true := by decide +kernel
  obtain ⟨b, e, script, chunk, m, hcompile, hsession, hscript, hchunk, hafter, hm⟩ := reaches_session hreaches
  obtain ⟨r, st, hinstruction, hstack, hnone⟩ := exists_of_comparesKnot hm
  obtain ⟨ws, hpasses⟩ := Machine.Passes.start.after hafter
  have hstands : m.Stands ws := by
    obtain ⟨x, c, -, -, -, hx, hc, hstands, -⟩ := hsession.ready.run_ends List.mem_cons_self 0
    obtain rfl := Option.some.inj (hscript.symm.trans hx)
    obtain rfl := Option.some.inj (hchunk.symm.trans hc)
    exact hpasses.stands hstands
  obtain ⟨m', hnext⟩ := hstands.next_unfinished hinstruction hstack (hnone _)
  have hshown : m.shown = [.inst r, .inst r] := by
    obtain ⟨⟨op, d⟩, hd, rfl⟩ := Option.map_eq_some_iff.mp hinstruction
    rw [Machine.shown, hd, hstack]
    rfl
  have hfinish := Machine.finish_of_after (Machine.after_last hafter hnext)
  refine ⟨b, e, script, chunk, m, m', ws, r, hcompile, hsession, hscript, hchunk, hpasses, hshown, hnone,
    hnext, ?_⟩
  rw [run, hscript]
  dsimp only
  rw [Machine.run, hchunk]
  dsimp only
  rw [hfinish]

end Engine

end Scripting
