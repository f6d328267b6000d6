import Scripting.Ty.Basic

/-!
# Relations on types

Equality by name, the bases of a type, assignability, and the join of two types.
-/

namespace Scripting.Ty

mutual

def same : Ty → Ty → Bool
  | unknown, unknown => true
  | var x, var y => x == y
  | con c, con d => c.name == d.name
  | app c as, app d bs => c.name == d.name && sameList as bs
  | func ps r v, func qs r' v' => v == v' && sameList ps qs && r.same r'
  | type t, type u => t.same u
  | _, _ => false

def sameList : List Ty → List Ty → Bool
  | [], [] => true
  | t :: ts, u :: us => t.same u && sameList ts us
  | _, _ => false

end

/-- A search for bases: the texts of the types that were met, and the types that wait. -/
structure BaseSearch where
  seen : List String
  queue : List Ty

namespace BaseSearch

/-- The next type that waits, unless it was met before, and how the search goes on: its own bases wait
behind the others. Types are told apart by their texts. -/
def step (bases : Ty → List Ty) (s : BaseSearch) : Option (Option Ty × BaseSearch) :=
  match s.queue with
  | [] => none
  | b :: queue =>
    if s.seen.contains b.text then some (none, ⟨s.seen, queue⟩)
    else some (some b, ⟨b.text :: s.seen, queue ++ bases b⟩)

def GoesOn (bases : Ty → List Ty) (rest s : BaseSearch) : Prop :=
  ∃ taken, s.step bases = some (taken, rest)

/-- Whether a search comes to an end. It need not: there can always be new bases. -/
def Ends (bases : Ty → List Ty) (s : BaseSearch) : Prop := Acc (GoesOn bases) s

/-- The types that a search takes, breadth first. The recursion is good for as long as the search goes
on, and its equations hold where it ends. -/
def found (bases : Ty → List Ty) : BaseSearch → List Ty :=
  WellFounded.partialExtrinsicFix (GoesOn bases) fun s found =>
    match h : s.step bases with
    | none => []
    | some (taken, rest) => taken.toList ++ found rest ⟨taken, h⟩

variable {bases : Ty → List Ty} {s rest : BaseSearch} {taken : Option Ty}

theorem ends_of_done (h : s.step bases = none) : s.Ends bases :=
  Acc.intro s fun r hr => by simp [GoesOn, h] at hr

theorem ends_of_step (h : s.step bases = some (taken, rest)) (hrest : rest.Ends bases) :
    s.Ends bases := by
  refine Acc.intro s fun r hr => ?_
  obtain ⟨_, hr⟩ := hr
  rw [h] at hr
  cases hr
  exact hrest

theorem found_of_done (h : s.step bases = none) : found bases s = [] := by
  rw [found, WellFounded.partialExtrinsicFix_eq_apply_of_acc (ends_of_done h)]
  split
  · rfl
  · rename_i h'
    simp [h] at h'

theorem found_of_step (h : s.step bases = some (taken, rest)) (hrest : rest.Ends bases) :
    found bases s = taken.toList ++ found bases rest := by
  rw [found, WellFounded.partialExtrinsicFix_eq_apply_of_acc (ends_of_step h hrest)]
  split
  · rename_i h'
    simp [h] at h'
  · rename_i h'
    rw [h] at h'
    cases h'
    rfl

end BaseSearch

def allBases (bases : Ty → List Ty) (t : Ty) : List Ty := BaseSearch.found bases ⟨[], bases t⟩

/-- The bases of a type, if each of them has a text by which it is told apart. -/
def allBases? (bases : Ty → List Ty) (t : Ty) : Option (List Ty) :=
  let found := allBases bases t
  if found.all hasText then some found else none

def agreeArgs : List Ty → List Ty → Bool
  | [], [] => true
  | t :: ts, u :: us => (t.isAny || u.isAny || t.same u) && agreeArgs ts us
  | _, _ => false

def agreeApps : Ty → Ty → Bool
  | app c ts, app d us => c.name == d.name && agreeArgs ts us
  | _, _ => false

/-- Whether a value may be stored without looking at the bases of its type: `Any` is accepted either
way, also as a type argument. -/
def assignableDirectly (target value : Ty) : Bool :=
  target.isAny || value.isAny || target.same value || agreeApps target value

/-- Whether a value of type `value` may be stored where `target` is expected: directly, or because
`target` is a base of its type. -/
def assignable (bases : Ty → List Ty) (target value : Ty) : Bool :=
  !target.isUnknown && !value.isUnknown &&
    (assignableDirectly target value || (allBases bases value).any fun b => target.same b)

/-- `assignable`, with no answer where it hangs on bases that cannot be told apart. -/
def assignable? (bases : Ty → List Ty) (target value : Ty) : Option Bool :=
  if target.isUnknown || value.isUnknown then some false
  else if assignableDirectly target value then some true
  else (allBases? bases value).map fun found => found.any fun b => target.same b

mutual

/-- The type of a value that has one of two types. Nothing is widened: `Any` absorbs the other side
at the top, and yields to it as a type argument. -/
def join : Ty → Ty → Option Ty
  | app c ts, u =>
    if (app c ts).same u then some (app c ts)
    else if u.isAny then some any
    else match u with
      | app d us =>
        if c.name == d.name then (joinArgs ts us).map (app c) else none
      | _ => none
  | t, u => if t.same u then some t else if t.isAny || u.isAny then some any else none

def joinArgs : List Ty → List Ty → Option (List Ty)
  | [], [] => some []
  | t :: ts, u :: us =>
    if t.isAny then (joinArgs ts us).map (u :: ·)
    else if u.isAny then (joinArgs ts us).map (t :: ·)
    else (t.join u).bind fun j => (joinArgs ts us).map (j :: ·)
  | _, _ => none

end

end Scripting.Ty
