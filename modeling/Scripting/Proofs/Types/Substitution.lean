import Mathlib.Logic.Relation
import Scripting.Proofs.Types.Binding

/-!
# Substitution comes to an end

`Replaces` is the recursion of substitution as a relation: a variable is looked up, and what it stands
for is substituted in turn, but never inside its own replacement. A derivation is a run of that recursion
that ends, so that every type has one is termination (`replaces_apply`), and the bound that
`Subst.applyUpTo` counts down is never met.

Where no variable reaches itself, no variable is ever met inside its own replacement, and every variable
that is left over stands for nothing (`Replaces.settled`).
-/

namespace Scripting

open Ty

namespace Subst

variable {s : Subst}

mutual

/-- Substituting into a type, inside the replacements of the variables `inside`, ends with a type. -/
inductive Replaces (s : Subst) : List String → Ty → Ty → Prop where
  | unknown {inside} : Replaces s inside unknown unknown
  | con {inside c} : Replaces s inside (con c) (con c)
  | inside {inside x} : x ∈ inside → Replaces s inside (var x) (var x)
  | free {inside x} : x ∉ inside → s.lookup x = none → Replaces s inside (var x) (var x)
  | bound {inside x r u} : x ∉ inside → s.lookup x = some r → Replaces s (x :: inside) r u →
      Replaces s inside (var x) u
  | app {inside c ts us} : ReplacesAll s inside ts us → Replaces s inside (app c ts) (app c us)
  | func {inside ps qs r u v} : ReplacesAll s inside ps qs → Replaces s inside r u →
      Replaces s inside (func ps r v) (func qs u v)
  | type {inside t u} : Replaces s inside t u → Replaces s inside (type t) (type u)

/-- The same for each type of a list. -/
inductive ReplacesAll (s : Subst) : List String → List Ty → List Ty → Prop where
  | nil {inside} : ReplacesAll s inside [] []
  | cons {inside t u ts us} : Replaces s inside t u → ReplacesAll s inside ts us →
      ReplacesAll s inside (t :: ts) (u :: us)

end

mutual

theorem Replaces.unique {inside : List String} {t u u' : Ty} :
    Replaces s inside t u → Replaces s inside t u' → u = u'
  | .unknown, .unknown => rfl
  | .con, .con => rfl
  | .inside _, .inside _ => rfl
  | .inside h, .free h' _ => absurd h h'
  | .inside h, .bound h' _ _ => absurd h h'
  | .free h _, .inside h' => absurd h' h
  | .free _ _, .free _ _ => rfl
  | .free _ h, .bound _ h' _ => by simp [h] at h'
  | .bound h _ _, .inside h' => absurd h' h
  | .bound _ h _, .free _ h' => by simp [h] at h'
  | .bound _ h hr, .bound _ h' hr' => by
    rw [h] at h'
    cases h'
    exact hr.unique hr'
  | .app h, .app h' => by rw [h.unique h']
  | .func hps hr, .func hps' hr' => by rw [hps.unique hps', hr.unique hr']
  | .type h, .type h' => by rw [h.unique h']

theorem ReplacesAll.unique {inside : List String} {ts us us' : List Ty} :
    ReplacesAll s inside ts us → ReplacesAll s inside ts us' → us = us'
  | .nil, .nil => rfl
  | .cons h hs, .cons h' hs' => by rw [h.unique h', hs.unique hs']

end

mutual

theorem replaces_mapVars {inside : List String} {f : String → Ty} : (t : Ty) →
    (∀ x ∈ t.vars, Replaces s inside (var x) (f x)) → Replaces s inside t (t.mapVars f)
  | unknown, _ => .unknown
  | var x, h => h x (by simp [vars])
  | con _, _ => .con
  | app c ts, h => .app (replacesAll_mapVars ts h)
  | func ps r v, h =>
    .func (replacesAll_mapVars ps fun x hx => h x (by simp [vars, hx]))
      (replaces_mapVars r fun x hx => h x (by simp [vars, hx]))
  | type t, h => .type (replaces_mapVars t h)

theorem replacesAll_mapVars {inside : List String} {f : String → Ty} : (ts : List Ty) →
    (∀ x ∈ varsOfList ts, Replaces s inside (var x) (f x)) →
      ReplacesAll s inside ts (mapVarsList f ts)
  | [], _ => .nil
  | t :: ts, h =>
    .cons (replaces_mapVars t fun x hx => h x (by simp [varsOfList, hx]))
      (replacesAll_mapVars ts fun x hx => h x (by simp [varsOfList, hx]))

end

/-- The entries for variables that nothing is put in for yet: each replacement uses one up. -/
def unused (s : Subst) (inside : List String) : Subst := s.filter fun e => !inside.contains e.1

theorem unused_cons_lt {inside : List String} {x : String} {r : Ty} (hx : x ∉ inside)
    (h : s.lookup x = some r) : (s.unused (x :: inside)).length < (s.unused inside).length := by
  have hrefine : s.unused (x :: inside) = (s.unused inside).filter fun e => e.1 != x := by
    simp only [unused, List.filter_filter, List.contains_cons, Bool.not_or]
    rfl
  rw [hrefine, List.length_filter_lt_length_iff_exists]
  exact ⟨(x, r), by simp [unused, mem_of_lookup h, hx], by simp⟩

theorem replaces_applyUpTo (n : Nat) (inside : List String) (t : Ty)
    (h : (s.unused inside).length ≤ n) : Replaces s inside t (s.applyUpTo n inside t) := by
  induction n generalizing inside t with
  | zero =>
    -- Every variable with a replacement is inside it already.
    have hvar : ∀ x, Replaces s inside (var x) (var x) := by
      intro x
      by_cases hx : x ∈ inside
      · exact .inside hx
      · cases hr : s.lookup x with
        | none => exact .free hx hr
        | some r => exact absurd (unused_cons_lt hx hr) (by omega)
    simpa [applyUpTo] using replaces_mapVars (f := var) t fun x _ => hvar x
  | succ n ih =>
    refine replaces_mapVars t fun x _ => ?_
    by_cases hx : x ∈ inside
    · simpa [hx] using Replaces.inside hx
    · cases hr : s.lookup x with
      | none => simpa [hx] using Replaces.free hx hr
      | some r =>
        have hlt := unused_cons_lt hx hr
        simpa [hx] using Replaces.bound hx hr (ih (x :: inside) r (by omega))

theorem replaces_apply (s : Subst) (t : Ty) : Replaces s [] t (s.apply t) :=
  replaces_applyUpTo s.length [] t (List.length_filter_le _ _)

def Refers (s : Subst) (x y : String) : Prop := ∃ r, s.lookup x = some r ∧ y ∈ r.vars

/-- No variable reaches itself through the types it stands for. -/
def Acyclic (s : Subst) : Prop := ∀ x, ¬ Relation.TransGen (Refers s) x x

theorem acyclic_of_rank (rank : String → Nat) (h : ∀ x y, Refers s x y → rank y < rank x) :
    s.Acyclic := by
  have hlt : ∀ x y, Relation.TransGen (Refers s) x y → rank y < rank x := by
    intro x y hxy
    induction hxy with
    | single hstep => exact h _ _ hstep
    | tail _ hstep ih => exact Nat.lt_trans (h _ _ hstep) ih
  exact fun x hx => Nat.lt_irrefl _ (hlt x x hx)

def ReachedFrom (s : Subst) (inside xs : List String) : Prop :=
  ∀ y ∈ inside, ∀ x ∈ xs, Relation.TransGen (Refers s) y x

theorem ReachedFrom.mono {inside xs ys : List String} (h : ReachedFrom s inside ys) (hsub : xs ⊆ ys) :
    ReachedFrom s inside xs := fun y hy x hx => h y hy x (hsub hx)

theorem ReachedFrom.bound {inside : List String} {x : String} {r : Ty}
    (h : ReachedFrom s inside [x]) (hr : s.lookup x = some r) : ReachedFrom s (x :: inside) r.vars := by
  intro y hy z hz
  have hstep : Refers s x z := ⟨r, hr, hz⟩
  cases hy with
  | head => exact .single hstep
  | tail _ hy => exact (h y hy x (List.mem_singleton_self x)).tail hstep

mutual

theorem Replaces.settled {inside : List String} {t u : Ty} (hs : s.Acyclic) :
    Replaces s inside t u → ReachedFrom s inside t.vars → ∀ x ∈ u.vars, s.lookup x = none
  | .unknown, _ => by simp [vars]
  | .con, _ => by simp [vars]
  | .inside hx, h => absurd (h _ hx _ (by simp [vars])) (hs _)
  | .free _ hx, _ => by simpa [vars] using hx
  | .bound _ hr hu, h => hu.settled hs (h.bound hr)
  | .app hu, h => hu.settled hs h
  | .func hps hr, h => by
    intro x hx
    rcases List.mem_append.mp hx with hx | hx
    · exact hps.settled hs (h.mono (List.subset_append_left _ _)) x hx
    · exact hr.settled hs (h.mono (List.subset_append_right _ _)) x hx
  | .type hu, h => fun x hx => hu.settled hs h x hx

theorem ReplacesAll.settled {inside : List String} {ts us : List Ty} (hs : s.Acyclic) :
    ReplacesAll s inside ts us → ReachedFrom s inside (varsOfList ts) →
      ∀ x ∈ varsOfList us, s.lookup x = none
  | .nil, _ => by simp [varsOfList]
  | .cons hu hus, h => by
    intro x hx
    rcases List.mem_append.mp hx with hx | hx
    · exact hu.settled hs (h.mono (List.subset_append_left _ _)) x hx
    · exact hus.settled hs (h.mono (List.subset_append_right _ _)) x hx

end

theorem apply_settled (hs : s.Acyclic) (t : Ty) : ∀ x ∈ (s.apply t).vars, s.lookup x = none :=
  (replaces_apply s t).settled hs fun _ hy => by simp at hy

theorem apply_of_free {t : Ty} (h : ∀ x ∈ t.vars, s.lookup x = none) : s.apply t = t := by
  have hkeep : Replaces s [] t (t.mapVars var) :=
    replaces_mapVars t fun x hx => .free (by simp) (h x hx)
  rw [mapVars_var] at hkeep
  exact (replaces_apply s t).unique hkeep

/-- `Any` for each of some variables. -/
def anyFor (xs : List String) : Subst := xs.map fun x => (x, any)

theorem lookup_anyFor {xs : List String} {x : String} (hx : x ∈ xs) : (anyFor xs).lookup x = some any := by
  induction xs with
  | nil => simp at hx
  | cons y ys ih =>
    by_cases hxy : x = y
    · simp [anyFor, hxy]
    · have hys : x ∈ ys := by simpa [hxy] using hx
      simpa [anyFor, List.lookup_cons, beq_eq_false_iff_ne.mpr hxy] using ih hys

mutual

theorem vars_mapVars_any : (t : Ty) → (t.mapVars fun _ => any).vars = []
  | unknown => rfl
  | var _ => rfl
  | con _ => rfl
  | app _ ts => varsOfList_mapVars_any ts
  | func ps r v => by simp [mapVars, vars, varsOfList_mapVars_any ps, vars_mapVars_any r]
  | type t => vars_mapVars_any t

theorem varsOfList_mapVars_any : (ts : List Ty) → varsOfList (mapVarsList (fun _ => any) ts) = []
  | [] => rfl
  | t :: ts => by simp [mapVarsList, varsOfList, vars_mapVars_any t, varsOfList_mapVars_any ts]

end

theorem close_eq_apply (t : Ty) : t.close = (anyFor t.orAny.freeVars).apply t.orAny := by
  have hclose : Replaces (anyFor t.orAny.freeVars) [] t.orAny t.close :=
    replaces_mapVars t.orAny fun x hx =>
      .bound (by simp) (lookup_anyFor (List.mem_eraseDups.mpr hx)) .con
  exact hclose.unique (replaces_apply _ _)

theorem vars_close (t : Ty) : t.close.vars = [] := vars_mapVars_any t.orAny

/-- Substitution comes to an end with one type, for cyclic substitutions as well. If no variable reaches
itself, nothing is left to replace in the result; and a closed type has no variables. -/
theorem apply_settles (s : Subst) (t : Ty) :
    (∀ u, Replaces s [] t u ↔ u = s.apply t) ∧
    (s.Acyclic → (∀ x ∈ (s.apply t).vars, s.lookup x = none) ∧ s.apply (s.apply t) = s.apply t) ∧
    t.close = (anyFor t.orAny.freeVars).apply t.orAny ∧ t.close.freeVars = [] := by
  refine ⟨fun u => ⟨fun hu => hu.unique (replaces_apply s t), ?_⟩, fun hs => ?_, close_eq_apply t, ?_⟩
  · rintro rfl
    exact replaces_apply s t
  · have hleft := apply_settled hs t
    exact ⟨hleft, apply_of_free hleft⟩
  · simp [freeVars, vars_close t]

/-- `T` stands for a list of `U`, and `U` for a function of `V`. -/
def chain : Subst := [("T", arrayOf (var "U")), ("U", func [var "V"] int false)]

theorem chain_acyclic : chain.Acyclic := by
  refine acyclic_of_rank (fun x => if x = "T" then 2 else if x = "U" then 1 else 0) ?_
  rintro x y ⟨r, hr, hy⟩
  obtain ⟨rfl, rfl⟩ | ⟨rfl, rfl⟩ : (x = "T" ∧ r = arrayOf (var "U")) ∨
      (x = "U" ∧ r = func [var "V"] int false) := by
    by_cases hT : x = "T"
    · subst hT
      exact .inl ⟨rfl, Option.some.inj (hr.symm.trans rfl)⟩
    · by_cases hU : x = "U"
      · subst hU
        exact .inr ⟨rfl, Option.some.inj (hr.symm.trans rfl)⟩
      · simp [chain, List.lookup_cons, beq_eq_false_iff_ne.mpr hT, beq_eq_false_iff_ne.mpr hU] at hr
  · obtain rfl : y = "U" := by simpa [arrayOf, vars, varsOfList] using hy
    decide
  · obtain rfl : y = "V" := by simpa [int, vars, varsOfList] using hy
    decide

theorem apply_settles_chain : chain.Acyclic ∧
    chain.apply (resultOf (var "T") (var "U")) =
      resultOf (arrayOf (func [var "V"] int false)) (func [var "V"] int false) ∧
    ∀ x ∈ (chain.apply (resultOf (var "T") (var "U"))).vars, chain.lookup x = none :=
  ⟨chain_acyclic, rfl, ((apply_settles chain (resultOf (var "T") (var "U"))).2.1 chain_acyclic).1⟩

/-- Two variables that stand for each other's lists: each is followed once. -/
example : Subst.apply [("T", arrayOf (var "U")), ("U", arrayOf (var "T"))] (var "T") =
    arrayOf (arrayOf (var "T")) := rfl

end Subst

end Scripting
