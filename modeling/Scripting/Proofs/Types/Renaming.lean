import Mathlib.Data.List.Basic
import Scripting.Proofs.Types.Join
import Scripting.Ty.Bind

/-!
# Closed types and renaming

A closed type has no type variables, so substitution leaves it alone, and a type of any kind that is
equal to a closed one is closed itself. That is why no relation to a closed type can tell how the
variables of the other side are named (`same_rename`, `assignable?_rename`).
-/

namespace Scripting.Ty

theorem mapVarsList_eq_map (f : String → Ty) (ts : List Ty) : mapVarsList f ts = ts.map (mapVars f) := by
  induction ts with
  | nil => rfl
  | cons t ts ih => simp [mapVarsList, ih]

theorem varsOfList_eq_flatMap (ts : List Ty) : varsOfList ts = ts.flatMap vars := by
  induction ts with
  | nil => rfl
  | cons t ts ih => simp [varsOfList, ih]

mutual

theorem mapVars_congr {f g : String → Ty} : (t : Ty) → (∀ x ∈ t.vars, f x = g x) →
    t.mapVars f = t.mapVars g
  | unknown, _ => rfl
  | var x, h => h x (by simp [vars])
  | con _, _ => rfl
  | app c ts, h => by simp [mapVars, mapVarsList_congr ts h]
  | func ps r v, h => by
    have hps : ∀ x ∈ varsOfList ps, f x = g x := fun x hx => h x (by simp [vars, hx])
    have hr : ∀ x ∈ r.vars, f x = g x := fun x hx => h x (by simp [vars, hx])
    simp [mapVars, mapVarsList_congr ps hps, mapVars_congr r hr]
  | type t, h => by simp [mapVars, mapVars_congr t h]

theorem mapVarsList_congr {f g : String → Ty} : (ts : List Ty) → (∀ x ∈ varsOfList ts, f x = g x) →
    mapVarsList f ts = mapVarsList g ts
  | [], _ => rfl
  | t :: ts, h => by
    have ht : ∀ x ∈ t.vars, f x = g x := fun x hx => h x (by simp [varsOfList, hx])
    have hts : ∀ x ∈ varsOfList ts, f x = g x := fun x hx => h x (by simp [varsOfList, hx])
    simp [mapVarsList, mapVars_congr t ht, mapVarsList_congr ts hts]

end

mutual

@[simp] theorem mapVars_var : (t : Ty) → t.mapVars var = t
  | unknown => rfl
  | var _ => rfl
  | con _ => rfl
  | app c ts => by simp [mapVars, mapVarsList_var ts]
  | func ps r v => by simp [mapVars, mapVarsList_var ps, mapVars_var r]
  | type t => by simp [mapVars, mapVars_var t]

theorem mapVarsList_var : (ts : List Ty) → mapVarsList var ts = ts
  | [] => rfl
  | t :: ts => by simp [mapVarsList, mapVars_var t, mapVarsList_var ts]

end

mutual

theorem mapVars_mapVars (f g : String → Ty) : (t : Ty) →
    (t.mapVars f).mapVars g = t.mapVars fun x => (f x).mapVars g
  | unknown => rfl
  | var _ => rfl
  | con _ => rfl
  | app c ts => by simp [mapVars, mapVarsList_mapVars f g ts]
  | func ps r v => by simp [mapVars, mapVarsList_mapVars f g ps, mapVars_mapVars f g r]
  | type t => by simp [mapVars, mapVars_mapVars f g t]

theorem mapVarsList_mapVars (f g : String → Ty) : (ts : List Ty) →
    mapVarsList g (mapVarsList f ts) = mapVarsList (fun x => (f x).mapVars g) ts
  | [] => rfl
  | t :: ts => by simp [mapVarsList, mapVars_mapVars f g t, mapVarsList_mapVars f g ts]

end

/-- A type without type variables. -/
def Closed (t : Ty) : Prop := t.vars = []

theorem closed_app {c : TyCon} {ts : List Ty} : Closed (app c ts) ↔ ∀ t ∈ ts, Closed t := by
  simp [Closed, vars, varsOfList_eq_flatMap]

theorem closed_func {ps : List Ty} {r : Ty} {v : Bool} :
    Closed (func ps r v) ↔ (∀ p ∈ ps, Closed p) ∧ Closed r := by
  simp [Closed, vars, varsOfList_eq_flatMap]

theorem Closed.mapVars {t : Ty} (h : Closed t) (f : String → Ty) : t.mapVars f = t := by
  have hnone : ∀ x ∈ t.vars, f x = var x := by simp [h.symm ▸ List.not_mem_nil]
  rw [mapVars_congr t hnone, mapVars_var]

mutual

theorem vars_unnumbered : (t : Ty) → t.unnumbered.vars = t.vars
  | unknown => rfl
  | var _ => rfl
  | con _ => rfl
  | app c ts => by simp [unnumbered, vars, varsOfList_unnumbered ts]
  | func ps r v => by simp [unnumbered, vars, varsOfList_unnumbered ps, vars_unnumbered r]
  | type t => by simp [unnumbered, vars, vars_unnumbered t]

theorem varsOfList_unnumbered : (ts : List Ty) → varsOfList (unnumberedList ts) = varsOfList ts
  | [] => rfl
  | t :: ts => by simp [unnumberedList, varsOfList, vars_unnumbered t, varsOfList_unnumbered ts]

end

theorem vars_of_same {t u : Ty} (h : t.same u = true) : t.vars = u.vars := by
  rw [← vars_unnumbered t, (same_iff t u).mp h, vars_unnumbered]

/-- A type with other names for its type variables. -/
def rename (σ : String → String) (t : Ty) : Ty := t.mapVars fun x => var (σ x)

variable (σ : String → String)

mutual

theorem vars_rename : (t : Ty) → (t.rename σ).vars = t.vars.map σ
  | unknown => rfl
  | var _ => rfl
  | con _ => rfl
  | app c ts => by simp only [rename, mapVars, vars, varsOfList_rename ts]
  | func ps r v => by
    have hr : (r.mapVars fun x => var (σ x)).vars = r.vars.map σ := vars_rename r
    simp only [rename, mapVars, vars, varsOfList_rename ps, hr, List.map_append]
  | type t => by
    have ht : (t.mapVars fun x => var (σ x)).vars = t.vars.map σ := vars_rename t
    simp only [rename, mapVars, vars, ht]

theorem varsOfList_rename : (ts : List Ty) →
    varsOfList (mapVarsList (fun x => var (σ x)) ts) = (varsOfList ts).map σ
  | [] => rfl
  | t :: ts => by
    have ht : (t.mapVars fun x => var (σ x)).vars = t.vars.map σ := vars_rename t
    simp only [mapVarsList, varsOfList, ht, varsOfList_rename ts, List.map_append]

end

theorem closed_rename {t : Ty} : Closed (t.rename σ) ↔ Closed t := by
  simp [Closed, vars_rename]

theorem rename_closed {t : Ty} (h : Closed t) : t.rename σ = t := h.mapVars _

theorem rename_app (c : TyCon) (ts : List Ty) :
    (app c ts).rename σ = app c (ts.map (rename σ)) := by
  simp only [rename, mapVars, mapVarsList_eq_map]
  rfl

theorem rename_func (ps : List Ty) (r : Ty) (v : Bool) :
    (func ps r v).rename σ = func (ps.map (rename σ)) (r.rename σ) v := by
  simp only [rename, mapVars, mapVarsList_eq_map]
  rfl

@[simp] theorem isAny_rename (t : Ty) : (t.rename σ).isAny = t.isAny := by cases t <;> rfl

@[simp] theorem isUnknown_rename (t : Ty) : (t.rename σ).isUnknown = t.isUnknown := by cases t <;> rfl

mutual

theorem isWhole_rename : (t : Ty) → (t.rename σ).isWhole = t.isWhole
  | unknown => rfl
  | var _ => rfl
  | con _ => rfl
  | app c ts => areWhole_rename ts
  | func ps r v => by
    have hr : (r.mapVars fun x => var (σ x)).isWhole = r.isWhole := isWhole_rename r
    have hu : (r.mapVars fun x => var (σ x)).isUnknown = r.isUnknown := isUnknown_rename σ r
    simp only [rename, mapVars, isWhole, areWhole_rename ps, hr, hu]
  | type t => isWhole_rename t

theorem areWhole_rename : (ts : List Ty) →
    areWhole (mapVarsList (fun x => var (σ x)) ts) = areWhole ts
  | [] => rfl
  | t :: ts => by
    have ht : (t.mapVars fun x => var (σ x)).isWhole = t.isWhole := isWhole_rename t
    simp only [mapVarsList, areWhole, ht, areWhole_rename ts]

end

theorem freeVars_isEmpty (t : Ty) : t.freeVars.isEmpty = t.vars.isEmpty := by
  cases h : t.vars <;> simp [freeVars, h, List.eraseDups_cons]

theorem same_rename (t : Ty) {a : Ty} (ha : Closed a) : (t.rename σ).same a = t.same a := by
  by_cases ht : Closed t
  · rw [rename_closed σ ht]
  · have hne : ∀ u : Ty, ¬Closed u → u.same a = false := fun u hu =>
      Bool.eq_false_iff.mpr fun h => hu ((vars_of_same h).trans ha)
    rw [hne t ht, hne _ fun h => ht ((closed_rename σ).mp h)]

theorem agreeArgs_rename (ts : List Ty) {as : List Ty} (has : ∀ a ∈ as, Closed a) :
    agreeArgs (ts.map (rename σ)) as = agreeArgs ts as := by
  induction ts generalizing as with
  | nil => rfl
  | cons t ts ih =>
    cases as with
    | nil => rfl
    | cons a as =>
      have hrest := ih fun b hb => has b (List.mem_cons_of_mem a hb)
      simp [agreeArgs, same_rename σ t (has a List.mem_cons_self), hrest]

theorem assignableDirectly_rename (t : Ty) {a : Ty} (ha : Closed a) :
    assignableDirectly (t.rename σ) a = assignableDirectly t a := by
  have happs : agreeApps (t.rename σ) a = agreeApps t a := by
    cases t with
    | app c ts =>
      rw [rename_app]
      cases a with
      | app d as => simp [agreeApps, agreeArgs_rename σ ts (closed_app.mp ha)]
      | _ => rfl
    | _ => cases a <;> rfl
  simp [assignableDirectly, same_rename σ t ha, happs]

theorem assignable?_rename (bases : Ty → List Ty) (t : Ty) {a : Ty} (ha : Closed a)
    (hbases : ∀ b ∈ allBases bases a, Closed b) :
    assignable? bases (t.rename σ) a = assignable? bases t a := by
  have hany : ∀ found, allBases? bases a = some found →
      (found.any fun b => (t.rename σ).same b) = found.any fun b => t.same b := by
    intro found hfound
    simp only [allBases?, Option.ite_none_right_eq_some, Option.some.injEq] at hfound
    rw [← hfound.2, Bool.eq_iff_iff, List.any_eq_true, List.any_eq_true]
    exact exists_congr fun b => and_congr_right fun hb => by rw [same_rename σ t (hbases b hb)]
  simp only [assignable?, isUnknown_rename, assignableDirectly_rename σ t ha]
  cases hfound : allBases? bases a with
  | none => rfl
  | some found => simp only [Option.map_some, hany found hfound]

end Scripting.Ty
