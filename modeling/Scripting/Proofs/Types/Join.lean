import Mathlib.Data.List.Perm.Basic
import Scripting.Ty.Relations

/-!
# Joins of types

A type lies within another one if it is that type with `Any` for some of its type arguments, at any
depth. For types other than `Any` itself, `Ty.join` gives the least type that two types lie within, if
there is one (`join_within`, `exists_join_within`). So the order in which types are joined does not
matter among them, and where `Any` is one of them all successful orders give `Any`.
-/

namespace Scripting.Ty

mutual

def unnumbered : Ty → Ty
  | unknown => unknown
  | var x => var x
  | con c => con ⟨c.name, 0⟩
  | app c ts => app ⟨c.name, 0⟩ (unnumberedList ts)
  | func ps r v => func (unnumberedList ps) r.unnumbered v
  | type t => type t.unnumbered

def unnumberedList : List Ty → List Ty
  | [] => []
  | t :: ts => t.unnumbered :: unnumberedList ts

end

mutual

theorem same_iff : (t u : Ty) → (t.same u = true ↔ t.unnumbered = u.unnumbered)
  | unknown, u => by cases u <;> simp [same, unnumbered]
  | var x, u => by cases u <;> simp [same, unnumbered]
  | con c, u => by cases u <;> simp [same, unnumbered]
  | app c ts, u => by cases u <;> simp [same, unnumbered, sameList_iff ts]
  | func ps r v, u => by
    cases u <;> simp [same, unnumbered, sameList_iff ps, same_iff r]
    tauto
  | type t, u => by cases u <;> simp [same, unnumbered, same_iff t]

theorem sameList_iff : (ts us : List Ty) →
    (sameList ts us = true ↔ unnumberedList ts = unnumberedList us)
  | [], us => by cases us <;> simp [sameList, unnumberedList]
  | t :: ts, us => by cases us <;> simp [sameList, unnumberedList, same_iff t, sameList_iff ts]

end

@[simp] theorem same_refl (t : Ty) : t.same t = true := by simp [same_iff]

theorem same_symm {t u : Ty} (h : t.same u = true) : u.same t = true := by
  rw [same_iff] at h ⊢
  exact h.symm

theorem same_trans {t u v : Ty} (h : t.same u = true) (k : u.same v = true) : t.same v = true := by
  rw [same_iff] at h k ⊢
  exact h.trans k

theorem same_comm (t u : Ty) : t.same u = u.same t :=
  Bool.eq_iff_iff.mpr ⟨same_symm, same_symm⟩

theorem isAny_of_same {t u : Ty} (h : t.same u = true) : t.isAny = u.isAny := by
  cases t <;> cases u <;> simp_all [same, isAny, isNamed]

theorem same_of_isAny {t u : Ty} (h : t.isAny = true) (k : u.isAny = true) : t.same u = true := by
  cases t <;> cases u <;> simp_all [same, isAny, isNamed]

mutual

/-- Whether a type is another one with `Any` for some of its type arguments, at any depth. -/
def within : Ty → Ty → Bool
  | app c ts, app d us => c.name == d.name && withinArgs ts us
  | t, u => t.same u

def withinArgs : List Ty → List Ty → Bool
  | [], [] => true
  | t :: ts, u :: us => (t.isAny || t.within u) && withinArgs ts us
  | _, _ => false

end

theorem isAny_of_within {t u : Ty} (h : t.within u = true) : t.isAny = u.isAny := by
  cases t <;> cases u <;> simp_all [within, same, isAny, isNamed]

theorem isUnknown_of_within {t u : Ty} (h : t.within u = true) : t.isUnknown = u.isUnknown := by
  cases t <;> cases u <;> simp_all [within, same, isUnknown]

theorem within_leaf {t : Ty} (ht : ∀ c ts, t ≠ app c ts) (u : Ty) : t.within u = t.same u := by
  cases t <;> cases u <;> simp_all [within]

mutual

theorem within_of_same : (t u : Ty) → t.same u = true → t.within u = true
  | app c ts, u, h => by
    cases u with
    | app d us =>
      simp only [same, Bool.and_eq_true] at h
      simpa [within, h.1] using withinArgs_of_same ts us h.2
    | _ => simp [same] at h
  | unknown, u, h => (within_leaf (by simp) u).trans h
  | var x, u, h => (within_leaf (by simp) u).trans h
  | con c, u, h => (within_leaf (by simp) u).trans h
  | func ps r v, u, h => (within_leaf (by simp) u).trans h
  | type t, u, h => (within_leaf (by simp) u).trans h

theorem withinArgs_of_same : (ts us : List Ty) → sameList ts us = true → withinArgs ts us = true
  | [], us, h => by cases us <;> simp_all [sameList, withinArgs]
  | t :: ts, us, h => by
    cases us with
    | nil => simp [sameList] at h
    | cons u us =>
      simp only [sameList, Bool.and_eq_true] at h
      simp [withinArgs, within_of_same t u h.1, withinArgs_of_same ts us h.2]

end

@[simp] theorem within_refl (t : Ty) : t.within t = true := within_of_same t t (same_refl t)

theorem within_trans_leaf {t u v : Ty} (ht : ∀ c ts, t ≠ app c ts) (h : t.within u = true)
    (k : u.within v = true) : t.within v = true := by
  rw [within_leaf ht] at h ⊢
  have hu : ∀ d us, u ≠ app d us := by
    intro d us hd
    subst hd
    cases t <;> simp_all [same]
  rw [within_leaf hu] at k
  exact same_trans h k

mutual

theorem within_trans : (t u v : Ty) → t.within u = true → u.within v = true → t.within v = true
  | app c ts, u, v, h, k => by
    cases u with
    | app d us =>
      cases v with
      | app e vs =>
        simp only [within, Bool.and_eq_true, beq_iff_eq] at h k ⊢
        exact ⟨h.1.trans k.1, withinArgs_trans ts us vs h.2 k.2⟩
      | _ => simp [within, same] at k
    | _ => simp [within, same] at h
  | unknown, u, v, h, k => within_trans_leaf (by simp) h k
  | var x, u, v, h, k => within_trans_leaf (by simp) h k
  | con c, u, v, h, k => within_trans_leaf (by simp) h k
  | func ps r w, u, v, h, k => within_trans_leaf (by simp) h k
  | type t, u, v, h, k => within_trans_leaf (by simp) h k

theorem withinArgs_trans : (ts us vs : List Ty) → withinArgs ts us = true →
    withinArgs us vs = true → withinArgs ts vs = true
  | [], us, vs, h, k => by cases us <;> simp_all [withinArgs]
  | t :: ts, us, vs, h, k => by
    cases us with
    | nil => simp [withinArgs] at h
    | cons u us =>
      cases vs with
      | nil => simp [withinArgs] at k
      | cons v vs =>
        simp only [withinArgs, Bool.and_eq_true, Bool.or_eq_true] at h k ⊢
        refine ⟨?_, withinArgs_trans ts us vs h.2 k.2⟩
        by_cases ht : t.isAny = true
        · exact Or.inl ht
        · have htu := h.1.resolve_left ht
          have hu : ¬u.isAny = true := isAny_of_within htu ▸ ht
          exact Or.inr (within_trans t u v htu (k.1.resolve_left hu))

end

mutual

theorem same_of_within : (t u : Ty) → t.within u = true → u.within t = true → t.same u = true
  | app c ts, u, h, k => by
    cases u with
    | app d us =>
      simp only [within, same, Bool.and_eq_true] at h k ⊢
      exact ⟨h.1, sameList_of_within ts us h.2 k.2⟩
    | _ => simp [within, same] at h
  | unknown, u, h, _ => (within_leaf (by simp) u).symm.trans h
  | var x, u, h, _ => (within_leaf (by simp) u).symm.trans h
  | con c, u, h, _ => (within_leaf (by simp) u).symm.trans h
  | func ps r v, u, h, _ => (within_leaf (by simp) u).symm.trans h
  | type t, u, h, _ => (within_leaf (by simp) u).symm.trans h

theorem sameList_of_within : (ts us : List Ty) → withinArgs ts us = true →
    withinArgs us ts = true → sameList ts us = true
  | [], us, h, _ => by cases us <;> simp_all [withinArgs, sameList]
  | t :: ts, us, h, k => by
    cases us with
    | nil => simp [withinArgs] at h
    | cons u us =>
      simp only [withinArgs, sameList, Bool.and_eq_true, Bool.or_eq_true] at h k ⊢
      refine ⟨?_, sameList_of_within ts us h.2 k.2⟩
      by_cases ht : t.isAny = true
      · have hu : u.isAny = true := k.1.elim id fun hut => isAny_of_within hut ▸ ht
        exact same_of_isAny ht hu
      · have htu := h.1.resolve_left ht
        have hu : ¬u.isAny = true := isAny_of_within htu ▸ ht
        exact same_of_within t u htu (k.1.resolve_left hu)

end

theorem join_of_same {t u : Ty} (h : t.same u = true) : t.join u = some t := by
  cases t <;> simp [join, h]

theorem exists_join_of_isAny {t u : Ty} (h : t.isAny = true ∨ u.isAny = true) :
    ∃ j, t.join u = some j ∧ j.isAny = true := by
  by_cases hs : t.same u = true
  · have ht : t.isAny = true := h.elim id fun hu => isAny_of_same hs ▸ hu
    exact ⟨t, join_of_same hs, ht⟩
  · refine ⟨any, ?_, rfl⟩
    cases t <;> simp_all [join, isAny, isNamed]

theorem join_leaf {t : Ty} (ht : ∀ c ts, t ≠ app c ts) (u : Ty) : t.join u =
    if t.same u then some t else if t.isAny || u.isAny then some any else none := by
  cases t <;> simp_all [join]

theorem join_within_leaf {t u j : Ty} (hleaf : ∀ c ts, t ≠ app c ts) (ht : t.isAny = false)
    (hu : u.isAny = false) (h : t.join u = some j) : t.within j = true ∧ u.within j = true := by
  by_cases hs : t.same u = true
  · rw [join_of_same hs] at h
    cases h
    exact ⟨within_refl _, within_of_same _ _ (same_symm hs)⟩
  · simp [join_leaf hleaf, hs, ht, hu] at h

theorem exists_join_leaf {t u v : Ty} (hleaf : ∀ c ts, t ≠ app c ts) (h : t.within v = true)
    (k : u.within v = true) : ∃ j, t.join u = some j ∧ j.within v = true := by
  have hv : ∀ d us, v ≠ app d us := by
    intro d us hd
    subst hd
    cases t <;> simp_all [within, same]
  have hu : ∀ d us, u ≠ app d us := by
    intro d us hd
    subst hd
    cases v <;> simp_all [within, same]
  rw [within_leaf hu] at k
  have hs : t.same u = true := same_trans ((within_leaf hleaf v).symm.trans h) (same_symm k)
  exact ⟨t, join_of_same hs, h⟩

mutual

theorem join_within : (t u j : Ty) → t.isAny = false → u.isAny = false → t.join u = some j →
    t.within j = true ∧ u.within j = true
  | app c ts, u, j, _, hu, h => by
    by_cases hs : (app c ts).same u = true
    · rw [join_of_same hs] at h
      cases h
      exact ⟨within_refl _, within_of_same _ _ (same_symm hs)⟩
    · cases u with
      | app d us =>
        simp only [join, hs, hu, Bool.false_eq_true, if_false] at h
        by_cases hcd : c.name = d.name
        · simp only [beq_iff_eq, hcd, if_true, Option.map_eq_some_iff] at h
          obtain ⟨js, hjs, rfl⟩ := h
          simpa [within, hcd] using joinArgs_within ts us js hjs
        · simp [hcd] at h
      | _ => simp_all [join]
  | unknown, u, j, ht, hu, h => join_within_leaf (by simp) ht hu h
  | var x, u, j, ht, hu, h => join_within_leaf (by simp) ht hu h
  | con c, u, j, ht, hu, h => join_within_leaf (by simp) ht hu h
  | func ps r v, u, j, ht, hu, h => join_within_leaf (by simp) ht hu h
  | type t, u, j, ht, hu, h => join_within_leaf (by simp) ht hu h

theorem joinArgs_within : (ts us js : List Ty) → joinArgs ts us = some js →
    withinArgs ts js = true ∧ withinArgs us js = true
  | [], us, js, h => by cases us <;> simp_all [joinArgs, withinArgs]
  | t :: ts, us, js, h => by
    cases us with
    | nil => simp [joinArgs] at h
    | cons u us =>
      by_cases ht : t.isAny = true
      · simp only [joinArgs, ht, if_true, Option.map_eq_some_iff] at h
        obtain ⟨ks, hks, rfl⟩ := h
        simpa [withinArgs, ht] using joinArgs_within ts us ks hks
      · by_cases hu : u.isAny = true
        · simp only [joinArgs, ht, hu, Bool.false_eq_true, if_true, if_false,
            Option.map_eq_some_iff] at h
          obtain ⟨ks, hks, rfl⟩ := h
          simpa [withinArgs, hu] using joinArgs_within ts us ks hks
        · simp only [joinArgs, ht, hu, Bool.false_eq_true, if_false, Option.bind_eq_some_iff,
            Option.map_eq_some_iff] at h
          obtain ⟨k, hk, ks, hks, rfl⟩ := h
          have hhead := join_within t u k (by simpa using ht) (by simpa using hu) hk
          have htail := joinArgs_within ts us ks hks
          simp [withinArgs, hhead, htail]

end

mutual

theorem exists_join_within : (t u v : Ty) → t.within v = true → u.within v = true →
    ∃ j, t.join u = some j ∧ j.within v = true
  | app c ts, u, v, h, k => by
    by_cases hs : (app c ts).same u = true
    · exact ⟨_, join_of_same hs, h⟩
    · cases v with
      | app e vs =>
        cases u with
        | app d us =>
          simp only [within, Bool.and_eq_true, beq_iff_eq] at h k
          obtain ⟨js, hjs, hvs⟩ := exists_joinArgs_within ts us vs h.2 k.2
          refine ⟨app c js, ?_, by simp [within, h.1, hvs]⟩
          simp [join, hs, h.1, k.1, hjs, isAny, isNamed]
        | _ => simp [within, same] at k
      | _ => simp [within, same] at h
  | unknown, u, v, h, k => exists_join_leaf (by simp) h k
  | var x, u, v, h, k => exists_join_leaf (by simp) h k
  | con c, u, v, h, k => exists_join_leaf (by simp) h k
  | func ps r w, u, v, h, k => exists_join_leaf (by simp) h k
  | type t, u, v, h, k => exists_join_leaf (by simp) h k

theorem exists_joinArgs_within : (ts us vs : List Ty) → withinArgs ts vs = true →
    withinArgs us vs = true → ∃ js, joinArgs ts us = some js ∧ withinArgs js vs = true
  | [], us, vs, h, k => by cases vs <;> cases us <;> simp_all [joinArgs, withinArgs]
  | t :: ts, us, vs, h, k => by
    cases vs with
    | nil => simp [withinArgs] at h
    | cons v vs =>
      cases us with
      | nil => simp [withinArgs] at k
      | cons u us =>
        simp only [withinArgs, Bool.and_eq_true, Bool.or_eq_true] at h k
        obtain ⟨js, hjs, hvs⟩ := exists_joinArgs_within ts us vs h.2 k.2
        by_cases ht : t.isAny = true
        · exact ⟨u :: js, by simp [joinArgs, ht, hjs], by simp [withinArgs, k.1, hvs]⟩
        · by_cases hu : u.isAny = true
          · exact ⟨t :: js, by simp [joinArgs, ht, hu, hjs], by simp [withinArgs, h.1, hvs]⟩
          · obtain ⟨j, hj, hv⟩ :=
              exists_join_within t u v (h.1.resolve_left ht) (k.1.resolve_left hu)
            exact ⟨j :: js, by simp [joinArgs, ht, hu, hj, hjs], by simp [withinArgs, hv, hvs]⟩

end

theorem join_comm {t u j : Ty} (h : t.join u = some j) :
    ∃ k, u.join t = some k ∧ j.same k = true := by
  by_cases hany : t.isAny = true ∨ u.isAny = true
  · obtain ⟨i, hi, hiany⟩ := exists_join_of_isAny hany
    obtain ⟨k, hk, hkany⟩ := exists_join_of_isAny hany.symm
    rw [h] at hi
    cases hi
    exact ⟨k, hk, same_of_isAny hiany hkany⟩
  · simp only [not_or, Bool.not_eq_true] at hany
    have hj := join_within t u j hany.1 hany.2 h
    obtain ⟨k, hk, hkj⟩ := exists_join_within u t j hj.2 hj.1
    have hk' := join_within u t k hany.2 hany.1 hk
    obtain ⟨i, hi, hik⟩ := exists_join_within t u k hk'.2 hk'.1
    rw [h] at hi
    cases hi
    exact ⟨k, hk, same_of_within j k hik hkj⟩

/-- Whether the type arguments of one list, those that are `Any` apart, stand unchanged in another. -/
def keptArgs : List Ty → List Ty → Bool
  | [], [] => true
  | t :: ts, u :: us => (t.isAny || t.same u) && keptArgs ts us
  | _, _ => false

/-- Whether a type is another one with `Any` for some of its type arguments, but not for parts of
them. -/
def keptIn : Ty → Ty → Bool
  | app c ts, app d us => c.name == d.name && keptArgs ts us
  | t, u => t.same u

mutual

def isFirm : Ty → Bool
  | app _ ts => areFirm ts
  | _ => true

def areFirm : List Ty → Bool
  | [] => true
  | t :: ts => !t.isAny && t.isFirm && areFirm ts

end

/-- Whether `Any` stands nowhere deeper than as a type argument of the type itself. -/
def isShallow (t : Ty) : Bool := t.args.all fun a => a.isAny || a.isFirm

mutual

theorem same_of_firm : (t u : Ty) → t.isFirm = true → t.within u = true → t.same u = true
  | app c ts, u, hf, h => by
    cases u with
    | app d us =>
      simp only [isFirm] at hf
      simp only [within, Bool.and_eq_true] at h
      simpa [same, h.1] using sameList_of_firm ts us hf h.2
    | _ => simp [within, same] at h
  | unknown, u, _, h => (within_leaf (by simp) u).symm.trans h
  | var x, u, _, h => (within_leaf (by simp) u).symm.trans h
  | con c, u, _, h => (within_leaf (by simp) u).symm.trans h
  | func ps r v, u, _, h => (within_leaf (by simp) u).symm.trans h
  | type t, u, _, h => (within_leaf (by simp) u).symm.trans h

theorem sameList_of_firm : (ts us : List Ty) → areFirm ts = true → withinArgs ts us = true →
    sameList ts us = true
  | [], us, _, h => by cases us <;> simp_all [withinArgs, sameList]
  | t :: ts, us, hf, h => by
    cases us with
    | nil => simp [withinArgs] at h
    | cons u us =>
      simp only [areFirm, Bool.and_eq_true, Bool.not_eq_true'] at hf
      simp only [withinArgs, hf.1.1, Bool.false_or, Bool.and_eq_true] at h
      simp [sameList, same_of_firm t u hf.1.2 h.1, sameList_of_firm ts us hf.2 h.2]

end

theorem keptArgs_of_shallow {ts us : List Ty} (h : withinArgs ts us = true)
    (hs : ∀ t ∈ ts, (t.isAny || t.isFirm) = true) : keptArgs ts us = true := by
  induction ts generalizing us with
  | nil => cases us <;> simp_all [withinArgs, keptArgs]
  | cons t ts ih =>
    cases us with
    | nil => simp [withinArgs] at h
    | cons u us =>
      simp only [withinArgs, Bool.and_eq_true, Bool.or_eq_true] at h
      have htail := ih h.2 fun x hx => hs x (List.mem_cons_of_mem t hx)
      have hhead := hs t List.mem_cons_self
      by_cases ht : t.isAny = true
      · simp [keptArgs, ht, htail]
      · have hfirm : t.isFirm = true := by simpa [ht] using hhead
        simp [keptArgs, same_of_firm t u hfirm (h.1.resolve_left ht), htail]

theorem keptIn_of_shallow {t u : Ty} (h : t.within u = true) (hs : t.isShallow = true) :
    t.keptIn u = true := by
  cases t with
  | app c ts =>
    cases u with
    | app d us =>
      simp only [within, Bool.and_eq_true] at h
      simp only [isShallow, args, List.all_eq_true] at hs
      simp [keptIn, h.1, keptArgs_of_shallow h.2 hs]
    | _ => simp [within, same] at h
  | _ => cases u <;> simp_all [within, keptIn]

theorem agreeArgs_of_same {ts us : List Ty} (h : sameList ts us = true) : agreeArgs ts us = true := by
  induction ts generalizing us with
  | nil => cases us <;> simp_all [sameList, agreeArgs]
  | cons t ts ih => cases us <;> simp_all [sameList, agreeArgs]

theorem agreeArgs_of_withinArgs {ts us : List Ty} (h : withinArgs ts us = true) :
    agreeArgs us ts = keptArgs ts us := by
  induction ts generalizing us with
  | nil => cases us <;> simp_all [withinArgs, agreeArgs, keptArgs]
  | cons t ts ih =>
    cases us with
    | nil => simp [withinArgs] at h
    | cons u us =>
      simp only [withinArgs, Bool.and_eq_true, Bool.or_eq_true] at h
      by_cases ht : t.isAny = true
      · simp [agreeArgs, keptArgs, ht, ih h.2]
      · have hu : u.isAny = false := isAny_of_within (h.1.resolve_left ht) ▸ by simpa using ht
        simp [agreeArgs, keptArgs, ht, hu, ih h.2, same_comm u t]

/-- Of a type other than `Any` that lies within another one, values may be stored there directly if
nothing in its type arguments was filled in. -/
theorem assignableDirectly_of_within {t u : Ty} (h : t.within u = true) (ht : t.isAny = false) :
    assignableDirectly u t = t.keptIn u := by
  have hu : u.isAny = false := isAny_of_within h ▸ ht
  cases t with
  | app c ts =>
    cases u with
    | app d us =>
      simp only [within, Bool.and_eq_true, beq_iff_eq] at h
      have hkept : sameList us ts = true → keptArgs ts us = true := fun hs => by
        rw [← agreeArgs_of_withinArgs h.2]
        exact agreeArgs_of_same hs
      by_cases hs : sameList us ts = true
      · simp [assignableDirectly, ht, hu, same, keptIn, h.1, hs, hkept hs]
      · simp [assignableDirectly, ht, hu, same, agreeApps, keptIn, h.1, hs,
          agreeArgs_of_withinArgs h.2]
    | _ => simp [within, same] at h
  | _ => cases u <;> simp_all [assignableDirectly, within, agreeApps, keptIn, same_comm]

/-- The join of two types does not depend on their order, and both lie within it, or it is `Any`; it
is the least such type. A value of either type may be stored where the join is expected if the join
has the type's arguments unchanged, those that are `Any` apart, and so always if `Any` stands nowhere
deeper in the type; otherwise only if the join is a base. -/
theorem join_upper (bases : Ty → List Ty) {t u j : Ty} (ht : t.isUnknown = false)
    (hu : u.isUnknown = false) (h : t.join u = some j) :
    (∃ k, u.join t = some k ∧ j.same k = true) ∧
    (j.isAny = true ∨ t.within j = true ∧ u.within j = true ∧
      ∀ v, t.within v = true → u.within v = true → j.within v = true) ∧
    ∀ x, x = t ∨ x = u →
      assignable bases j x = (j.isAny || x.keptIn j || (allBases bases x).any fun b => j.same b) ∧
      (x.isShallow = true → assignable bases j x = true) := by
  refine ⟨join_comm h, ?_⟩
  by_cases hany : t.isAny = true ∨ u.isAny = true
  · obtain ⟨i, hi, hj⟩ := exists_join_of_isAny hany
    rw [h] at hi
    cases hi
    refine ⟨Or.inl hj, fun x hx => ?_⟩
    have hknown : x.isUnknown = false := hx.elim (fun e => e ▸ ht) fun e => e ▸ hu
    have hj' : j.isUnknown = false := by cases j <;> simp_all [isAny, isNamed, isUnknown]
    simp [assignable, assignableDirectly, hknown, hj', hj]
  · simp only [not_or, Bool.not_eq_true] at hany
    have hj := join_within t u j hany.1 hany.2 h
    refine ⟨Or.inr ⟨hj.1, hj.2, fun v htv huv => ?_⟩, fun x hx => ?_⟩
    · obtain ⟨i, hi, hiv⟩ := exists_join_within t u v htv huv
      rw [h] at hi
      cases hi
      exact hiv
    · have hknown : x.isUnknown = false := hx.elim (fun e => e ▸ ht) fun e => e ▸ hu
      have hxj : x.within j = true := hx.elim (fun e => e ▸ hj.1) fun e => e ▸ hj.2
      have hx' : x.isAny = false := hx.elim (fun e => e ▸ hany.1) fun e => e ▸ hany.2
      have hj' : j.isUnknown = false := isUnknown_of_within hxj ▸ hknown
      have hjany : j.isAny = false := isAny_of_within hxj ▸ hx'
      have hstore : assignable bases j x =
          (j.isAny || x.keptIn j || (allBases bases x).any fun b => j.same b) := by
        simp [assignable, hknown, hj', hjany, assignableDirectly_of_within hxj hx']
      refine ⟨hstore, fun hs => ?_⟩
      simp [hstore, keptIn_of_shallow hxj hs]

/-- Options of integers and of nothing: what the join fills in is a type argument of its own. -/
theorem join_upper_option :
    ((optionOf int).join (optionOf any) = some (optionOf int)) ∧
      assignable (fun _ => []) (optionOf int) (optionOf any) = true :=
  have h : (optionOf int).join (optionOf any) = some (optionOf int) := rfl
  ⟨h, ((join_upper (fun _ => []) rfl rfl h).2.2 (optionOf any) (Or.inr rfl)).2 rfl⟩

/-- The join of two types of nested arrays is none where values of both may be stored. -/
theorem join_nested_arrays :
    (arrayOf (arrayOf any)).join (arrayOf (arrayOf int)) = some (arrayOf (arrayOf int)) ∧
      assignable (fun _ => []) (arrayOf (arrayOf int)) (arrayOf (arrayOf any)) = false := by
  refine ⟨rfl, ?_⟩
  rw [assignable, allBases, BaseSearch.found_of_done rfl]
  rfl

/-- The type that the types of a list agree on, joined from the left: none if there are none, and no
answer if they disagree. -/
def agreed : List Ty → Option (Option Ty)
  | [] => some none
  | t :: ts => (ts.foldlM join t).map some

/-- Whether two types are equal by name, or both are missing. -/
def Alike : Option Ty → Option Ty → Prop := Option.Rel fun t u => t.same u = true

theorem foldlM_join_within {ts : List Ty} {t j : Ty} (hplain : ∀ x ∈ t :: ts, x.isAny = false)
    (h : ts.foldlM join t = some j) : ∀ x ∈ t :: ts, x.within j = true := by
  induction ts generalizing t with
  | nil =>
    cases h
    simp
  | cons u us ih =>
    rw [List.foldlM_cons] at h
    obtain ⟨k, hk, hrest⟩ := Option.bind_eq_some_iff.mp h
    have ht := hplain t List.mem_cons_self
    have hu := hplain u (by simp)
    have hkin := join_within t u k ht hu hk
    have hkplain : k.isAny = false := isAny_of_within hkin.1 ▸ ht
    have hall := ih (t := k) (fun x hx => by
      rcases List.mem_cons.mp hx with rfl | hx
      · exact hkplain
      · exact hplain x (by simp [hx])) hrest
    have hkj := hall k List.mem_cons_self
    intro x hx
    simp only [List.mem_cons] at hx
    rcases hx with rfl | rfl | hx
    · exact within_trans _ _ _ hkin.1 hkj
    · exact within_trans _ _ _ hkin.2 hkj
    · exact hall x (List.mem_cons_of_mem k hx)

theorem exists_foldlM_join {ts : List Ty} {t v : Ty} (h : ∀ x ∈ t :: ts, x.within v = true) :
    ∃ j, ts.foldlM join t = some j ∧ j.within v = true := by
  induction ts generalizing t with
  | nil => exact ⟨t, rfl, h t List.mem_cons_self⟩
  | cons u us ih =>
    obtain ⟨k, hk, hkv⟩ := exists_join_within t u v (h t List.mem_cons_self) (h u (by simp))
    obtain ⟨j, hj, hjv⟩ := ih (t := k) fun x hx => by
      rcases List.mem_cons.mp hx with rfl | hx
      · exact hkv
      · exact h x (by simp [hx])
    exact ⟨j, by simp [List.foldlM_cons, hk, hj], hjv⟩

theorem exists_foldlM_join_any {t : Ty} (ts : List Ty) (h : t.isAny = true) :
    ∃ j, ts.foldlM join t = some j ∧ j.isAny = true := by
  induction ts generalizing t with
  | nil => exact ⟨t, rfl, h⟩
  | cons u us ih =>
    obtain ⟨k, hk, hkany⟩ := exists_join_of_isAny (u := u) (Or.inl h)
    obtain ⟨j, hj, hjany⟩ := ih hkany
    exact ⟨j, by simp [List.foldlM_cons, hk, hj], hjany⟩

theorem isAny_of_foldlM_join {ts : List Ty} {t j : Ty} (h : ts.foldlM join t = some j)
    (hany : ∃ x ∈ t :: ts, x.isAny = true) : j.isAny = true := by
  induction ts generalizing t with
  | nil =>
    cases h
    simpa using hany
  | cons u us ih =>
    rw [List.foldlM_cons] at h
    obtain ⟨k, hk, hrest⟩ := Option.bind_eq_some_iff.mp h
    by_cases htu : t.isAny = true ∨ u.isAny = true
    · obtain ⟨i, hi, hiany⟩ := exists_join_of_isAny htu
      rw [hk] at hi
      cases hi
      exact ih hrest ⟨k, List.mem_cons_self, hiany⟩
    · obtain ⟨x, hx, hxany⟩ := hany
      have hxus : x ∈ us := by
        simp only [List.mem_cons] at hx
        rcases hx with rfl | rfl | hx
        · exact absurd (Or.inl hxany) htu
        · exact absurd (Or.inr hxany) htu
        · exact hx
      exact ih hrest ⟨x, List.mem_cons_of_mem k hxus, hxany⟩

theorem agreed_isSome_iff {t : Ty} {ts : List Ty} (hplain : ∀ x ∈ t :: ts, x.isAny = false) :
    (agreed (t :: ts)).isSome = true ↔ ∃ v, ∀ x ∈ t :: ts, x.within v = true := by
  rw [agreed, Option.isSome_map, Option.isSome_iff_exists]
  constructor
  · intro h
    obtain ⟨j, hj⟩ := h
    exact ⟨j, foldlM_join_within hplain hj⟩
  · intro h
    obtain ⟨v, hv⟩ := h
    obtain ⟨j, hj, -⟩ := exists_foldlM_join hv
    exact ⟨j, hj⟩

theorem agreed_alike {ts us : List Ty} (hp : ts.Perm us) {j k : Option Ty} (hj : agreed ts = some j)
    (hk : agreed us = some k) : Alike j k := by
  cases ts with
  | nil =>
    rw [List.nil_perm.mp hp] at hk
    cases hj
    cases hk
    exact .none
  | cons t ts =>
    cases us with
    | nil => exact absurd hp.symm (by simp)
    | cons u us =>
      obtain ⟨i, hi, rfl⟩ := Option.map_eq_some_iff.mp hj
      obtain ⟨l, hl, rfl⟩ := Option.map_eq_some_iff.mp hk
      refine .some ?_
      by_cases hany : ∃ x ∈ t :: ts, x.isAny = true
      · have hany' : ∃ x ∈ u :: us, x.isAny = true :=
          hany.imp fun x hx => ⟨hp.mem_iff.mp hx.1, hx.2⟩
        exact same_of_isAny (isAny_of_foldlM_join hi hany) (isAny_of_foldlM_join hl hany')
      · have hplain : ∀ x ∈ t :: ts, x.isAny = false := by simpa using hany
        have hplain' : ∀ x ∈ u :: us, x.isAny = false := fun x hx => hplain x (hp.mem_iff.mpr hx)
        -- Each of the two bounds all types, and is the least to do so.
        obtain ⟨i', hi', hil⟩ := exists_foldlM_join fun x hx =>
          foldlM_join_within hplain' hl x (hp.mem_iff.mp hx)
        obtain ⟨l', hl', hli⟩ := exists_foldlM_join fun x hx =>
          foldlM_join_within hplain hi x (hp.mem_iff.mpr hx)
        rw [hi] at hi'
        rw [hl] at hl'
        cases hi'
        cases hl'
        exact same_of_within i l hil hli

theorem agreed_isSome_of_perm {ts us : List Ty} (hp : ts.Perm us)
    (hplain : ∀ x ∈ ts, x.isAny = false) (h : (agreed ts).isSome = true) :
    (agreed us).isSome = true := by
  cases us with
  | nil => rfl
  | cons u us =>
    cases ts with
    | nil => exact absurd hp (by simp)
    | cons t ts =>
      obtain ⟨v, hv⟩ := (agreed_isSome_iff hplain).mp h
      exact (agreed_isSome_iff fun x hx => hplain x (hp.mem_iff.mpr hx)).mpr
        ⟨v, fun x hx => hv x (hp.mem_iff.mpr hx)⟩

theorem agreed_takeWhile (ts : List Ty) :
    (agreed ts).isSome = (agreed (ts.takeWhile fun t => !t.isAny)).isSome := by
  have hfold : ∀ (us : List Ty) (t : Ty), (us.foldlM join t).isSome =
      ((us.takeWhile fun u => !u.isAny).foldlM join t).isSome := by
    intro us
    induction us with
    | nil => simp
    | cons u us ih =>
      intro t
      by_cases hu : u.isAny = true
      · obtain ⟨k, hk, hkany⟩ := exists_join_of_isAny (t := t) (Or.inr hu)
        obtain ⟨j, hj, -⟩ := exists_foldlM_join_any us hkany
        simp [List.foldlM_cons, hk, hj, hu]
      · cases hk : t.join u with
        | none => simp [List.foldlM_cons, hk, hu]
        | some k => simpa [List.foldlM_cons, hk, hu] using ih k
  cases ts with
  | nil => rfl
  | cons t ts =>
    by_cases ht : t.isAny = true
    · obtain ⟨j, hj, -⟩ := exists_foldlM_join_any ts ht
      simp [agreed, hj, ht]
    · simpa [agreed, ht] using hfold ts t

end Scripting.Ty
