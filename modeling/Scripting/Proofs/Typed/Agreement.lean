import Scripting.Proofs.Types.Join
import Scripting.Typed.Analyze

/-!
# Agreement on types

The elements of an array literal, the arms of a match and the places where a function returns must
agree on a type. All three join the types from the left (`elementType_settles`, `joinArms_settles`,
`joinSites_settles`), so that their order matters only as far as it does for joins: where no type is
`Any` itself it decides nothing, and two orders that are both accepted give equal types.
-/

namespace Scripting.Typing

/-- Whether a computation gives the type that the types of a list agree on and touches nothing, or
reports a failure if they disagree. -/
def Settles (ts : List Ty) (x : Typing (Option Ty)) : Prop :=
  ∀ s, match Ty.agreed ts with
    | some j => x.run s = (j, s)
    | none => (x.run s).2.errors ≠ #[]

theorem report_errors (code : Diagnostic.Code) (tok : Token) (msg : String) (s : State) :
    ((report code tok msg).run s).2.errors ≠ #[] := by
  simp only [report, addError, modify, modifyGet, MonadStateOf.modifyGet, StateT.modifyGet,
    StateT.run, pure]
  split
  · rename_i h
    intro hempty
    simp [hempty] at h
  · simp

/-- A loop that starts with the type of the first item, joins it with the types of further ones and
reports a failure where there is no join. `p` picks the items that it looks at. -/
structure JoinLoop {α : Type} (p : α → Bool) (type : α → Ty)
    (loop : Option Ty → List α → Typing (Option Ty)) : Prop where
  done : ∀ r s, (loop r []).run s = (r, s)
  skip : ∀ r a as s, p a = false → (loop r (a :: as)).run s = (loop r as).run s
  first : ∀ a as s, p a = true → (loop none (a :: as)).run s = (loop (some (type a)) as).run s
  next : ∀ t j a as s, p a = true → t.join (type a) = some j →
    (loop (some t) (a :: as)).run s = (loop (some j) as).run s
  fail : ∀ t a as s, p a = true → t.join (type a) = none →
    ((loop (some t) (a :: as)).run s).2.errors ≠ #[]

namespace JoinLoop

variable {α : Type} {p : α → Bool} {type : α → Ty} {loop : Option Ty → List α → Typing (Option Ty)}

theorem goesOn (h : JoinLoop p type loop) (as : List α) (t : Ty) (s : State) :
    match ((as.filter p).map type).foldlM Ty.join t with
    | some j => (loop (some t) as).run s = (some j, s)
    | none => ((loop (some t) as).run s).2.errors ≠ #[] := by
  induction as generalizing t with
  | nil => exact h.done (some t) s
  | cons a as ih =>
    by_cases ha : p a = true
    · rw [List.filter_cons_of_pos ha, List.map_cons, List.foldlM_cons]
      cases hj : t.join (type a) with
      | some j =>
        rw [h.next t j a as s ha hj]
        exact ih j
      | none => exact h.fail t a as s ha hj
    · rw [List.filter_cons_of_neg ha, h.skip (some t) a as s (by simpa using ha)]
      exact ih t

theorem settles (h : JoinLoop p type loop) (as : List α) :
    Settles ((as.filter p).map type) (loop none as) := by
  intro s
  induction as with
  | nil => exact h.done none s
  | cons a as ih =>
    by_cases ha : p a = true
    · have hrest := h.goesOn as (type a) s
      rw [List.filter_cons_of_pos ha, List.map_cons, Ty.agreed, h.first a as s ha]
      cases hj : ((as.filter p).map type).foldlM Ty.join (type a) with
      | some j => simpa only [hj, Option.map_some] using hrest
      | none => simpa only [hj, Option.map_none] using hrest
    · rw [List.filter_cons_of_neg ha, h.skip none a as s (by simpa using ha)]
      exact ih

end JoinLoop

def elementFailure (t : Ty) (e : Expr .typed) : Typing Unit :=
  report .disagreement e.token ("array elements have different types: " ++ t.text ++ " and "
    ++ e.type.text)

theorem elementType_cons (t : Ty) (e : Expr .typed) (es : List (Expr .typed)) (s : State) :
    (elementType (some t) (e :: es)).run s = match t.join e.type with
      | some j => (elementType (some j) es).run s
      | none => (elementType (some t) es).run ((elementFailure t e).run s).2 := by
  rw [elementType]
  cases t.join e.type <;> rfl

theorem elementType_failed {es : List (Expr .typed)} {t : Ty} {s : State} (h : s.errors ≠ #[]) :
    ((elementType (some t) es).run s).2.errors ≠ #[] := by
  induction es generalizing t s with
  | nil => exact h
  | cons e es ih =>
    rw [elementType_cons]
    split
    · exact ih h
    · exact ih (report_errors _ _ _ _)

theorem elementType_loop : JoinLoop (fun _ => true) Expr.type elementType where
  done r s := by cases r <;> rfl
  skip _ _ _ _ h := by simp at h
  first _ _ _ _ := rfl
  next t j e es s _ hj := by rw [elementType_cons, hj]
  fail t e es s _ hj := by
    rw [elementType_cons, hj]
    exact elementType_failed (report_errors _ _ _ _)

theorem elementType_settles (es : List (Expr .typed)) :
    Settles (es.map Expr.type) (elementType none es) := by
  simpa using elementType_loop.settles es

theorem joinSites_cons (f : UserFunction) (t : Ty) (site : Token × Ty) (sites : List (Token × Ty)) :
    joinSites f (some t) (site :: sites) = match t.join site.2 with
      | some j => joinSites f (some j) sites
      | none => do
        report .disagreement site.1 ("function " ++ f.fullName ++ " returns both " ++ t.text ++ " and "
          ++ site.2.text)
        return some .any := by
  cases site with
  | mk tok u => cases hj : t.join u <;> simp [joinSites, hj]

theorem joinSites_loop (f : UserFunction) : JoinLoop (fun _ => true) Prod.snd (joinSites f) where
  done r s := by cases r <;> rfl
  skip _ _ _ _ h := by simp at h
  first _ _ _ _ := rfl
  next t j site sites s _ hj := by rw [joinSites_cons, hj]
  fail t site sites s _ hj := by
    rw [joinSites_cons, hj]
    exact report_errors _ _ _ s

theorem joinSites_settles (f : UserFunction) (sites : List (Token × Ty)) :
    Settles (sites.map Prod.snd) (joinSites f none sites) := by
  simpa using (joinSites_loop f).settles sites

/-- The type that the bodies of a match agree on. -/
def joinArms (result : Option Ty) : List (Expr .typed) → Typing (Option Ty) := List.foldlM joinArm result

/-- The bodies behind which control goes on. -/
def returning (bodies : List (Expr .typed)) : List (Expr .typed) := bodies.filter fun e => !e.terminates

def armFailure (t : Ty) (e : Expr .typed) : Typing Unit :=
  report .disagreement e.token ("match arms have different types: " ++ t.text ++ " and "
    ++ e.type.text)

theorem joinArms_bind (r : Option Ty) (e : Expr .typed) (es : List (Expr .typed)) :
    joinArms r (e :: es) = joinArm r e >>= fun k => joinArms k es := List.foldlM_cons

theorem joinArms_skip {e : Expr .typed} (he : e.terminates = true) (r : Option Ty)
    (es : List (Expr .typed)) (s : State) : (joinArms r (e :: es)).run s = (joinArms r es).run s := by
  have harm : joinArm r e = pure r := by rw [joinArm.eq_def, if_pos he]
  rw [joinArms_bind, harm, pure_bind]

theorem joinArms_cons {e : Expr .typed} (he : ¬e.terminates = true) (t : Ty)
    (es : List (Expr .typed)) (s : State) :
    (joinArms (some t) (e :: es)).run s = match t.join e.type with
      | some j => (joinArms (some j) es).run s
      | none => (joinArms (some t) es).run ((armFailure t e).run s).2 := by
  rw [joinArms_bind, joinArm, if_neg he]
  cases t.join e.type <;> rfl

theorem joinArms_failed {es : List (Expr .typed)} {t : Ty} {s : State} (h : s.errors ≠ #[]) :
    ((joinArms (some t) es).run s).2.errors ≠ #[] := by
  induction es generalizing t s with
  | nil => exact h
  | cons e es ih =>
    by_cases he : e.terminates = true
    · rw [joinArms_skip he]
      exact ih h
    · rw [joinArms_cons he]
      split
      · exact ih h
      · exact ih (report_errors _ _ _ _)

theorem joinArms_loop : JoinLoop (fun e => !e.terminates) Expr.type joinArms where
  done _ _ := rfl
  skip r e es s he := joinArms_skip (by simpa using he) r es s
  first e es s he := by
    have harm : joinArm none e = pure (some e.type) := by rw [joinArm, if_neg (by simpa using he)]
    rw [joinArms_bind, harm, pure_bind]
  next t j e es s he hj := by rw [joinArms_cons (by simpa using he), hj]
  fail t e es s he hj := by
    rw [joinArms_cons (by simpa using he), hj]
    exact joinArms_failed (report_errors _ _ _ _)

theorem joinArms_settles (bodies : List (Expr .typed)) :
    Settles ((returning bodies).map Expr.type) (joinArms none bodies) := joinArms_loop.settles bodies

/-- Whether two computations that join types in different orders, those of `ts` in the first one, are
as good as each other: accepted in both orders they give equal types, and if no type is `Any` itself
they are accepted in both orders or in none. -/
def Interchange (ts : List Ty) (x y : Typing (Option Ty)) : Prop :=
  ∀ s, s.errors = #[] → (x.run s).2.errors = #[] →
    ((∀ t ∈ ts, t.isAny = false) → (y.run s).2.errors = #[]) ∧
    ((y.run s).2.errors = #[] → Ty.Alike (x.run s).1 (y.run s).1)

theorem Settles.accepted {ts : List Ty} {x : Typing (Option Ty)} (h : Settles ts x) {s : State}
    (hs : s.errors = #[]) :
    (x.run s).2.errors = #[] ↔ ∃ j, Ty.agreed ts = some j ∧ x.run s = (j, s) := by
  have hx := h s
  cases hj : Ty.agreed ts with
  | none => simpa [hj] using hx
  | some j =>
    have hrun : x.run s = (j, s) := by simpa only [hj] using hx
    simp [hrun, hs]

theorem Settles.interchange {ts us : List Ty} {x y : Typing (Option Ty)} (hx : Settles ts x)
    (hy : Settles us y) (hp : ts.Perm us) : Interchange ts x y := by
  intro s hs hok
  obtain ⟨j, hj, hxj⟩ := (hx.accepted hs).mp hok
  refine ⟨fun hplain => ?_, fun hok' => ?_⟩
  · have hsome : (Ty.agreed us).isSome = true :=
      Ty.agreed_isSome_of_perm hp hplain (by simp [hj])
    obtain ⟨k, hk⟩ := Option.isSome_iff_exists.mp hsome
    have hyk : y.run s = (k, s) := by simpa only [hk] using hy s
    simp [hyk, hs]
  · obtain ⟨k, hk, hyk⟩ := (hy.accepted hs).mp hok'
    rw [hxj, hyk]
    exact Ty.agreed_alike hp hj hk

/-- Types joined from the left in two orders give equal types if both orders succeed. If no type is
`Any` itself both succeed or both fail; with `Any` among them it is the types before the first one
that decide. So what is true of the elements of an array, of the places where a function returns and
of the arms of a match. -/
theorem order_interchange :
    (∀ ts us : List Ty, ts.Perm us →
      (∀ j k, Ty.agreed ts = some j → Ty.agreed us = some k → Ty.Alike j k) ∧
      ((∀ t ∈ ts, t.isAny = false) → (Ty.agreed ts).isSome = (Ty.agreed us).isSome)) ∧
    (∀ ts, (Ty.agreed ts).isSome = (Ty.agreed (ts.takeWhile fun t => !t.isAny)).isSome) ∧
    (∀ es es' : List (Expr .typed), es.Perm es' →
      Interchange (es.map Expr.type) (elementType none es) (elementType none es')) ∧
    (∀ (f : UserFunction) (sites sites' : List (Token × Ty)), sites.Perm sites' →
      Interchange (sites.map Prod.snd) (joinSites f none sites) (joinSites f none sites')) ∧
    (∀ bodies bodies' : List (Expr .typed), bodies.Perm bodies' →
      Interchange ((returning bodies).map Expr.type) (joinArms none bodies)
        (joinArms none bodies')) := by
  refine ⟨fun ts us hp => ⟨fun j k => Ty.agreed_alike hp, fun hplain => ?_⟩, Ty.agreed_takeWhile,
    fun es es' hp => ?_, fun f sites sites' hp => ?_, fun bodies bodies' hp => ?_⟩
  · have hplain' : ∀ t ∈ us, t.isAny = false := fun t ht => hplain t (hp.mem_iff.mpr ht)
    exact Bool.eq_iff_iff.mpr ⟨Ty.agreed_isSome_of_perm hp hplain,
      Ty.agreed_isSome_of_perm hp.symm hplain'⟩
  · exact (elementType_settles es).interchange (elementType_settles es') (hp.map _)
  · exact (joinSites_settles f sites).interchange (joinSites_settles f sites') (hp.map _)
  · exact (joinArms_settles bodies).interchange (joinArms_settles bodies') ((hp.filter _).map _)

/-- An option of anything and one of an integer agree in either order. -/
theorem order_interchange_options :
    Ty.agreed [.optionOf .any, .optionOf .int] = some (some (.optionOf .int)) ∧
      (Ty.agreed [.optionOf .int, .optionOf .any]).isSome = true := by
  have hplain : ∀ t ∈ [Ty.optionOf .any, Ty.optionOf .int], t.isAny = false := by
    simp [Ty.optionOf, Ty.isAny, Ty.isNamed]
  have hsome := (order_interchange.1 _ _ (List.Perm.swap (Ty.optionOf .int) (Ty.optionOf .any) [])).2
    hplain
  exact ⟨rfl, hsome.symm.trans rfl⟩

/-- An integer and a text disagree unless `Any` comes first. -/
theorem order_of_any :
    Ty.agreed [.int, .string, .any] = none ∧ Ty.agreed [.any, .int, .string] = some (some .any) ∧
      [Ty.int, Ty.string, Ty.any].Perm [Ty.any, Ty.int, Ty.string] :=
  have hp : ([Ty.int, Ty.string] ++ [Ty.any]).Perm ([Ty.any] ++ [Ty.int, Ty.string]) :=
    List.perm_append_comm
  ⟨rfl, rfl, hp⟩

end Scripting.Typing
