import Scripting.Proofs.Types.Renaming

/-!
# What matching arguments against a signature settles

A parameter and its argument are walked through together; where the parameter has a type variable it
meets a type of the argument. The first type that a type parameter meets settles it
(`infer_recorded`), and what is settled is put in everywhere at once, since the types of the arguments
have no variables (`apply_eq_put`). All of this is carried along by a renaming of the type parameters,
one step of the match at a time.
-/

namespace Scripting

theorem toOption_bind {α β ε : Type} (x : Except ε α) (f : α → Except ε β) :
    (x >>= f).toOption = x.toOption.bind fun a => (f a).toOption := by
  cases x <;> rfl

namespace Subst

def put (s : Subst) (t : Ty) : Ty := t.mapVars fun x => (s.lookup x).getD (.var x)

/-- Other names for the variables. -/
def rename (σ : String → String) (s : Subst) : Subst := s.map fun e => (σ e.1, e.2)

theorem mem_of_lookup {s : Subst} {x : String} {t : Ty} (h : s.lookup x = some t) : (x, t) ∈ s := by
  obtain ⟨l, r, rfl, -⟩ := List.lookup_eq_some_iff.mp h
  simp

theorem applyUpTo_closed (s : Subst) (n : Nat) (inside : List String) {t : Ty} (ht : t.Closed) :
    s.applyUpTo n inside t = t := by
  cases n with
  | zero => rfl
  | succ n => exact ht.mapVars _

theorem apply_eq_put {s : Subst} (hs : ∀ e ∈ s, e.2.Closed) (t : Ty) : s.apply t = s.put t := by
  cases s with
  | nil => simp [apply, applyUpTo, put]
  | cons e s =>
    refine Ty.mapVars_congr t fun x _ => ?_
    cases hx : List.lookup x (e :: s) with
    | none => simp
    | some r => simp [applyUpTo_closed _ _ _ (hs _ (mem_of_lookup hx))]

theorem lookup_rename {σ : String → String} {s : Subst} {x : String}
    (h : ∀ e ∈ s, σ e.1 = σ x → e.1 = x) : (s.rename σ).lookup (σ x) = s.lookup x := by
  induction s with
  | nil => rfl
  | cons e s ih =>
    have hrest := ih fun d hd => h d (List.mem_cons_of_mem e hd)
    rw [rename, List.map_cons, List.lookup_cons, List.lookup_cons]
    by_cases hx : e.1 = x
    · simp [hx]
    · have hσ : σ e.1 ≠ σ x := fun heq => hx (h e List.mem_cons_self heq)
      rw [beq_false_of_ne (Ne.symm hσ), beq_false_of_ne (Ne.symm hx)]
      exact hrest

theorem closed_rename {σ : String → String} {s : Subst} (hs : ∀ e ∈ s, e.2.Closed) :
    ∀ e ∈ s.rename σ, e.2.Closed := by
  intro e he
  obtain ⟨d, hd, rfl⟩ := List.mem_map.mp he
  exact hs d hd

theorem put_rename {σ : String → String} {s : Subst} (hs : ∀ e ∈ s, e.2.Closed) {t : Ty}
    (h : ∀ x ∈ t.vars, ∀ e ∈ s, σ e.1 = σ x → e.1 = x) :
    (s.rename σ).put (t.rename σ) = (s.put t).rename σ := by
  rw [put, Ty.rename, Ty.mapVars_mapVars, put, Ty.rename, Ty.mapVars_mapVars]
  refine Ty.mapVars_congr t fun x hx => ?_
  rw [Ty.mapVars, lookup_rename (h x hx)]
  cases hl : s.lookup x with
  | none => rfl
  | some r => exact (Ty.rename_closed σ (hs _ (mem_of_lookup hl))).symm

end Subst

namespace Ty

def appAmong (bases : Ty → List Ty) (c : TyCon) (t : Ty) : Option (List Ty) :=
  (t :: allBases bases t).findSome? (argsOf? c)

mutual

/-- The variables of a parameter, from left to right and depth first, each with the type that it meets
in an argument. -/
def meets (bases : Ty → List Ty) : Ty → Ty → List (String × Ty)
  | var x, a => [(x, a)]
  | app c ps, a =>
    match appAmong bases c a with
    | some as => if as.length = ps.length then meetsList bases ps as else []
    | none => []
  | func ps r _, func as r' _ =>
    if as.length = ps.length then meetsList bases ps as ++ meets bases r r' else []
  | _, _ => []

def meetsList (bases : Ty → List Ty) : List Ty → List Ty → List (String × Ty)
  | p :: ps, a :: as => meets bases p a ++ meetsList bases ps as
  | _, _ => []

end

/-- Base types whose search ends and finds types without variables, for types without variables. -/
def ClosedBases (bases : Ty → List Ty) : Prop :=
  ∀ t, Closed t → BaseSearch.Ends bases ⟨[], bases t⟩ ∧ ∀ b ∈ allBases bases t, Closed b

theorem appOf?_ok {bases : Ty → List Ty} {c : TyCon} {t : Ty} {o : Option (List Ty)}
    (h : appOf? bases c t = .ok o) : o = appAmong bases c t := by
  rw [appAmong, List.findSome?_cons]
  unfold appOf? at h
  cases ht : t.argsOf? c with
  | some as => simpa [ht] using h.symm
  | none =>
    simp only [ht, allBases?] at h
    split at h
    · rename_i found hfound
      split at hfound
      · cases hfound
        simpa using h.symm
      · simp at hfound
    · simp at h

theorem closed_argsOf? {c : TyCon} {t : Ty} {as : List Ty} (ht : Closed t)
    (h : t.argsOf? c = some as) : ∀ a ∈ as, Closed a := by
  cases t with
  | app d ts =>
    by_cases hd : d.name = c.name
    · simp [argsOf?, hd] at h
      exact h ▸ closed_app.mp ht
    · simp [argsOf?, hd] at h
  | _ => simp [argsOf?] at h

theorem closed_appAmong {bases : Ty → List Ty} (hbases : ClosedBases bases) {c : TyCon} {t : Ty}
    {as : List Ty} (ht : Closed t) (h : appAmong bases c t = some as) : ∀ a ∈ as, Closed a := by
  obtain ⟨u, hu, has⟩ := List.exists_of_findSome?_eq_some h
  have hclosed : Closed u := (List.mem_cons.mp hu).elim (fun e => e ▸ ht) ((hbases t ht).2 u)
  exact closed_argsOf? hclosed has

mutual

theorem closed_meets {bases : Ty → List Ty} (hbases : ClosedBases bases) : (p a : Ty) → Closed a →
    ∀ m ∈ meets bases p a, m.1 ∈ p.vars ∧ Closed m.2
  | var x, a, ha => by simpa [meets, vars] using ha
  | app c ps, a, ha => by
    intro m hm
    simp only [meets] at hm
    split at hm
    · rename_i as has
      by_cases hlen : as.length = ps.length
      · rw [if_pos hlen] at hm
        exact closed_meetsList hbases ps as (closed_appAmong hbases ha has) m hm
      · simp [hlen] at hm
    · simp at hm
  | func ps r v, a, ha => by
    intro m hm
    cases a with
    | func as r' v' =>
      have has := closed_func.mp ha
      by_cases hlen : as.length = ps.length
      · simp only [meets, hlen, if_true, List.mem_append] at hm
        simp only [vars, List.mem_append]
        cases hm with
        | inl hm =>
          have hmem := closed_meetsList hbases ps as has.1 m hm
          exact ⟨Or.inl hmem.1, hmem.2⟩
        | inr hm =>
          have hmem := closed_meets hbases r r' has.2 m hm
          exact ⟨Or.inr hmem.1, hmem.2⟩
      · simp [meets, hlen] at hm
    | _ => simp [meets] at hm
  | unknown, a, _ => by simp [meets]
  | con c, a, _ => by simp [meets]
  | type t, a, _ => by simp [meets]

theorem closed_meetsList {bases : Ty → List Ty} (hbases : ClosedBases bases) : (ps as : List Ty) →
    (∀ a ∈ as, Closed a) → ∀ m ∈ meetsList bases ps as, m.1 ∈ varsOfList ps ∧ Closed m.2
  | [], as, _ => by simp [meetsList]
  | p :: ps, as, has => by
    intro m hm
    cases as with
    | nil => simp [meetsList] at hm
    | cons a as =>
      simp only [meetsList, List.mem_append] at hm
      simp only [varsOfList, List.mem_append]
      cases hm with
      | inl hm =>
        have hmem := closed_meets hbases p a (has a List.mem_cons_self) m hm
        exact ⟨Or.inl hmem.1, hmem.2⟩
      | inr hm =>
        have htail : ∀ b ∈ as, Closed b := fun b hb => has b (List.mem_cons_of_mem a hb)
        have hmem := closed_meetsList hbases ps as htail m hm
        exact ⟨Or.inr hmem.1, hmem.2⟩

end

def agrees (t u : Ty) : Bool := t.same u || t.isAny || u.isAny

/-- What a substitution settles once its type parameters have met further types: those that were
settled stay as they are, the others have the first type that they meet, and no type that they meet
is at odds with it. -/
structure Recorded (generic : List String) (s : Subst) (ms : List (String × Ty)) (s' : Subst) :
    Prop where
  first : ∀ x, s'.lookup x = (s.lookup x).or (if x ∈ generic then ms.lookup x else none)
  agree : ∀ m ∈ ms, m.1 ∈ generic → ∀ t, s'.lookup m.1 = some t → agrees t m.2 = true
  entries : ∀ e ∈ s', e ∈ s ∨ e.1 ∈ generic ∧ e ∈ ms

namespace Recorded

variable {generic : List String} {s s' s'' : Subst} {ms ns : List (String × Ty)}

theorem nil : Recorded generic s [] s where
  first x := by simp
  agree := by simp
  entries e he := Or.inl he

theorem append (h : Recorded generic s ms s') (k : Recorded generic s' ns s'') :
    Recorded generic s (ms ++ ns) s'' where
  first x := by
    rw [k.first, h.first, List.lookup_append]
    by_cases hx : x ∈ generic <;> simp [hx, Option.or_assoc]
  agree m hm hgeneric t ht := by
    cases List.mem_append.mp hm with
    | inl hm =>
      refine h.agree m hm hgeneric t ?_
      have hfirst := h.first m.1
      have hmeets : (List.lookup m.1 ms).isSome = true := List.lookup_isSome_iff.mpr ⟨m, hm, by simp⟩
      obtain ⟨u, hu⟩ := Option.isSome_iff_exists.mp hmeets
      rw [k.first, hfirst, if_pos hgeneric, hu] at ht
      rw [hfirst, if_pos hgeneric, hu]
      cases hs : List.lookup m.1 s <;> simpa [hs] using ht
    | inr hm => exact k.agree m hm hgeneric t ht
  entries e he := by
    cases k.entries e he with
    | inl he =>
      cases h.entries e he with
      | inl he => exact Or.inl he
      | inr he => exact Or.inr ⟨he.1, List.mem_append_left ns he.2⟩
    | inr he => exact Or.inr ⟨he.1, List.mem_append_right ms he.2⟩

end Recorded

theorem Recorded.of_ok {generic : List String} {s s' : Subst}
    (h : (Except.ok s : Except BindError Subst).toOption = some s') : Recorded generic s [] s' := by
  cases h
  exact .nil

theorem infer_var {bases : Ty → List Ty} {generic : List String} {i : Nat} (x : String) (a : Ty)
    (s : Subst) : (infer bases generic i (var x) a s).toOption =
      if x ∈ generic then
        match s.lookup x with
        | none => some (s ++ [(x, a)])
        | some t => if agrees t a then some s else none
      else some s := by
  simp only [infer]
  by_cases hx : x ∈ generic
  · cases hl : s.lookup x with
    | none => simp [hx, Except.toOption]
    | some t => cases hs : t.same a <;> cases ha : a.isAny <;> cases ht : t.isAny <;>
        simp [hx, hs, ha, ht, agrees, Except.toOption]
  · simp [hx, Except.toOption]

theorem infer_var_recorded {bases : Ty → List Ty} {generic : List String} {i : Nat} {x : String}
    {a : Ty} {s s' : Subst} (h : (infer bases generic i (var x) a s).toOption = some s') :
    Recorded generic s [(x, a)] s' := by
  rw [infer_var] at h
  by_cases hx : x ∈ generic
  · rw [if_pos hx] at h
    cases hl : s.lookup x with
    | none =>
      simp only [hl, Option.some.injEq] at h
      subst h
      refine ⟨fun y => ?_, fun m hm _ t ht => ?_, fun e he => ?_⟩
      · rw [List.lookup_append]
        by_cases hy : y = x
        · simp [hy, hx]
        · simp [List.lookup_cons, beq_false_of_ne hy]
      · rw [List.mem_singleton.mp hm] at ht ⊢
        have hta : a = t := by simpa [List.lookup_append, hl] using ht
        simp [agrees, hta]
      · cases List.mem_append.mp he with
        | inl he => exact Or.inl he
        | inr he => exact Or.inr ⟨by rwa [List.mem_singleton.mp he], he⟩
    | some prev =>
      simp only [hl, Option.ite_none_right_eq_some, Option.some.injEq] at h
      obtain ⟨hagree, rfl⟩ := h
      refine ⟨fun y => ?_, fun m hm _ t ht => ?_, fun e he => Or.inl he⟩
      · by_cases hy : y = x
        · simp [hy, hl]
        · simp [List.lookup_cons, beq_false_of_ne hy]
      · rw [List.mem_singleton.mp hm] at ht ⊢
        rw [hl] at ht
        cases ht
        exact hagree
  · rw [if_neg hx] at h
    cases h
    refine ⟨fun y => ?_, fun m hm hgeneric => ?_, fun e he => Or.inl he⟩
    · by_cases hy : y = x
      · simp [hy, hx]
      · simp [List.lookup_cons, beq_false_of_ne hy]
    · rw [List.mem_singleton.mp hm] at hgeneric
      exact absurd hgeneric hx

mutual

theorem infer_recorded {bases : Ty → List Ty} {generic : List String} {i : Nat} :
    (p a : Ty) → (s s' : Subst) → (infer bases generic i p a s).toOption = some s' →
    Recorded generic s (meets bases p a) s'
  | var x, a, s, s', h => infer_var_recorded h
  | app c ps, a, s, s', h => by
    simp only [infer] at h
    split at h
    · rename_i as has
      simp only [meets, ← appOf?_ok has]
      by_cases hlen : as.length = ps.length
      · rw [if_pos (by simpa using hlen)] at h
        rw [if_pos hlen]
        exact inferList_recorded ps as s s' h
      · rw [if_neg (by simpa using hlen)] at h
        rw [if_neg hlen]
        exact .of_ok h
    · rename_i hnone
      simp only [meets, ← appOf?_ok hnone]
      exact .of_ok h
    · cases h
  | func ps r v, a, s, s', h => by
    cases a with
    | func as r' v' =>
      simp only [infer] at h
      by_cases hlen : as.length = ps.length
      · rw [if_pos (by simpa using hlen), toOption_bind] at h
        obtain ⟨s₁, hps, hr⟩ := Option.bind_eq_some_iff.mp h
        simp only [meets, if_pos hlen]
        exact (inferList_recorded ps as s s₁ hps).append (infer_recorded r r' s₁ s' hr)
      · rw [if_neg (by simpa using hlen)] at h
        simp only [meets, if_neg hlen]
        exact .of_ok h
    | _ => exact .of_ok h
  | unknown, a, s, s', h => .of_ok h
  | con c, a, s, s', h => .of_ok h
  | type t, a, s, s', h => .of_ok h

theorem inferList_recorded {bases : Ty → List Ty} {generic : List String} {i : Nat} :
    (ps as : List Ty) → (s s' : Subst) → (inferList bases generic i ps as s).toOption = some s' →
    Recorded generic s (meetsList bases ps as) s'
  | [], as, s, s', h => .of_ok h
  | p :: ps, [], s, s', h => .of_ok h
  | p :: ps, a :: as, s, s', h => by
    rw [inferList, toOption_bind] at h
    obtain ⟨s₁, hp, hps⟩ := Option.bind_eq_some_iff.mp h
    exact (infer_recorded p a s s₁ hp).append (inferList_recorded ps as s₁ s' hps)

end

theorem inferAll_recorded {bases : Ty → List Ty} {generic : List String} {i : Nat}
    {ps as : List Ty} {s s' : Subst} (h : (inferAll bases generic i ps as s).toOption = some s') :
    Recorded generic s (meetsList bases ps as) s' := by
  induction ps generalizing i as s with
  | nil => exact .of_ok h
  | cons p ps ih =>
    cases as with
    | nil => exact .of_ok h
    | cons a as =>
      rw [inferAll, toOption_bind] at h
      obtain ⟨s₁, hp, hps⟩ := Option.bind_eq_some_iff.mp h
      exact (infer_recorded p a s s₁ hp).append (ih hps)

end Ty

/-- The parameter that the argument at an index belongs to; the last one of a variadic signature takes
all further ones. -/
def Signature.paramAt (sig : Signature) (i : Nat) : Ty :=
  sig.params.getD (if sig.variadic then min i (sig.params.length - 1) else i) .unknown

def Signature.expanded (sig : Signature) (n : Nat) : List Ty := (List.range n).map sig.paramAt

/-- The type variables of a signature. -/
def Signature.vars (sig : Signature) : List String := Ty.varsOfList sig.params ++ sig.result.vars

/-- A signature with other names for its type variables. -/
def Signature.rename (σ : String → String) (sig : Signature) : Signature :=
  { sig with params := sig.params.map (Ty.rename σ), result := sig.result.rename σ }

/-- A match against a signature with other names for its type variables. -/
def Binding.Match.rename (σ : String → String) (m : Binding.Match) : Binding.Match :=
  { m with
    subst := m.subst.rename σ
    params := m.params.map (Ty.rename σ)
    result := m.result.rename σ }

namespace Ty

theorem expandParams_expanded {sig : Signature} {n : Nat} {ps : List Ty}
    (h : (expandParams sig n).toOption = some ps) :
    ps = sig.expanded n ∧ ∀ p ∈ ps, p ∈ sig.params := by
  unfold expandParams at h
  cases hv : sig.variadic with
  | false =>
    simp only [hv, Bool.not_false, if_true] at h
    by_cases hlen : sig.params.length = n
    · rw [if_pos (by simpa using hlen)] at h
      cases h
      refine ⟨List.ext_getElem (by simp [Signature.expanded, hlen]) fun i hi _ => ?_, by simp⟩
      simp [Signature.expanded, Signature.paramAt, hv, hi]
    · rw [if_neg (by simpa using hlen)] at h
      cases h
  | true =>
    simp only [hv, Bool.not_true, Bool.false_eq_true, if_false] at h
    cases hlast : sig.params.getLast? with
    | none =>
      rw [hlast] at h
      cases h
    | some last =>
      obtain ⟨fixed, hfixed⟩ := List.getLast?_eq_some_iff.mp hlast
      simp only [hfixed, List.getLast?_concat, List.dropLast_concat] at h
      by_cases hn : n < fixed.length
      · rw [if_pos hn] at h
        cases h
      · rw [if_neg hn] at h
        cases h
        refine ⟨List.ext_getElem (by simp [Signature.expanded]; omega) fun i hi _ => ?_, ?_⟩
        · simp only [Signature.expanded, Signature.paramAt, hv, hfixed, if_true, List.getElem_map,
            List.getElem_range, List.length_append, List.length_singleton, Nat.add_sub_cancel]
          by_cases hi' : i < fixed.length
          · rw [Nat.min_eq_left (by omega), List.getElem_append_left hi']
            simp [List.getElem?_append_left hi', hi']
          · rw [Nat.min_eq_right (by omega), List.getElem_append_right (by omega)]
            simp
        · intro p hp
          rw [hfixed]
          cases List.mem_append.mp hp with
          | inl hp => exact List.mem_append_left _ hp
          | inr hp => simp [List.eq_of_mem_replicate hp]

theorem assignable_of_assignable? {bases : Ty → List Ty} {t u : Ty}
    (h : assignable? bases t u = some true) : assignable bases t u = true := by
  unfold assignable? at h
  by_cases hknown : (t.isUnknown || u.isUnknown) = true
  · simp [hknown] at h
  · rw [if_neg hknown] at h
    simp only [Bool.or_eq_true, not_or, Bool.not_eq_true] at hknown
    by_cases hdirect : assignableDirectly t u = true
    · simp [assignable, hknown, hdirect]
    · rw [if_neg hdirect, Option.map_eq_some_iff] at h
      obtain ⟨found, hfound, hany⟩ := h
      simp only [allBases?, Option.ite_none_right_eq_some, Option.some.injEq] at hfound
      rw [← hfound.2] at hany
      simp [assignable, hknown, hdirect, hany]

theorem checkArgs_cons {bases : Ty → List Ty} {generic : List String} {s : Subst} {i : Nat}
    {p a : Ty} {ps as : List Ty} :
    (checkArgs bases generic s i (p :: ps) (a :: as)).toOption =
      if p.isUnknown = false ∧ assignable? bases (s.apply p) a = some true then
        (fit generic p (s.apply p) a).toOption.bind fun score =>
          (checkArgs bases generic s (i + 1) ps as).toOption.map fun r =>
            (s.apply p :: r.1, score + r.2)
      else none := by
  rw [checkArgs]
  cases hp : p.isUnknown with
  | true => rfl
  | false =>
    cases hstore : assignable? bases (s.apply p) a with
    | none => simp [hstore, Except.toOption]
    | some ok =>
      cases ok with
      | false => simp [hstore, Except.toOption]
      | true =>
        simp only [hstore, Bool.false_eq_true, if_false, and_self, if_true, toOption_bind]
        cases checkArgs bases generic s (i + 1) ps as <;> rfl

theorem checkArgs_accepted {bases : Ty → List Ty} {generic : List String} {s : Subst} {i : Nat}
    {ps as : List Ty} {r : List Ty × Nat} (hlen : ps.length = as.length)
    (h : (checkArgs bases generic s i ps as).toOption = some r) :
    r.1 = ps.map s.apply ∧ List.Forall₂ (fun p a => assignable bases p a = true) r.1 as := by
  induction ps generalizing i as r with
  | nil =>
    cases as with
    | nil =>
      cases h
      exact ⟨rfl, .nil⟩
    | cons a as => simp at hlen
  | cons p ps ih =>
    cases as with
    | nil => simp at hlen
    | cons a as =>
      rw [checkArgs_cons, Option.ite_none_right_eq_some] at h
      obtain ⟨⟨-, hstore⟩, h⟩ := h
      obtain ⟨score, -, h⟩ := Option.bind_eq_some_iff.mp h
      obtain ⟨rest, hrest, rfl⟩ := Option.map_eq_some_iff.mp h
      have htail := ih (by simpa using hlen) hrest
      exact ⟨by simp [htail.1], .cons (assignable_of_assignable? hstore) htail.2⟩

theorem bind_toOption {bases : Ty → List Ty} {sig : Signature} {generic : List String}
    {args : List Ty} : (bind bases sig generic args).toOption =
      (expandParams sig args.length).toOption.bind fun ps =>
        (inferAll bases generic 1 ps args []).toOption.bind fun s =>
          (checkArgs bases generic s 1 ps args).toOption.map fun r =>
            ⟨s, r.1, s.apply sig.result, r.2⟩ := by
  simp only [bind, toOption_bind]
  refine Option.bind_congr fun ps _ => Option.bind_congr fun s _ => ?_
  cases checkArgs bases generic s 1 ps args <;> rfl

/-- What a match settles: each type parameter has the first type that it meets, if any, no type that
it meets is at odds with that, and put into the parameters this makes each of them accept its
argument. -/
structure Principal (bases : Ty → List Ty) (sig : Signature) (generic : List String) (args : List Ty)
    (m : Binding.Match) : Prop where
  first : ∀ x, m.subst.lookup x =
    if x ∈ generic then (meetsList bases (sig.expanded args.length) args).lookup x else none
  agree : ∀ x ∈ generic, ∀ a, (x, a) ∈ meetsList bases (sig.expanded args.length) args →
    ∀ t, m.subst.lookup x = some t → agrees t a = true
  params : m.params = (sig.expanded args.length).map m.subst.put
  accepted : List.Forall₂ (fun p a => assignable bases p a = true) m.params args
  result : m.result = m.subst.put sig.result

section Matching

variable {bases : Ty → List Ty} {sig : Signature} {generic : List String} {args : List Ty}

theorem Recorded.closed (hbases : ClosedBases bases) (hargs : ∀ a ∈ args, Closed a) {ps : List Ty}
    {s : Subst} (h : Recorded generic [] (meetsList bases ps args) s) : ∀ e ∈ s, e.2.Closed := by
  intro e he
  have hmeets := (h.entries e he).resolve_left (by simp)
  exact (closed_meetsList hbases ps args hargs e hmeets.2).2

theorem bind_settles (hbases : ClosedBases bases) (hargs : ∀ a ∈ args, Closed a) {m : Binding.Match}
    (h : bind bases sig generic args = .ok m) : Principal bases sig generic args m := by
  have hok : (bind bases sig generic args).toOption = some m := by rw [h]; rfl
  rw [bind_toOption] at hok
  obtain ⟨ps, hps, hok⟩ := Option.bind_eq_some_iff.mp hok
  obtain ⟨s, hs, hok⟩ := Option.bind_eq_some_iff.mp hok
  obtain ⟨r, hr, rfl⟩ := Option.map_eq_some_iff.mp hok
  obtain ⟨rfl, -⟩ := expandParams_expanded hps
  have hrec := inferAll_recorded hs
  have hput : s.apply = s.put := funext (Subst.apply_eq_put (hrec.closed hbases hargs))
  have hcheck := checkArgs_accepted (by simp [Signature.expanded]) hr
  exact
    { first := fun x => by simpa using hrec.first x
      agree := fun x hx a ha => hrec.agree (x, a) ha hx
      params := hput ▸ hcheck.1
      accepted := hcheck.2
      result := congrFun hput sig.result }

/-- Renames the type parameters among the type variables. -/
def renamed (generic : List String) (ρ : String → String) (x : String) : String :=
  if x ∈ generic then ρ x else x

/-- Names that keep type parameters apart from each other and from all other type variables of a
signature. -/
structure Renames (sig : Signature) (generic : List String) (ρ : String → String) : Prop where
  apart : ∀ x ∈ generic, ∀ y ∈ generic, ρ x = ρ y → x = y
  fresh : ∀ x ∈ generic, ∀ y ∈ sig.vars, y ∉ generic → ρ x ≠ y

/-- Whether new names tell type parameters apart from all variables of a list. -/
def Distinguishes (σ : String → String) (generic : List String) (xs : List String) : Prop :=
  ∀ x ∈ xs, ∀ y ∈ generic, σ y = σ x → y = x

theorem Renames.distinguishes {ρ : String → String} (h : Renames sig generic ρ) :
    Distinguishes (renamed generic ρ) generic sig.vars := by
  intro x hx y hy heq
  by_cases hgeneric : x ∈ generic
  · simp only [renamed, hy, hgeneric, if_true] at heq
    exact h.apart y hy x hgeneric heq
  · simp only [renamed, hy, hgeneric, if_true, if_false] at heq
    exact absurd heq (h.fresh y hy x hx hgeneric)

variable {σ : String → String} {xs : List String}

theorem Distinguishes.mem_map (h : Distinguishes σ generic xs) {x : String} (hx : x ∈ xs) :
    σ x ∈ generic.map σ ↔ x ∈ generic := by
  constructor
  · intro hmem
    obtain ⟨y, hy, heq⟩ := List.mem_map.mp hmem
    exact h x hx y hy heq ▸ hy
  · exact List.mem_map_of_mem

theorem Distinguishes.mono (h : Distinguishes σ generic xs) {ys : List String} (hsub : ys ⊆ xs) :
    Distinguishes σ generic ys := fun x hx => h x (hsub hx)

def Keyed (generic : List String) (s : Subst) : Prop := ∀ e ∈ s, e.1 ∈ generic

theorem Recorded.keyed {s s' : Subst} {ms : List (String × Ty)} (h : Recorded generic s ms s')
    (hs : Keyed generic s) : Keyed generic s' := fun e he =>
  (h.entries e he).elim (hs e) And.left

theorem infer_var_rename {i : Nat} {x : String} {a : Ty} {s : Subst}
    (hσ : Distinguishes σ generic [x]) (hs : Keyed generic s) :
    (infer bases (generic.map σ) i (var (σ x)) a (s.rename σ)).toOption =
      (infer bases generic i (var x) a s).toOption.map (Subst.rename σ) := by
  have hlookup : (s.rename σ).lookup (σ x) = s.lookup x :=
    Subst.lookup_rename fun e he => hσ x (by simp) e.1 (hs e he)
  rw [infer_var, infer_var, hlookup]
  simp only [hσ.mem_map (x := x) (by simp)]
  by_cases hx : x ∈ generic
  · cases s.lookup x with
    | none => simp [hx, Subst.rename]
    | some t => by_cases hagree : agrees t a = true <;> simp [hx, hagree]
  · simp [hx]

mutual

theorem infer_rename {i : Nat} : (p a : Ty) → (s : Subst) → Distinguishes σ generic p.vars →
    Keyed generic s → (infer bases (generic.map σ) i (p.rename σ) a (s.rename σ)).toOption =
      (infer bases generic i p a s).toOption.map (Subst.rename σ)
  | var x, a, s, hσ, hs => infer_var_rename hσ hs
  | app c ps, a, s, hσ, hs => by
    rw [rename_app]
    simp only [infer]
    split
    · rename_i as _
      by_cases hlen : as.length = ps.length
      · simpa [hlen] using inferList_rename ps as s hσ hs
      · simp [hlen, Except.toOption]
    · rfl
    · rfl
  | func ps r v, a, s, hσ, hs => by
    rw [rename_func]
    cases a with
    | func as r' v' =>
      simp only [infer, List.length_map]
      by_cases hlen : as.length = ps.length
      · have hps : Distinguishes σ generic (varsOfList ps) := hσ.mono (by simp [vars])
        have hr : Distinguishes σ generic r.vars := hσ.mono (by simp [vars])
        simp only [hlen, beq_self_eq_true, if_true, toOption_bind]
        rw [inferList_rename ps as s hps hs, Option.bind_map, Option.map_bind]
        exact Option.bind_congr fun s₁ h₁ =>
          infer_rename r r' s₁ hr ((inferList_recorded ps as s s₁ h₁).keyed hs)
      · simp [hlen, Except.toOption]
    | _ => rfl
  | unknown, a, s, _, _ => rfl
  | con c, a, s, _, _ => rfl
  | type t, a, s, _, _ => rfl

theorem inferList_rename {i : Nat} : (ps as : List Ty) → (s : Subst) →
    Distinguishes σ generic (varsOfList ps) → Keyed generic s →
    (inferList bases (generic.map σ) i (ps.map (rename σ)) as (s.rename σ)).toOption =
      (inferList bases generic i ps as s).toOption.map (Subst.rename σ)
  | [], as, s, _, _ => rfl
  | p :: ps, [], s, _, _ => rfl
  | p :: ps, a :: as, s, hσ, hs => by
    have hp : Distinguishes σ generic p.vars := hσ.mono (by simp [varsOfList])
    have hps : Distinguishes σ generic (varsOfList ps) := hσ.mono (by simp [varsOfList])
    rw [List.map_cons, inferList, inferList, toOption_bind, toOption_bind, infer_rename p a s hp hs,
      Option.bind_map, Option.map_bind]
    exact Option.bind_congr fun s₁ h₁ =>
      inferList_rename ps as s₁ hps ((infer_recorded p a s s₁ h₁).keyed hs)

end

theorem inferAll_rename {i : Nat} {ps as : List Ty} {s : Subst}
    (hσ : Distinguishes σ generic (varsOfList ps)) (hs : Keyed generic s) :
    (inferAll bases (generic.map σ) i (ps.map (rename σ)) as (s.rename σ)).toOption =
      (inferAll bases generic i ps as s).toOption.map (Subst.rename σ) := by
  induction ps generalizing i as s with
  | nil => rfl
  | cons p ps ih =>
    cases as with
    | nil => rfl
    | cons a as =>
      have hp : Distinguishes σ generic p.vars := hσ.mono (by simp [varsOfList])
      have hps : Distinguishes σ generic (varsOfList ps) := hσ.mono (by simp [varsOfList])
      rw [List.map_cons, inferAll, inferAll, toOption_bind, toOption_bind,
        infer_rename p a s hp hs, Option.bind_map, Option.map_bind]
      exact Option.bind_congr fun s₁ h₁ => ih hps ((infer_recorded p a s s₁ h₁).keyed hs)

theorem fit_of_ne_var {p : Ty} (h : ∀ x, p ≠ var x) (bound a : Ty) : fit generic p bound a =
    if p.isAny then .ok 0
    else if !p.isWhole then .error .incomplete
    else if !p.vars.isEmpty then .ok (if bound.same a then 2 else 1)
    else .ok (if bound.same a then 3 else 2) := by
  cases p <;> simp_all [fit, freeVars_isEmpty]

theorem fit_rename {p a : Ty} (hσ : Distinguishes σ generic p.vars) (bound : Ty) (ha : Closed a) :
    fit (generic.map σ) (p.rename σ) (bound.rename σ) a = fit generic p bound a := by
  have hsame := same_rename σ bound ha
  by_cases hvar : ∃ x, p = var x
  · obtain ⟨x, rfl⟩ := hvar
    have hx := hσ.mem_map (x := x) (by simp [vars])
    rw [show (var x).rename σ = var (σ x) from rfl]
    simp only [fit, List.contains_eq_mem, hx, hsame]
  · have hp : ∀ x, p ≠ var x := fun x hx => hvar ⟨x, hx⟩
    have hp' : ∀ x, p.rename σ ≠ var x := by
      cases p <;> simp_all [rename, mapVars]
    rw [fit_of_ne_var hp', fit_of_ne_var hp]
    simp [isWhole_rename, vars_rename, hsame]

theorem apply_rename {s : Subst} (hs : Keyed generic s) (hclosed : ∀ e ∈ s, e.2.Closed) {t : Ty}
    (hσ : Distinguishes σ generic t.vars) :
    (s.rename σ).apply (t.rename σ) = (s.apply t).rename σ := by
  rw [Subst.apply_eq_put (Subst.closed_rename hclosed), Subst.apply_eq_put hclosed]
  exact Subst.put_rename hclosed fun x hx e he => hσ x hx e.1 (hs e he)

theorem checkArgs_rename (hbases : ClosedBases bases) {s : Subst} (hs : Keyed generic s)
    (hclosed : ∀ e ∈ s, e.2.Closed) {i : Nat} {ps as : List Ty}
    (hσ : Distinguishes σ generic (varsOfList ps)) (has : ∀ a ∈ as, Closed a) :
    (checkArgs bases (generic.map σ) (s.rename σ) i (ps.map (rename σ)) as).toOption =
      (checkArgs bases generic s i ps as).toOption.map fun r => (r.1.map (rename σ), r.2) := by
  induction ps generalizing i as with
  | nil => rfl
  | cons p ps ih =>
    cases as with
    | nil => rfl
    | cons a as =>
      have ha : Closed a := has a List.mem_cons_self
      have hp : Distinguishes σ generic p.vars := hσ.mono (by simp [varsOfList])
      have hps : Distinguishes σ generic (varsOfList ps) := hσ.mono (by simp [varsOfList])
      have hbound := apply_rename hs hclosed hp
      have hrest := ih (i := i + 1) hps fun b hb => has b (List.mem_cons_of_mem a hb)
      rw [List.map_cons, checkArgs_cons, checkArgs_cons, hbound, isUnknown_rename,
        assignable?_rename σ bases _ ha (hbases a ha).2, fit_rename hp _ ha, hrest]
      split
      · cases fit generic p (s.apply p) a <;>
          cases checkArgs bases generic s (i + 1) ps as <;> rfl
      · rfl

theorem expandParams_rename (n : Nat) : (expandParams (sig.rename σ) n).toOption =
    (expandParams sig n).toOption.map (List.map (rename σ)) := by
  simp only [expandParams, Signature.rename, List.length_map, List.getLast?_map, ← List.map_dropLast]
  cases hlast : sig.params.getLast? with
  | none => split <;> [split; skip] <;> rfl
  | some last =>
    simp only [Option.map_some]
    split <;> split <;> simp [Except.toOption]

theorem bind_rename (hbases : ClosedBases bases) (hargs : ∀ a ∈ args, Closed a)
    (hσ : Distinguishes σ generic sig.vars) :
    (bind bases (sig.rename σ) (generic.map σ) args).toOption =
      (bind bases sig generic args).toOption.map (Binding.Match.rename σ) := by
  rw [bind_toOption, bind_toOption, expandParams_rename, Option.bind_map, Option.map_bind]
  refine Option.bind_congr fun ps hps => ?_
  have hpsσ : Distinguishes σ generic (varsOfList ps) := by
    refine hσ.mono fun x hx => ?_
    rw [varsOfList_eq_flatMap] at hx
    obtain ⟨p, hp, hxp⟩ := List.mem_flatMap.mp hx
    have hmem : p ∈ sig.params := (expandParams_expanded hps).2 p hp
    simp only [Signature.vars, varsOfList_eq_flatMap, List.mem_append, List.mem_flatMap]
    exact Or.inl ⟨p, hmem, hxp⟩
  have hresult : Distinguishes σ generic sig.result.vars := hσ.mono (by simp [Signature.vars])
  have hinfer : (inferAll bases (generic.map σ) 1 (ps.map (rename σ)) args []).toOption =
      (inferAll bases generic 1 ps args []).toOption.map (Subst.rename σ) :=
    inferAll_rename (s := []) hpsσ (by simp [Keyed])
  rw [Function.comp_apply, hinfer, Option.bind_map, Function.comp_apply, Option.map_bind]
  refine Option.bind_congr fun s hs => ?_
  have hrec := inferAll_recorded hs
  have hkeyed : Keyed generic s := hrec.keyed (by simp [Keyed])
  have hclosed := hrec.closed hbases hargs
  rw [Function.comp_apply, checkArgs_rename hbases hkeyed hclosed hpsσ hargs,
    Signature.rename, apply_rename hkeyed hclosed hresult]
  simp [Binding.Match.rename, Function.comp_def]

end Matching

/-- Matching closed arguments against a signature settles its type parameters from the first places
where they meet a type, at odds with no later one, and the parameters it gives accept the arguments.
How the type parameters are named matters to nothing but the names in the match. -/
theorem bind_principal {bases : Ty → List Ty} (hbases : ClosedBases bases) {args : List Ty}
    (hargs : ∀ a ∈ args, Closed a) (sig : Signature) (generic : List String) :
    (∀ m, bind bases sig generic args = .ok m → Principal bases sig generic args m) ∧
    ∀ ρ, Renames sig generic ρ →
      (bind bases (sig.rename (renamed generic ρ)) (generic.map ρ) args).toOption =
        (bind bases sig generic args).toOption.map (Binding.Match.rename (renamed generic ρ)) := by
  refine ⟨fun m h => bind_settles hbases hargs h, fun ρ hρ => ?_⟩
  have hgeneric : generic.map ρ = generic.map (renamed generic ρ) :=
    List.map_congr_left fun x hx => by simp [renamed, hx]
  rw [hgeneric]
  exact bind_rename hbases hargs hρ.distinguishes

def animal : Ty := con ⟨"Animal", 0⟩
def cat : Ty := con ⟨"Cat", 0⟩

/-- Base types where a cat is an animal. -/
def petBases (t : Ty) : List Ty := if t.isNamed "Cat" then [animal] else []

theorem petBases_found (t : Ty) : BaseSearch.Ends petBases ⟨[], petBases t⟩ ∧
    allBases petBases t = petBases t := by
  by_cases h : t.isNamed "Cat" = true
  · have hbases : petBases t = [animal] := by rw [petBases, if_pos h]
    rw [allBases, hbases]
    have htake : BaseSearch.step petBases ⟨[], [animal]⟩ = some (some animal, ⟨["Animal"], []⟩) := by
      simp [BaseSearch.step, petBases, animal, isNamed, text]
    have hdone : BaseSearch.step petBases ⟨["Animal"], []⟩ = none := rfl
    refine ⟨BaseSearch.ends_of_step htake (BaseSearch.ends_of_done hdone), ?_⟩
    rw [BaseSearch.found_of_step htake (BaseSearch.ends_of_done hdone),
      BaseSearch.found_of_done hdone]
    rfl
  · have hbases : petBases t = [] := by rw [petBases, if_neg h]
    rw [allBases, hbases]
    have hdone : BaseSearch.step petBases ⟨[], []⟩ = none := rfl
    exact ⟨BaseSearch.ends_of_done hdone, BaseSearch.found_of_done hdone⟩

theorem petBases_closed : ClosedBases petBases := by
  intro t _
  refine ⟨(petBases_found t).1, ?_⟩
  rw [(petBases_found t).2, petBases]
  split <;> simp [Closed, animal, vars]

/-- A signature where an animal comes with things of one type. -/
def petSig (x : String) : Signature := ⟨[animal, arrayOf (var x), var x], var x, true⟩

/-- Things that come with a cat: the first of them says that they may be anything, whatever the
type parameter is called. -/
theorem bind_principal_pets :
    (∃ m, bind petBases (petSig "T") ["T"] [cat, arrayOf any, int] = .ok m ∧
      m.subst.lookup "T" = some any) ∧
    (bind petBases (petSig "U") ["U"] [cat, arrayOf any, int]).toOption.map (·.score) = some 5 := by
  have hargs : ∀ a ∈ [cat, arrayOf any, int], Closed a := by
    simp [Closed, cat, arrayOf, any, int, vars, varsOfList]
  have hcat : assignable? petBases animal cat = some true := by
    simp [assignable?, allBases?, petBases_found, petBases, cat, animal, isNamed, isUnknown,
      assignableDirectly, isAny, same, agreeApps, hasText, isWritable]
  have hok : (bind petBases (petSig "T") ["T"] [cat, arrayOf any, int]).toOption =
      some ⟨[("T", any)], [animal, arrayOf any, any], any, 5⟩ := by
    rw [bind_toOption]
    change Option.map _ (checkArgs petBases ["T"] [("T", any)] 1
      [animal, arrayOf (var "T"), var "T"] [cat, arrayOf any, int]).toOption = _
    rw [checkArgs_cons, if_pos ⟨rfl, hcat⟩]
    rfl
  have hprincipal := bind_principal petBases_closed hargs (petSig "T") ["T"]
  refine ⟨?_, ?_⟩
  · cases hm : bind petBases (petSig "T") ["T"] [cat, arrayOf any, int] with
    | error e => simp [hm, Except.toOption] at hok
    | ok m =>
      refine ⟨m, rfl, ((hprincipal.1 m hm).first "T").trans ?_⟩
      rfl
  · have hrenames : Renames (petSig "T") ["T"] fun _ => "U" :=
      ⟨by simp, by simp [petSig, Signature.vars, animal, arrayOf, vars, varsOfList]⟩
    have hsig : (petSig "T").rename (renamed ["T"] fun _ => "U") = petSig "U" := by
      simp [petSig, Signature.rename, renamed, animal, arrayOf, rename, mapVars, mapVarsList]
    have hrenamed := hprincipal.2 _ hrenames
    rw [hsig, hok] at hrenamed
    rw [show ["U"] = ["T"].map fun _ => "U" from rfl, hrenamed]
    rfl

end Ty

end Scripting
