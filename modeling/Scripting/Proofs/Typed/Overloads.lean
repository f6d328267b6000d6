import Mathlib.Data.List.Nodup
import Scripting.Typed.Calls

/-!
# The candidate that fits best

`Typing.select` goes through the candidates of a call once and keeps the best match so far, with
another candidate that fits as well, if there is one. What it keeps is settled by the candidates that
were met and not by their order (`Leads`): a candidate by itself fits strictly better than all others
that match, two candidates share the best score. Each further candidate preserves this
(`Leads.consider`).
-/

namespace Scripting.Typing

/-- Whether the result of a candidate is known, so that asking for its signature analyzes nothing. -/
def Settled (p : Program) (c : Callable) : Prop :=
  ∀ id, c = .user id → ∃ f, p.funs[id]? = some f ∧ f.result.isUnknown = false

def declared (p : Program) (c : Callable) : Signature × List String :=
  let sig := p.callableSig c
  match c with
  | .ctor t i => (sig, ((p.variant? t i).map fun x => x.1.typeParams).getD [])
  | .host h => (complete sig, (p.hosts[h]?.map HostFunction.typeParams).getD [])
  | _ => (complete sig, [])

/-- The match of a settled candidate, if it binds the arguments. -/
def matched (p : Program) (args : List Ty) (c : Callable) : Option Binding.Match :=
  (Ty.bind p.bases (declared p c).1 (declared p c).2 args).toOption

def consider (fits : Callable → Option Binding.Match) (best : Selection) (c : Callable) : Selection :=
  match fits c with
  | some m => prefer best c m
  | none => best

variable (analyze : FunId → Typing Unit) (tok : Token) (args : List Ty)

theorem settleResult_settled {s : State} {id : FunId} (h : Settled s.program (.user id)) :
    (settleResult analyze id tok).run s = ((), s) := by
  obtain ⟨f, hf, hknown⟩ := h id rfl
  have hfun : s.program.funs.getD id { name := "", paramNames := [], params := [] } = f := by
    simp [Array.getD_eq_getD_getElem?, hf]
  have hskip : ∀ x : Typing Unit, (if f.result.isUnknown then x else pure ()).run s = ((), s) := by
    intro x
    rw [hknown]
    rfl
  rw [← hfun] at hskip
  exact hskip _

theorem signatureOf_settled {s : State} {c : Callable} (h : Settled s.program c) :
    (signatureOf analyze tok c).run s = (declared s.program c, s) := by
  cases c with
  | user id =>
    rw [signatureOf, StateT.run_bind, settleResult_settled analyze tok h]
    rfl
  | _ => rfl

theorem run_program {α : Type} (f : Program → Typing α) (s : State) :
    (program >>= f).run s = (f s.program).run s := rfl

theorem select_cons {s : State} {c : Callable} (h : Settled s.program c) (best : Selection)
    (cs : List Callable) : (select analyze tok args best (c :: cs)).run s =
      (select analyze tok args (consider (matched s.program args) best c) cs).run s := by
  rw [select, StateT.run_bind, signatureOf_settled analyze tok h, consider, matched]
  cases declared s.program c with
  | mk sig typeParams =>
    refine (run_program _ s).trans ?_
    cases hm : Ty.bind s.program.bases sig typeParams args with
    | ok m => simp [Except.toOption]
    | error e => simp [Except.toOption]

theorem select_settled {s : State} {cs : List Callable} (h : ∀ c ∈ cs, Settled s.program c)
    (best : Selection) : (select analyze tok args best cs).run s =
      (cs.foldl (consider (matched s.program args)) best, s) := by
  induction cs generalizing best with
  | nil => rfl
  | cons c cs ih =>
    rw [select_cons analyze tok args (h c List.mem_cons_self)]
    exact ih (fun d hd => h d (List.mem_cons_of_mem c hd)) _

/-- What a selection says about candidates: none matches, one fits strictly better than all others
that match, or two share the best score. -/
def Leads (fits : Callable → Option Binding.Match) (cs : List Callable) : Selection → Prop
  | none => ∀ c ∈ cs, fits c = none
  | some (c, m, none) =>
    c ∈ cs ∧ fits c = some m ∧ ∀ d ∈ cs, d ≠ c → ∀ n, fits d = some n → n.score < m.score
  | some (c, m, some d) =>
    c ∈ cs ∧ d ∈ cs ∧ d ≠ c ∧ fits c = some m ∧ (∃ n, fits d = some n ∧ n.score = m.score) ∧
      ∀ e ∈ cs, ∀ n, fits e = some n → n.score ≤ m.score

namespace Leads

variable {fits : Callable → Option Binding.Match} {cs : List Callable} {c : Callable}

theorem of_mem_iff {best : Selection} {ds : List Callable} (h : Leads fits cs best)
    (hmem : ∀ c, c ∈ cs ↔ c ∈ ds) : Leads fits ds best := by
  match best with
  | none => simpa only [Leads, hmem] using h
  | some (c, m, none) => simpa only [Leads, hmem] using h
  | some (c, m, some d) => simpa only [Leads, hmem] using h

theorem le_score {m : Binding.Match} {tie : Option Callable} (h : Leads fits cs (some (c, m, tie)))
    {d : Callable} (hd : d ∈ cs) {n : Binding.Match} (hn : fits d = some n) : n.score ≤ m.score := by
  cases tie with
  | some e => exact h.2.2.2.2.2 d hd n hn
  | none =>
    by_cases hdc : d = c
    · rw [hdc, h.2.1] at hn
      cases hn
      exact Nat.le_refl _
    · exact Nat.le_of_lt (h.2.2 d hd hdc n hn)

theorem fits_some {m : Binding.Match} {tie : Option Callable} (h : Leads fits cs (some (c, m, tie))) :
    c ∈ cs ∧ fits c = some m := by
  cases tie with
  | none => exact ⟨h.1, h.2.1⟩
  | some d => exact ⟨h.1, h.2.2.2.1⟩

theorem prefer_some {c' : Callable} {m m' : Binding.Match} {tie : Option Callable}
    (h : Leads fits cs (some (c', m', tie))) (hnew : c ∉ cs) (hm : fits c = some m) :
    Leads fits (cs ++ [c]) (prefer (some (c', m', tie)) c m) := by
  obtain ⟨hc', hm'⟩ := h.fits_some
  by_cases hbetter : m'.score < m.score
  · rw [prefer, if_pos hbetter]
    refine ⟨by simp, hm, fun d hd hne n hn => ?_⟩
    have hdcs : d ∈ cs := by simpa [hne] using hd
    have hle := h.le_score hdcs hn
    omega
  · rw [prefer, if_neg hbetter]
    by_cases heq : m.score = m'.score
    · rw [if_pos (by simpa using heq)]
      have hne : c ≠ c' := fun hcc' => hnew (hcc' ▸ hc')
      refine ⟨by simp [hc'], by simp, hne, hm', ⟨m, hm, heq⟩, fun e he n hn => ?_⟩
      cases List.mem_append.mp he with
      | inl he => exact h.le_score he hn
      | inr he =>
        rw [List.mem_singleton.mp he, hm] at hn
        cases hn
        omega
    · rw [if_neg (by simpa using heq)]
      have hworse : m.score < m'.score := by omega
      cases tie with
      | none =>
        refine ⟨by simp [hc'], hm', fun d hd hne n hn => ?_⟩
        cases List.mem_append.mp hd with
        | inl hd => exact h.2.2 d hd hne n hn
        | inr hd =>
          rw [List.mem_singleton.mp hd, hm] at hn
          cases hn
          exact hworse
      | some d =>
        have hd : d ∈ cs := h.2.1
        refine ⟨by simp [hc'], by simp [hd], h.2.2.1, hm', h.2.2.2.2.1, fun e he n hn => ?_⟩
        cases List.mem_append.mp he with
        | inl he => exact h.le_score he hn
        | inr he =>
          rw [List.mem_singleton.mp he, hm] at hn
          cases hn
          exact Nat.le_of_lt hworse

theorem of_no_match {best : Selection} (h : Leads fits cs best) (hm : fits c = none) :
    Leads fits (cs ++ [c]) best := by
  have hmem : ∀ d n, fits d = some n → (d ∈ cs ++ [c] ↔ d ∈ cs) := by
    intro d n hn
    have hdc : d ≠ c := fun hdc => by simp [hdc, hm] at hn
    simp [hdc]
  match best with
  | none => simpa [Leads, or_imp, forall_and, hm] using h
  | some (c', m', none) =>
    refine ⟨by simp [h.1], h.2.1, fun d hd hne n hn => ?_⟩
    exact h.2.2 d ((hmem d n hn).mp hd) hne n hn
  | some (c', m', some d) =>
    refine ⟨by simp [h.1], by simp [h.2.1], h.2.2.1, h.2.2.2.1, h.2.2.2.2.1, fun e he n hn => ?_⟩
    exact h.2.2.2.2.2 e ((hmem e n hn).mp he) n hn

theorem consider {best : Selection} (h : Leads fits cs best) (hnew : c ∉ cs) :
    Leads fits (cs ++ [c]) (consider fits best c) := by
  unfold Typing.consider
  cases hm : fits c with
  | none => exact h.of_no_match hm
  | some m =>
    match best with
    | some (c', m', tie) => exact h.prefer_some hnew hm
    | none =>
      refine ⟨by simp, hm, fun d hd hne n hn => ?_⟩
      have hdcs : d ∈ cs := by simpa [hne] using hd
      simp [h d hdcs] at hn

theorem foldl {best : Selection} (h : Leads fits cs best) {ds : List Callable}
    (hnodup : (cs ++ ds).Nodup) : Leads fits (cs ++ ds) (ds.foldl (Typing.consider fits) best) := by
  induction ds generalizing cs best with
  | nil => simpa using h
  | cons d ds ih =>
    have hnew : d ∉ cs := fun hd =>
      List.disjoint_of_nodup_append hnodup hd List.mem_cons_self
    rw [List.append_cons] at hnodup ⊢
    exact ih (h.consider hnew) hnodup

end Leads

/-- What a call learns from a selection, apart from the names in a message: that no candidate matches,
that the choice is ambiguous, or the candidate that is called and its match. -/
inductive Verdict where
  | noMatch
  | ambiguous
  | chosen (c : Callable) (m : Binding.Match)

def verdict : Selection → Verdict
  | none => .noMatch
  | some (c, m, none) => .chosen c m
  | some (_, _, some _) => .ambiguous

variable {fits : Callable → Option Binding.Match} {cs : List Callable}

theorem Leads.not_ambiguous {c c' d : Callable} {m m' : Binding.Match}
    (h : Leads fits cs (some (c, m, none))) : ¬Leads fits cs (some (c', m', some d)) := by
  intro k
  obtain ⟨hc', hd, hne, hm', ⟨n, hn, hscore⟩, hmax⟩ := k
  have hle := hmax c h.1 m h.2.1
  by_cases hdc : d = c
  · have hlt := h.2.2 c' hc' (fun hcc' => hne (hdc.trans hcc'.symm)) m' hm'
    omega
  · have hlt := h.2.2 d hd hdc n hn
    omega

theorem Leads.verdict_eq {best best' : Selection} (h : Leads fits cs best) (k : Leads fits cs best') :
    verdict best = verdict best' := by
  match best, best' with
  | none, none => rfl
  | none, some (c, m, tie) =>
    have hfits := k.fits_some
    simp [h c hfits.1] at hfits
  | some (c, m, tie), none =>
    have hfits := h.fits_some
    simp [k c hfits.1] at hfits
  | some (c, m, none), some (c', m', none) =>
    have hc : c' = c := by
      by_contra hne
      have hlt := h.2.2 c' k.1 hne m' k.2.1
      have hlt' := k.2.2 c h.1 (Ne.symm hne) m h.2.1
      omega
    have hm : m' = m := Option.some.inj (k.2.1.symm.trans (hc ▸ h.2.1))
    rw [hc, hm]
  | some (c, m, some d), some (c', m', some d') => rfl
  | some (c, m, none), some (c', m', some d) => exact absurd k h.not_ambiguous
  | some (c, m, some d), some (c', m', none) => exact absurd h k.not_ambiguous

theorem eq_of_verdict_chosen {best : Selection} {c : Callable} {m : Binding.Match}
    (h : verdict best = .chosen c m) : best = some (c, m, none) := by
  match best with
  | none => cases h
  | some (c', m', none) =>
    cases h
    rfl
  | some (c', m', some d) => cases h

/-- Among distinct candidates whose results are known, none is selected exactly if none matches, and
one is selected without another one exactly if it matches with a higher score than all others that
match; else two different ones are selected that share the highest score. The verdict does not depend
on the order of the candidates. -/
theorem select_verdict {s : State} {cs : List Callable} (hnodup : cs.Nodup)
    (hsettled : ∀ c ∈ cs, Settled s.program c) :
    ∃ best, (select analyze tok args none cs).run s = (best, s) ∧
      (best = none ↔ ∀ c ∈ cs, matched s.program args c = none) ∧
      (∀ c m, best = some (c, m, none) ↔
        c ∈ cs ∧ matched s.program args c = some m ∧
          ∀ d ∈ cs, d ≠ c → ∀ n, matched s.program args d = some n → n.score < m.score) ∧
      (∀ c m d, best = some (c, m, some d) →
        c ∈ cs ∧ d ∈ cs ∧ d ≠ c ∧ matched s.program args c = some m ∧
          (∃ n, matched s.program args d = some n ∧ n.score = m.score) ∧
          ∀ e ∈ cs, ∀ n, matched s.program args e = some n → n.score ≤ m.score) ∧
      ∀ ds, ds.Perm cs → ∃ best', (select analyze tok args none ds).run s = (best', s) ∧
        verdict best' = verdict best := by
  have hleads : ∀ ds : List Callable, ds.Perm cs → Leads (matched s.program args) cs
      (ds.foldl (consider (matched s.program args)) none) := by
    intro ds hp
    have hnone : Leads (matched s.program args) [] none := by simp [Leads]
    have hnodup' : ([] ++ ds).Nodup := hp.nodup_iff.mpr hnodup
    have hds := hnone.foldl hnodup'
    exact hds.of_mem_iff fun c => by simpa using hp.mem_iff
  have hcs := hleads cs (List.Perm.refl cs)
  refine ⟨_, select_settled analyze tok args hsettled none, ⟨fun h => ?_, fun h => ?_⟩,
    fun c m => ⟨fun h => ?_, fun h => ?_⟩, fun c m d h => ?_, fun ds hp => ?_⟩
  · rwa [h] at hcs
  · have hnone : Leads (matched s.program args) cs none := h
    generalize cs.foldl (consider (matched s.program args)) none = best at hcs ⊢
    match best with
    | none => rfl
    | some (c, m, tie) =>
      have hfits := hcs.fits_some
      simp [h c hfits.1] at hfits
  · rwa [h] at hcs
  · have hchosen : Leads (matched s.program args) cs (some (c, m, none)) := h
    exact eq_of_verdict_chosen (hcs.verdict_eq hchosen)
  · rwa [h] at hcs
  · have hds : ∀ c ∈ ds, Settled s.program c := fun c hc => hsettled c (hp.mem_iff.mp hc)
    exact ⟨_, select_settled analyze tok args hds none, (hleads ds hp).verdict_eq hcs⟩

/-- A program with a function of anything and one of integers. -/
def overloaded : Program :=
  { funs := #[
      { name := "f", paramNames := ["x"], params := [.any], result := .int },
      { name := "f", paramNames := ["x"], params := [.int], result := .int }] }

/-- An integer goes to the function of integers, which is tried last. -/
theorem select_verdict_overloaded :
    ∃ m s, s.program = overloaded ∧
      (select (fun _ => pure ()) Token.blank [.int] none [.user 0, .user 1]).run s =
        (some (.user 1, m, none), s) := by
  let s : State := { program := overloaded, decls := {} }
  have hsettled : ∀ c ∈ [Callable.user 0, Callable.user 1], Settled s.program c := by
    intro c hc id hid
    simp only [List.mem_cons, List.not_mem_nil, or_false] at hc
    cases hc with
    | inl hc =>
      cases hc.symm.trans hid
      exact ⟨_, rfl, rfl⟩
    | inr hc =>
      cases hc.symm.trans hid
      exact ⟨_, rfl, rfl⟩
  obtain ⟨best, hrun, -, hchosen, -⟩ :=
    select_verdict (fun _ => pure ()) Token.blank [.int] (by decide) hsettled
  have hbest : best = some (.user 1, ⟨[], [.int], .int, 3⟩, none) := by
    refine (hchosen _ _).mpr ⟨by simp, rfl, fun d hd hne n hn => ?_⟩
    have hd' : d = .user 0 := by simpa [hne] using hd
    rw [hd', show matched s.program [.int] (.user 0) = some ⟨[], [.any], .int, 0⟩ from rfl] at hn
    cases hn
    decide
  exact ⟨_, s, rfl, hbest ▸ hrun⟩

end Scripting.Typing
