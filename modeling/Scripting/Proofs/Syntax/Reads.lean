import Scripting.Proofs.Syntax.Brackets

/-!
# What a parser reads

`Reads P p before n after m` says what a successful run of `p` reads from a state with `P`: no error is
taken back, and if none was added, the run leads from the place `before` of its first state, with `n`
brackets open, to the place `after` of its last one, with `m` open. A place is what is still to be read:
`tokens` if the current token is among it, `ahead` if it is not. There is one lemma for each way to put
parsers together.
-/

namespace Scripting.Parser

open Parse ParseState

abbrev Place := ParseState → List Token

variable {α β σ : Type} {P Q : ParseState → Prop} {before : Place} {n m : Nat}

/-- From a state to another no error is taken back, and if none is added something holds. -/
def Clean (s t : ParseState) (R : Prop) : Prop :=
  s.errors.length ≤ t.errors.length ∧ (t.errors.length = s.errors.length → R)

/-- What a parser reads from one place to another, with so many brackets open at each. -/
def Reads (P : ParseState → Prop) (p : Parse α) (before : Place) (n : Nat) (after : α → Place)
    (m : α → Nat) : Prop :=
  ∀ s a t, P s → p.Yields s a t → Clean s t (Closed (before s) → Span n (before s) (m a) (after a t))

abbrev ReadsForm (P : ParseState → Prop) (p : Parse α) : Prop :=
  Reads P p ParseState.tokens 0 (fun _ => ahead) fun _ => 0

/-- Where one round of a repetition leads: to where it began, or to the end; or to a state with `S`. -/
def Lands (S : σ → ParseState → Prop) (before : Place) (n : Nat) (after : Place) (m : Nat)
    (s t : ParseState) : σ ⊕ β → Prop
  | .inl z => Span n (before s) n (before t) ∨ S z t
  | .inr _ => Span n (before s) m (after t)

/-- Every round of a repetition leads where it should, and none succeeds on a state with `S`. -/
def Round (step : σ → Parse (σ ⊕ β)) (S : σ → ParseState → Prop) (before : Place) (n : Nat)
    (after : Place) (m : Nat) : Prop :=
  ∀ x s y t, (step x).Yields s y t →
    ¬ S x s ∧ Clean s t (Closed (before s) → Lands S before n after m s t y)

theorem Round.of_reads {step : σ → Parse (σ ⊕ β)} {after : Place}
    (h : ∀ x, Reads (fun _ => True) (step x) before n (Sum.elim (fun _ => before) fun _ => after)
      (Sum.elim (fun _ => n) fun _ => m)) : Round step (fun _ _ => False) before n after m := by
  intro x s y t hy
  obtain ⟨hle, hspan⟩ := h x s y t trivial hy
  refine ⟨not_false, hle, fun heq hc => ?_⟩
  cases y with
  | inl z => exact .inl (hspan heq hc)
  | inr b => exact hspan heq hc

namespace Reads

variable {p : Parse α} {f : α → Parse β} {after : β → Place} {m' : β → Nat}

theorem mono {after : α → Place} {m : α → Nat} (h : Reads Q p before n after m) (hPQ : ∀ s, P s → Q s) :
    Reads P p before n after m := fun s a t hs hp => h s a t (hPQ s hs) hp

theorem add {after : α → Place} {m : α → Nat} (h : Reads P p before n after m) (d : Nat) :
    Reads P p before (n + d) after fun a => m a + d :=
  fun s a t hs hp => ⟨(h s a t hs hp).1, fun heq hc => ((h s a t hs hp).2 heq hc).add d⟩

theorem pure {a : α} {after : α → Place} {m : α → Nat} (hafter : after a = before) (hm : m a = n) :
    Reads P (Pure.pure a) before n after m := by
  rintro s b t - h
  obtain ⟨rfl, rfl⟩ := yields_pure.mp h
  exact ⟨Nat.le_refl _, fun _ hc => by rw [hafter, hm]; exact .refl hc⟩

theorem fail {code : Diagnostic.Code} {tok : Token} {msg : String} {after : α → Place} {m : α → Nat} :
    Reads P (Parse.fail code tok msg : Parse α) before n after m :=
  fun _ _ _ _ h => absurd h not_yields_fail

theorem failure {after : α → Place} {m : α → Nat} :
    Reads P (Alternative.failure : Parse α) before n after m :=
  fun _ _ _ _ h => absurd h not_yields_failure

theorem bind_of {mid : α → Place} {k : α → Nat} (hp : Reads P p before n mid k)
    (hQ : ∀ s a t, P s → p.Yields s a t → Q t) (hf : ∀ a, Reads Q (f a) (mid a) (k a) after m') :
    Reads P (p >>= f) before n after m' := by
  intro s b u hs h
  obtain ⟨a, t, hpy, hfy⟩ := yields_bind.mp h
  obtain ⟨hle, hspan⟩ := hp s a t hs hpy
  obtain ⟨hle', hspan'⟩ := hf a t b u (hQ s a t hs hpy) hfy
  refine ⟨Nat.le_trans hle hle', fun heq hc => ?_⟩
  have h₁ := hspan (by omega) hc
  exact h₁.trans (hspan' (by omega) h₁.closed)

theorem bind {mid : α → Place} {k : α → Nat} (hp : Reads P p before n mid k)
    (hf : ∀ a, Reads (fun _ => True) (f a) (mid a) (k a) after m') :
    Reads P (p >>= f) before n after m' := hp.bind_of (fun _ _ _ _ _ => trivial) hf

theorem ite {c : Prop} [Decidable c] {q : Parse α} {after : α → Place} {m : α → Nat}
    (hp : c → Reads P p before n after m) (hq : ¬ c → Reads P q before n after m) :
    Reads P (if c then p else q) before n after m := by
  split
  · exact hp ‹_›
  · exact hq ‹_›

theorem over_closing {close : Token.Kind}
    (hp : Reads P p before 0 (fun _ => ParseState.tokens) fun _ => 0)
    (hclose : ∀ s a t, p.Yields s a t → t.current.kind = close) (hplain : close.Plain)
    (hshift : close.shift 1 = some 0) : Reads P p before 1 (fun _ => ahead) fun _ => 0 := by
  intro s a t hs hy
  obtain ⟨hle, hspan⟩ := hp.add 1 s a t hs hy
  refine ⟨hle, fun heq hc => ?_⟩
  have h₁ := hspan heq hc
  exact h₁.trans (span_current h₁.closed (hclose s a t hy) hplain hshift)

section Steps

variable {g : Unit → Parse β}

theorem current {h : Token → Parse β}
    (hh : ∀ tok, Reads (fun s => P s ∧ s.current = tok) (h tok) before n after m') :
    Reads P (Parse.current >>= h) before n after m' :=
  fun s b t hs hy => hh s.current s b t ⟨hs, rfl⟩ (yields_current_bind.mp hy)

theorem peek {h : Token → Parse β}
    (hh : ∀ tok, Reads (fun s => P s ∧ s.peek = tok) (h tok) before n after m') :
    Reads P (Parse.peek >>= h) before n after m' :=
  fun s b t hs hy => hh s.peek s b t ⟨hs, rfl⟩ (yields_peek_bind.mp hy)

theorem get {h : ParseState → Parse β}
    (hh : ∀ s, Reads (fun s' => P s' ∧ s' = s) (h s) before n after m') :
    Reads P (MonadState.get >>= h) before n after m' :=
  fun s b t hs hy => hh s s b t ⟨hs, rfl⟩ (yields_get_bind.mp hy)

theorem peekIs {k : Token.Kind} {h : Bool → Parse β}
    (hyes : Reads (fun s => P s ∧ s.peek.kind = k) (h true) before n after m')
    (hno : Reads (fun s => P s ∧ s.peek.kind ≠ k) (h false) before n after m') :
    Reads P (Parse.peekIs k >>= h) before n after m' := by
  intro s b t hs hy
  rw [yields_peekIs_bind] at hy
  by_cases hk : s.peek.kind = k
  · exact hyes s b t ⟨hs, hk⟩ (by simpa [hk] using hy)
  · exact hno s b t ⟨hs, hk⟩ (by rwa [beq_eq_false_iff_ne.mpr hk] at hy)

theorem currentIs {k : Token.Kind} {h : Bool → Parse β}
    (hyes : Reads (fun s => P s ∧ s.current.kind = k) (h true) before n after m')
    (hno : Reads (fun s => P s ∧ s.current.kind ≠ k) (h false) before n after m') :
    Reads P (Parse.currentIs k >>= h) before n after m' := by
  intro s b t hs hy
  rw [yields_currentIs_bind] at hy
  by_cases hk : s.current.kind = k
  · exact hyes s b t ⟨hs, hk⟩ (by simpa [hk] using hy)
  · exact hno s b t ⟨hs, hk⟩ (by rwa [beq_eq_false_iff_ne.mpr hk] at hy)

theorem currentName {h : Name → Parse β}
    (hh : ∀ name, Reads P (h name) before n after m') :
    Reads P (Parse.currentName >>= h) before n after m' :=
  fun s b t hs hy => hh _ s b t hs (yields_currentName_bind.mp hy)

theorem past {q : Parse β} (k : Token.Kind) (hk : ∀ s, P s → s.current.kind = k)
    (hq : Reads P q ahead m after m') (hplain : k.Plain) (hshift : k.shift n = some m) :
    Reads P q ParseState.tokens n after m' := by
  intro s b t hs hy
  obtain ⟨hle, hspan⟩ := hq s b t hs hy
  refine ⟨hle, fun heq hc => ?_⟩
  have h₁ := span_current hc (hk s hs) hplain hshift
  exact h₁.trans (hspan heq h₁.closed)

theorem advance (hg : Reads (fun _ => True) (g ()) ParseState.tokens n after m') :
    Reads P (Parse.advance >>= g) ahead n after m' := by
  intro s b t _ hy
  obtain ⟨hle, hspan⟩ := hg s.advance b t trivial (yields_advance_bind.mp hy)
  rw [errors_advance] at hle hspan
  refine ⟨hle, fun heq hc => ?_⟩
  have h₁ := span_advance (n := n) hc
  exact h₁.trans (hspan heq h₁.closed)

theorem advanceOver (k : Token.Kind) (hk : ∀ s, P s → s.peek.kind = k)
    (hg : Reads (fun _ => True) (g ()) ahead m after m') (hplain : k.Plain)
    (hshift : k.shift n = some m) : Reads P (Parse.advance >>= g) ahead n after m' := by
  intro s b t hs hy
  obtain ⟨hle, hspan⟩ := hg s.advance b t trivial (yields_advance_bind.mp hy)
  rw [errors_advance] at hle hspan
  refine ⟨hle, fun heq hc => ?_⟩
  have h₁ := span_peek hc (hk s hs) hplain hshift
  exact h₁.trans (hspan heq h₁.closed)

theorem expectPeek {k : Token.Kind} (hg : Reads (fun _ => True) (g ()) ahead m after m')
    (hplain : k.Plain) (hshift : k.shift n = some m) :
    Reads P (Parse.expectPeek k >>= g) ahead n after m' := by
  intro s b t _ hy
  obtain ⟨hk, hy⟩ := yields_expectPeek_bind.mp hy
  obtain ⟨hle, hspan⟩ := hg s.advance b t trivial hy
  rw [errors_advance] at hle hspan
  refine ⟨hle, fun heq hc => ?_⟩
  have h₁ := span_peek hc hk hplain hshift
  exact h₁.trans (hspan heq h₁.closed)

theorem expectPeekOn {k : Token.Kind} (hg : Reads (fun _ => True) (g ()) ParseState.tokens n after m') :
    Reads P (Parse.expectPeek k >>= g) ahead n after m' :=
  fun s b t hs hy => advance hg s b t hs (yields_expectPeek_bind.mp hy).2

theorem skipNewlines (hg : Reads (fun _ => True) (g ()) ParseState.tokens n after m') :
    Reads P (Parse.skipNewlines >>= g) ParseState.tokens n after m' := by
  intro s b t _ hy
  obtain ⟨hle, hspan⟩ := hg _ b t trivial (yields_skipNewlines_bind.mp hy)
  refine ⟨hle, fun heq hc => ?_⟩
  have h₁ := span_dropNewlines (n := n) hc
  exact h₁.trans (hspan heq h₁.closed)

theorem skipPeekNewlines (hg : Reads (fun _ => True) (g ()) ahead n after m') :
    Reads P (Parse.skipPeekNewlines >>= g) ahead n after m' := by
  intro s b t _ hy
  obtain ⟨hle, hspan⟩ := hg _ b t trivial (yields_skipPeekNewlines_bind.mp hy)
  refine ⟨hle, fun heq hc => ?_⟩
  have h₁ := span_dropPeekNewlines (n := n) hc
  exact h₁.trans (hspan heq h₁.closed)

theorem skipPeekNewlines_advanceOver (k : Token.Kind) (hk : ∀ s, P s → s.kindPastNewlines = k)
    (hg : Reads (fun _ => True) (g ()) ahead m after m') (hplain : k.Plain)
    (hshift : k.shift n = some m) :
    Reads P (Parse.skipPeekNewlines >>= fun _ => Parse.advance >>= g) ahead n after m' := by
  intro s b t hs hy
  have hy := yields_advance_bind.mp (yields_skipPeekNewlines_bind.mp hy)
  obtain ⟨hle, hspan⟩ := hg _ b t trivial hy
  rw [errors_advance] at hle hspan
  refine ⟨hle, fun heq hc => ?_⟩
  have h₁ : Span n s.ahead n (ahead { s with tokens := dropPeekNewlines s.tokens }) :=
    span_dropPeekNewlines hc
  have hpeek := (kind_peek_dropPeekNewlines hc).trans (hk s hs)
  have h₂ := h₁.trans (span_peek h₁.closed hpeek hplain hshift)
  exact h₂.trans (hspan heq h₂.closed)

theorem skipWhile {kinds : List Token.Kind}
    (hg : Reads (fun _ => True) (g ()) ParseState.tokens n after m')
    (hkinds : ∀ k ∈ kinds, k.Plain ∧ k.shift n = some n) :
    Reads P (Parse.skipWhile kinds >>= g) ParseState.tokens n after m' := by
  intro s b t _ hy
  obtain ⟨hle, hspan⟩ := hg _ b t trivial (yields_skipWhile_bind.mp hy)
  refine ⟨hle, fun heq hc => ?_⟩
  have h₁ := span_skipWhile (n := n) hc hkinds
  exact h₁.trans (hspan heq h₁.closed)

end Steps

theorem iterate {step : σ → Parse (σ ⊕ β)} {S : σ → ParseState → Prop} {after : Place}
    (h : Round step S before n after m) (rounds : Nat) (x : σ) :
    Reads P (Parse.iterate step rounds x) before n (fun _ => after) fun _ => m := by
  suffices hrun : ∀ s b t, (Parse.iterate step rounds x).Yields s b t →
      ¬ S x s ∧ Clean s t (Closed (before s) → Span n (before s) m (after t)) from
    fun s b t _ hy => (hrun s b t hy).2
  induction rounds generalizing x with
  | zero => exact fun s b t h => absurd h not_yields_iterate_zero
  | succ rounds ih =>
    intro s b t hy
    rcases yields_iterate_succ.mp hy with hlast | ⟨z, u, hnext, hrest⟩
    · exact h x s _ t hlast
    · obtain ⟨hfree, hle, hspan⟩ := h x s _ u hnext
      obtain ⟨hfree', hle', hspan'⟩ := ih z u b t hrest
      refine ⟨hfree, Nat.le_trans hle hle', fun heq hc => ?_⟩
      have h₁ := (hspan (by omega) hc).resolve_right hfree'
      exact h₁.trans (hspan' (by omega) h₁.closed)

theorem iterate_bind {step : σ → Parse (σ ⊕ α)} {S : σ → ParseState → Prop} {rounds : Nat} {x : σ}
    {f : α → Parse β} {after : β → Place} {m' : β → Nat} (mid : Place) (k : Nat)
    (h : Round step S before n mid k) (hf : ∀ a, Reads (fun _ => True) (f a) mid k after m') :
    Reads P (Parse.iterate step rounds x >>= f) before n after m' :=
  .bind (.iterate h rounds x) hf

end Reads

end Scripting.Parser
