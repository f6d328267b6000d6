import Scripting.Proofs.Syntax.Nesting
import Scripting.Proofs.Token.Spread
import Scripting.Syntax.Parser

/-!
# Brackets

`Parse.Yields p s a s'` says that `p`, run on `s`, gives `a` and leaves `s'`. For every way to put parsers
together there is a simp lemma that says what such a run consists of, so `simp` takes a rule of the
grammar apart into the runs of its parts.

Which tokens are brackets, and what a parser reads between two places of its input. A place is what is
still to be read: all tokens of a state, or those behind the current one. The tokens between two places
are legible: the expressions in them are read as well.
-/

namespace Scripting

namespace Parse

open ParseState

variable {α β σ : Type} {s s' : ParseState}

/-- The parser succeeds on a state with a value and leaves another state. -/
def Yields (p : Parse α) (s : ParseState) (a : α) (s' : ParseState) : Prop :=
  p.run.run s = (some a, s')

theorem Yields.unique {p : Parse α} {a b : α} {t : ParseState} (h : p.Yields s a s')
    (h' : p.Yields s b t) : a = b ∧ s' = t := by
  have heq : ((some a, s') : Option α × ParseState) = (some b, t) := h.symm.trans h'
  simpa using heq

theorem run_bind {p : Parse α} {f : α → Parse β} : (p >>= f).run.run s = match p.run.run s with
    | (some a, t) => (f a).run.run t
    | (none, t) => (none, t) := by
  simp only [OptionT.run_bind, StateT.run_bind, Option.elimM]
  change StateT.run (Option.elim (p.run.run s).1 _ _) (p.run.run s).2 = _
  rcases p.run.run s with ⟨_ | a, t⟩ <;> rfl

@[simp] theorem yields_bind {p : Parse α} {f : α → Parse β} {b : β} :
    (p >>= f).Yields s b s' ↔ ∃ a t, p.Yields s a t ∧ (f a).Yields t b s' := by
  unfold Yields
  rw [run_bind]
  constructor
  · intro h
    rcases hp : p.run.run s with ⟨_ | a, t⟩
    · rw [hp] at h
      cases h
    · rw [hp] at h
      exact ⟨a, t, rfl, h⟩
  · rintro ⟨a, t, hp, hf⟩
    rw [hp]
    exact hf

@[simp] theorem yields_pure {a b : α} : (pure a : Parse α).Yields s b s' ↔ a = b ∧ s = s' := by
  change (some a, s) = (some b, s') ↔ _
  simp

@[simp] theorem yields_map {p : Parse α} {f : α → β} {b : β} :
    (f <$> p).Yields s b s' ↔ ∃ a, p.Yields s a s' ∧ f a = b := by
  rw [← bind_pure_comp, yields_bind]
  simp only [yields_pure]
  constructor
  · rintro ⟨a, t, hp, rfl, rfl⟩
    exact ⟨a, hp, rfl⟩
  · rintro ⟨a, hp, rfl⟩
    exact ⟨a, s', hp, rfl, rfl⟩

@[simp] theorem not_yields_failure {a : α} : ¬ (failure : Parse α).Yields s a s' := by
  intro h
  cases h

@[simp] theorem yields_ite {c : Prop} [Decidable c] {p q : Parse α} {a : α} :
    (if c then p else q).Yields s a s' ↔ if c then p.Yields s a s' else q.Yields s a s' := by
  split <;> rfl

section State

variable {f : ParseState → ParseState} {b : β}

@[simp high] theorem yields_get_bind {g : ParseState → Parse β} :
    (get >>= g).Yields s b s' ↔ (g s).Yields s b s' := Iff.rfl

@[simp high] theorem yields_set_bind {t : ParseState} {g : PUnit → Parse β} :
    (set t >>= g).Yields s b s' ↔ (g ⟨⟩).Yields t b s' := Iff.rfl

@[simp high] theorem yields_modify_bind {g : PUnit → Parse β} :
    (modify f >>= g).Yields s b s' ↔ (g ⟨⟩).Yields (f s) b s' := Iff.rfl

@[simp high] theorem yields_current_bind {g : Token → Parse β} :
    (Parse.current >>= g).Yields s b s' ↔ (g s.current).Yields s b s' := Iff.rfl

@[simp high] theorem yields_peek_bind {g : Token → Parse β} :
    (Parse.peek >>= g).Yields s b s' ↔ (g s.peek).Yields s b s' := Iff.rfl

@[simp high] theorem yields_advance_bind {g : Unit → Parse β} :
    (Parse.advance >>= g).Yields s b s' ↔ (g ()).Yields s.advance b s' := Iff.rfl

@[simp high] theorem yields_currentIs_bind {k : Token.Kind} {g : Bool → Parse β} :
    (currentIs k >>= g).Yields s b s' ↔ (g (s.current.kind == k)).Yields s b s' := Iff.rfl

@[simp high] theorem yields_peekIs_bind {k : Token.Kind} {g : Bool → Parse β} :
    (peekIs k >>= g).Yields s b s' ↔ (g (s.peek.kind == k)).Yields s b s' := Iff.rfl

@[simp high] theorem yields_currentName_bind {g : Name → Parse β} :
    (currentName >>= g).Yields s b s' ↔ (g ⟨s.current, s.current.lexeme⟩).Yields s b s' := Iff.rfl

@[simp high] theorem yields_skipNewlines_bind {g : Unit → Parse β} :
    (skipNewlines >>= g).Yields s b s' ↔
      (g ()).Yields { s with tokens := dropNewlines s.tokens } b s' := Iff.rfl

@[simp high] theorem yields_skipPeekNewlines_bind {g : Unit → Parse β} :
    (skipPeekNewlines >>= g).Yields s b s' ↔
      (g ()).Yields { s with tokens := dropPeekNewlines s.tokens } b s' := Iff.rfl

@[simp high] theorem yields_skipWhile_bind {kinds : List Token.Kind} {g : Unit → Parse β} :
    (skipWhile kinds >>= g).Yields s b s' ↔
      (g ()).Yields { s with tokens := skipWhile.go kinds s.tokens } b s' := Iff.rfl

@[simp high] theorem yields_report_bind {code : Diagnostic.Code} {tok : Token} {msg : String}
    {g : Unit → Parse β} : (report code tok msg >>= g).Yields s b s' ↔
      (g ()).Yields { s with errors := .report code tok msg :: s.errors } b s' := Iff.rfl

@[simp] theorem not_yields_fail {code : Diagnostic.Code} {tok : Token} {msg : String} {a : α} :
    ¬ (Parse.fail code tok msg : Parse α).Yields s a s' := by
  simp [Parse.fail]

@[simp] theorem yields_expectPeek {k : Token.Kind} {u : Unit} :
    (expectPeek k).Yields s u s' ↔ s.peek.kind = k ∧ s.advance = s' := by
  by_cases h : s.peek.kind = k
  · simp only [expectPeek, yields_peek_bind, h, beq_self_eq_true, if_true, true_and]
    change (some (), s.advance) = (some u, s') ↔ _
    simp
  · simp [expectPeek, h]

@[simp high] theorem yields_expectPeek_bind {k : Token.Kind} {g : Unit → Parse β} :
    (expectPeek k >>= g).Yields s b s' ↔ s.peek.kind = k ∧ (g ()).Yields s.advance b s' := by
  rw [yields_bind]
  constructor
  · rintro ⟨_, t, h, hg⟩
    obtain ⟨hk, rfl⟩ := yields_expectPeek.mp h
    exact ⟨hk, hg⟩
  · rintro ⟨hk, hg⟩
    exact ⟨(), _, yields_expectPeek.mpr ⟨hk, rfl⟩, hg⟩

end State

@[simp] theorem not_yields_iterate_zero {step : σ → Parse (σ ⊕ β)} {x : σ} {b : β} :
    ¬ (iterate step 0 x).Yields s b s' := not_yields_failure

theorem yields_iterate_succ {step : σ → Parse (σ ⊕ β)} {n : Nat} {x : σ} {b : β} :
    (iterate step (n + 1) x).Yields s b s' ↔
      (step x).Yields s (.inr b) s' ∨
        ∃ y t, (step x).Yields s (.inl y) t ∧ (iterate step n y).Yields t b s' := by
  rw [iterate, yields_bind]
  constructor
  · rintro ⟨y | b', t, hstep, hrest⟩
    · exact .inr ⟨y, t, hstep, hrest⟩
    · obtain ⟨rfl, rfl⟩ := yields_pure.mp hrest
      exact .inl hstep
  · rintro (hstep | ⟨y, t, hstep, hrest⟩)
    · exact ⟨.inr b, s', hstep, yields_pure.mpr ⟨rfl, rfl⟩⟩
    · exact ⟨.inl y, t, hstep, hrest⟩

theorem Yields.iterate_induct {step : σ → Parse (σ ⊕ β)} {I : σ → ParseState → Prop}
    {Q : β → ParseState → Prop}
    (hnext : ∀ x t y t', (step x).Yields t (.inl y) t' → I x t → I y t')
    (hlast : ∀ x t b t', (step x).Yields t (.inr b) t' → I x t → Q b t')
    {n : Nat} {x : σ} {b : β} (h : (iterate step n x).Yields s b s') (hI : I x s) : Q b s' := by
  induction n generalizing x s with
  | zero => exact absurd h not_yields_iterate_zero
  | succ n ih =>
    rcases yields_iterate_succ.mp h with hstep | ⟨y, t, hstep, hrest⟩
    · exact hlast x s b s' hstep hI
    · exact ih hrest (hnext x s y t hstep hI)

end Parse

/-- An expression in the literal of an interpolated string. -/
def Token.Segment (t : Token) (code : String) (line col : Int) : Prop :=
  t.kind = .interpolated ∧ ∃ ps, t.literal = .parts ps ∧ .source code line col ∈ ps

/-- The expressions in the literal of a token, and those in the literals of their tokens, are read without
errors. -/
inductive Token.Legible : Token → Prop
  | mk {t : Token}
      (errors : ∀ code line col, t.Segment code line col → (Token.scanAt code line (col - 1) t.file).2 = [])
      (tokens : ∀ code line col, t.Segment code line col →
        ∀ u ∈ (Token.scanAt code line (col - 1) t.file).1, u.Legible) : t.Legible

/-- Neither an end of input nor an interpolated string. -/
abbrev Token.Kind.Plain (k : Token.Kind) : Prop := k ≠ .eof ∧ k ≠ .interpolated

theorem Token.Legible.of_kind {t : Token} (h : t.kind ≠ .interpolated) : t.Legible :=
  ⟨fun _ _ _ hs => absurd hs.1 h, fun _ _ _ hs => absurd hs.1 h⟩

/-- The number of open brackets behind a token, if there are `n` in front of it. -/
def Token.Kind.shift (k : Token.Kind) (n : Nat) : Option Nat :=
  match k with
  | .leftParen | .leftBrace | .leftBracket => some (n + 1)
  | .rightParen | .rightBrace | .rightBracket => if n = 0 then none else some (n - 1)
  | _ => some n

instance : Nests Token where
  shift t n := t.kind.shift n
  shift_add {t n m} h d := by
    cases hk : t.kind <;> simp_all [Token.Kind.shift] <;> omega

@[simp] theorem Token.shift_eq (t : Token) (n : Nat) : Nests.shift t n = t.kind.shift n := rfl

namespace Parser

/-- The tokens end in the end of input. -/
def Closed (ts : List Token) : Prop := ∃ t ∈ ts.getLast?, t.kind = .eof

theorem Closed.of_append {ts us : List Token} (h : Closed (ts ++ us)) (hne : us ≠ []) : Closed us := by
  obtain ⟨t, ht, hk⟩ := h
  rw [List.getLast?_append] at ht
  obtain ⟨u, hu⟩ := Option.isSome_iff_exists.mp (List.getLast?_isSome.mpr hne)
  exact ⟨u, hu, by simp_all⟩

theorem Closed.append {us : List Token} (h : Closed us) (ts : List Token) : Closed (ts ++ us) := by
  obtain ⟨t, ht, hk⟩ := h
  exact ⟨t, by rw [List.getLast?_append, ht]; rfl, hk⟩

theorem Closed.ne_nil {ts : List Token} (h : Closed ts) : ts ≠ [] := by
  rintro rfl
  obtain ⟨t, ht, -⟩ := h
  simp at ht

theorem Closed.tail {t : Token} {ts : List Token} (h : Closed (t :: ts)) (ht : t.kind ≠ .eof) :
    Closed ts := by
  refine Closed.of_append (show Closed ([t] ++ ts) from h) ?_
  rintro rfl
  obtain ⟨u, hu, hk⟩ := h
  obtain rfl : t = u := by simpa using hu
  exact ht hk

theorem Closed.of_ended {ts : List Token} (h : Ended ts) : Closed ts := by
  obtain ⟨init, last, rfl, hlast, -⟩ := h
  exact ⟨last, by simp, hlast⟩

def Span (n : Nat) (ts : List Token) (m : Nat) (us : List Token) : Prop :=
  Closed us ∧ ∃ seg, ts = seg ++ us ∧ heightAfter n seg = some m ∧ ∀ t ∈ seg, t.Legible

namespace Span

variable {n m k : Nat} {ts us vs : List Token}

theorem closed (h : Span n ts m us) : Closed us := h.1

theorem refl (h : Closed ts) : Span n ts n ts := ⟨h, [], rfl, rfl, List.forall_mem_nil _⟩

theorem trans (h : Span n ts m us) (h' : Span m us k vs) : Span n ts k vs := by
  obtain ⟨-, seg, rfl, hseg, hlegible⟩ := h
  obtain ⟨hvs, seg', rfl, hseg', hlegible'⟩ := h'
  refine ⟨hvs, seg ++ seg', by simp, by simp [heightAfter_append, hseg, hseg'], ?_⟩
  exact List.forall_mem_append.mpr ⟨hlegible, hlegible'⟩

theorem add (h : Span n ts m us) (d : Nat) : Span (n + d) ts (m + d) us := by
  obtain ⟨hus, seg, hts, hseg, hlegible⟩ := h
  exact ⟨hus, seg, hts, heightAfter_add hseg d, hlegible⟩

theorem cons_of_legible {t : Token} (h : Closed (t :: ts)) (hne : t.kind ≠ .eof) (hlegible : t.Legible)
    (ht : t.kind.shift n = some m) : Span n (t :: ts) m ts :=
  ⟨h.tail hne, [t], rfl, by simp [heightAfter, ht], by simpa using hlegible⟩

theorem cons {t : Token} (h : Closed (t :: ts)) (hplain : t.kind.Plain) (ht : t.kind.shift n = some m) :
    Span n (t :: ts) m ts := .cons_of_legible h hplain.1 (.of_kind hplain.2) ht

end Span

end Parser

namespace ParseState

open Scripting.Parser

variable {s : ParseState} {n m : Nat}

/-- The tokens behind the current one. -/
def ahead (s : ParseState) : List Token := s.tokens.tail

def unshift (s : ParseState) : ParseState := if s.peek.kind = .shiftRight then s.splitShift else s

@[simp] theorem errors_advance (s : ParseState) : s.advance.errors = s.errors := by
  unfold advance
  split <;> rfl

theorem tokens_advance (h : Closed s.ahead) : s.advance.tokens = s.ahead := by
  rcases s with ⟨_ | ⟨t, _ | ⟨u, ts⟩⟩, errors⟩
  · exact absurd rfl h.ne_nil
  · exact absurd rfl h.ne_nil
  · rfl

theorem ahead_eq_cons (h : Closed s.ahead) : s.ahead = s.peek :: s.ahead.tail := by
  rcases s with ⟨_ | ⟨t, _ | ⟨u, ts⟩⟩, errors⟩
  · exact absurd rfl h.ne_nil
  · exact absurd rfl h.ne_nil
  · rfl

theorem tokens_eq_cons (h : Closed s.tokens) : s.tokens = s.current :: s.ahead := by
  rcases s with ⟨_ | ⟨t, ts⟩, errors⟩
  · exact absurd rfl h.ne_nil
  · rfl

@[simp] theorem current_advance (s : ParseState) : s.advance.current = s.peek := by
  rcases s with ⟨_ | ⟨t, _ | ⟨u, ts⟩⟩, errors⟩ <;> rfl

theorem span_current {k : Token.Kind} (h : Closed s.tokens) (hk : s.current.kind = k) (hplain : k.Plain)
    (hshift : k.shift n = some m) : Span n s.tokens m s.ahead := by
  subst hk
  have hcons := tokens_eq_cons h
  rw [hcons] at h ⊢
  exact .cons h hplain hshift

theorem span_advance (h : Closed s.ahead) : Span n s.ahead n s.advance.tokens := by
  rw [tokens_advance h]
  exact .refl h

theorem span_peek {k : Token.Kind} (h : Closed s.ahead) (hk : s.peek.kind = k) (hplain : k.Plain)
    (hshift : k.shift n = some m) : Span n s.ahead m s.advance.ahead := by
  subst hk
  have htokens : s.advance.ahead = s.ahead.tail := by rw [ahead, tokens_advance h]
  have hcons := ahead_eq_cons h
  rw [htokens]
  rw [hcons] at h ⊢
  exact .cons h hplain hshift

theorem span_dropNewlines {ts : List Token} (h : Closed ts) : Span n ts n (dropNewlines ts) := by
  induction ts with
  | nil => exact absurd rfl h.ne_nil
  | cons t ts ih =>
    cases ts with
    | nil => exact .refl h
    | cons u ts =>
      rw [dropNewlines]
      split
      · rename_i hk
        have hk : t.kind = .newline := by simpa using hk
        exact (Span.cons h (by rw [hk]; decide) (by simp [hk, Token.Kind.shift])).trans
          (ih (h.tail (by simp [hk])))
      · exact .refl h

theorem span_dropPeekNewlines {ts : List Token} (h : Closed ts.tail) :
    Span n ts.tail n (dropPeekNewlines ts).tail := by
  induction ts with
  | nil => exact absurd rfl h.ne_nil
  | cons t ts ih =>
    cases ts with
    | nil => exact .refl h
    | cons u ts =>
      rw [dropPeekNewlines]
      split
      · rename_i hk
        have hk : u.kind = .newline := by simpa using hk
        exact (Span.cons h (by rw [hk]; decide) (by simp [hk, Token.Kind.shift])).trans
          (ih (h.tail (by simp [hk])))
      · exact .refl h

theorem dropNewlines_append {breaks ts : List Token} {t : Token} (hb : ∀ u ∈ breaks, u.kind = .newline)
    (ht : t.kind ≠ .newline) : dropNewlines (breaks ++ t :: ts) = t :: ts := by
  induction breaks with
  | nil => cases ts <;> simp [dropNewlines, ht]
  | cons u us ih =>
    have hrest := ih fun v hv => hb v (.tail _ hv)
    cases us <;> simpa [dropNewlines, hb u (.head _)] using hrest

theorem dropNewlines_of_current (h : s.current.kind ≠ .newline) :
    { s with tokens := dropNewlines s.tokens } = s := by
  rcases s with ⟨_ | ⟨t, _ | ⟨u, ts⟩⟩, errors⟩
  · rfl
  · rfl
  · have ht : t.kind ≠ .newline := h
    simp [dropNewlines, ht]

theorem kind_peek_dropPeekNewlines {ts : List Token} {errors : List Diagnostic} (h : Closed ts.tail) :
    (ParseState.mk (dropPeekNewlines ts) errors).peek.kind =
      (ParseState.mk ts errors).kindPastNewlines := by
  induction ts with
  | nil => exact absurd rfl h.ne_nil
  | cons t ts ih =>
    cases ts with
    | nil => exact absurd rfl h.ne_nil
    | cons u ts =>
      rw [dropPeekNewlines]
      by_cases hk : u.kind = .newline
      · simp only [hk, beq_self_eq_true, if_true]
        rw [ih (h.tail (by simp [hk]))]
        simp [kindPastNewlines, hk]
      · simp [kindPastNewlines, hk, peek]

theorem span_skipWhile {kinds : List Token.Kind} {ts : List Token} (h : Closed ts)
    (hkinds : ∀ k ∈ kinds, k.Plain ∧ k.shift n = some n) :
    Span n ts n (Parse.skipWhile.go kinds ts) := by
  induction ts with
  | nil => exact absurd rfl h.ne_nil
  | cons t ts ih =>
    cases ts with
    | nil => exact .refl h
    | cons u ts =>
      rw [Parse.skipWhile.go]
      split
      · rename_i hk
        obtain ⟨hplain, hshift⟩ := hkinds t.kind (by simpa using hk)
        exact (Span.cons h hplain hshift).trans (ih (h.tail hplain.1))
      · exact .refl h

theorem skipWhile_of_current {kinds : List Token.Kind} (h : s.current.kind ∉ kinds) :
    { s with tokens := Parse.skipWhile.go kinds s.tokens } = s := by
  rcases s with ⟨_ | ⟨t, _ | ⟨u, ts⟩⟩, errors⟩
  · rfl
  · rfl
  · have ht : t.kind ∉ kinds := h
    simp [Parse.skipWhile.go, ht]

end ParseState

end Scripting
