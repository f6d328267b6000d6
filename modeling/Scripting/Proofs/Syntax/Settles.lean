import Scripting.Proofs.Syntax.Brackets

/-!
# How far a parser runs

Two families of rules that differ in how deep they nest and how often they repeat do the same as long as
there is little to read. `Settles P a p q before after d` says so of two parsers, from states with `P` that
have less than `a` to read at the place `before`: both succeed in the same way, with at least `d` less to
read, or both fail, and then something was reported. There is one lemma for each way to put parsers
together.
-/

namespace Scripting

open ParseState Parse

namespace Parser

theorem weight_pos {t : Token} (h : t.kind ≠ .eof) : 0 < weight t := by
  unfold weight
  split
  · exact absurd ‹_› h
  · exact Nat.zero_lt_two
  · exact Nat.lt_of_lt_of_le Nat.zero_lt_one (Nat.le_add_right 1 _)
  · exact Nat.zero_lt_one

theorem weight_eq_zero {t : Token} (h : t.kind = .eof) : weight t = 0 := by
  simp [weight, h]

@[simp] theorem load_nil : load [] = 0 := rfl

@[simp] theorem load_cons (t : Token) (ts : List Token) : load (t :: ts) = weight t + load ts := rfl

theorem load_append (ts us : List Token) : load (ts ++ us) = load ts + load us := by
  induction ts with
  | nil => simp
  | cons t ts ih => rw [List.cons_append, load_cons, load_cons, ih, Nat.add_assoc]

theorem load_le_of_suffix {ts us : List Token} (h : us <:+ ts) : load us ≤ load ts := by
  obtain ⟨seg, rfl⟩ := h
  rw [load_append]
  exact Nat.le_add_left _ _

theorem weight_le_of_stands {known : Prop} {file : String} {pre : List Char} {t : Token}
    (h : t.Stands known file pre) : weight t ≤ t.lexeme.toList.length := by
  have hpos (hk : t.kind ≠ .eof) : 0 < t.lexeme.toList.length :=
    List.length_pos_iff.mpr fun hnil => hk (h.empty.mp hnil)
  unfold weight
  split
  · exact Nat.zero_le _
  · rw [h.shift ‹_›]
    exact Nat.le_refl 2
  · rename_i ps hk hps
    have hsum := (h.parts ps hps).sizes_le
    have := hpos (by rw [hk]; decide)
    omega
  · exact hpos (by simp_all)

theorem load_le_of_spread {known : Prop} {file : String} {pre text : List Char} {ts : List Token}
    (h : Spread (Token.Stands known file) pre ts text) : load ts ≤ text.length := by
  induction h with
  | nil => exact Nat.zero_le _
  | cons _ ht _ ih =>
    have := weight_le_of_stands ht
    simp only [load_cons, List.length_append]
    omega

theorem load_scanAt_le {code file : String} {line col : Int} (h : (Token.scanAt code line col file).2 = []) :
    load (Token.scanAt code line col file).1 ≤ code.length := by
  have hplace : Points False [] line (col + 1) := False.elim
  rw [← String.length_toList]
  exact load_le_of_spread (Lexer.scanAt_spread hplace h)

end Parser

namespace Ended

variable {t u : Token} {ts us : List Token}

theorem ne_nil (h : Ended ts) : ts ≠ [] := by
  obtain ⟨init, last, rfl, -⟩ := h
  simp

theorem of_singleton (h : Ended [t]) : t.kind = .eof := by
  obtain ⟨_ | ⟨v, init⟩, last, heq, hlast, -⟩ := h
  · cases heq
    exact hlast
  · simp at heq

theorem of_cons_cons (h : Ended (t :: u :: ts)) : t.kind ≠ .eof ∧ Ended (u :: ts) := by
  obtain ⟨_ | ⟨v, init⟩, last, heq, hlast, hinit⟩ := h
  · cases heq
  · obtain ⟨rfl, hrest⟩ := List.cons.inj heq
    exact ⟨hinit t (.head _), init, last, hrest, hlast, fun v hv => hinit v (.tail _ hv)⟩

theorem cons_cons (ht : t.kind ≠ .eof) (h : Ended (u :: ts)) : Ended (t :: u :: ts) := by
  obtain ⟨init, last, heq, hlast, hinit⟩ := h
  exact ⟨t :: init, last, congrArg (t :: ·) heq, hlast, List.forall_mem_cons.mpr ⟨ht, hinit⟩⟩

end Ended

namespace ParseState

open Scripting.Parser

variable {s t u : ParseState}

/-- From a state to another nothing comes back to be read, and no error is taken back. If nothing was
read the current token is still of the same kind. -/
structure Onward (s t : ParseState) : Prop where
  ended : Ended t.tokens
  grows : s.errors.length ≤ t.errors.length
  moves : load t.tokens < load s.tokens ∨ load t.tokens = load s.tokens ∧ t.current.kind = s.current.kind

namespace Onward

theorem refl (h : Ended s.tokens) : Onward s s := ⟨h, Nat.le_refl _, .inr ⟨rfl, rfl⟩⟩

theorem trans (h : Onward s t) (h' : Onward t u) : Onward s u := by
  refine ⟨h'.ended, Nat.le_trans h.grows h'.grows, ?_⟩
  rcases h.moves with hlt | ⟨heq, hkind⟩ <;> rcases h'.moves with hlt' | ⟨heq', hkind'⟩
  · exact .inl (Nat.lt_trans hlt' hlt)
  · exact .inl (heq' ▸ hlt)
  · exact .inl (heq ▸ hlt')
  · exact .inr ⟨heq'.trans heq, hkind'.trans hkind⟩

theorem load_le (h : Onward s t) : load t.tokens ≤ load s.tokens := by
  rcases h.moves with hlt | ⟨heq, -⟩
  · exact Nat.le_of_lt hlt
  · exact Nat.le_of_eq heq

theorem of_suffix {ts us : List Token} {errors : List Diagnostic} (h : Ended ts) (hsuffix : us <:+ ts)
    (hne : us ≠ []) : Onward ⟨ts, errors⟩ ⟨us, errors⟩ := by
  induction ts with
  | nil => exact absurd rfl h.ne_nil
  | cons t ts ih =>
    rcases List.suffix_cons_iff.mp hsuffix with rfl | hsuffix
    · exact refl h
    · cases ts with
      | nil => exact absurd (List.suffix_nil.mp hsuffix) hne
      | cons u ts =>
        have hrest := ih h.of_cons_cons.2 hsuffix
        refine ⟨hrest.ended, Nat.le_refl _, .inl (Nat.lt_of_le_of_lt hrest.load_le ?_)⟩
        have := weight_pos h.of_cons_cons.1
        simp only [load_cons]
        omega

theorem advance (h : Ended s.tokens) : Onward s s.advance := by
  rcases s with ⟨_ | ⟨t, _ | ⟨u, ts⟩⟩, errors⟩
  · exact absurd rfl h.ne_nil
  · exact refl h
  · exact of_suffix h (List.suffix_cons _ _) (List.cons_ne_nil _ _)

end Onward

theorem load_ahead_le (s : ParseState) : load s.ahead ≤ load s.tokens :=
  load_le_of_suffix (List.tail_suffix _)

theorem weight_le_of_current (h : Ended s.tokens) : weight s.current ≤ load s.tokens := by
  rcases s with ⟨_ | ⟨t, ts⟩, errors⟩
  · exact absurd rfl h.ne_nil
  · exact Nat.le_add_right _ _

theorem load_ahead_lt (h : Ended s.tokens) (hk : s.current.kind ≠ .eof) : load s.ahead < load s.tokens := by
  rcases s with ⟨_ | ⟨t, ts⟩, errors⟩
  · exact absurd rfl h.ne_nil
  · have hpos : 0 < weight t := weight_pos hk
    simp only [ahead, List.tail_cons, load_cons]
    omega

theorem load_advance (h : Ended s.tokens) : load s.advance.tokens = load s.ahead := by
  rcases s with ⟨_ | ⟨t, _ | ⟨u, ts⟩⟩, errors⟩
  · rfl
  · exact (congrArg (· + 0) (weight_eq_zero h.of_singleton))
  · rfl

theorem load_ahead_advance (hk : s.peek.kind ≠ .eof) (h : Ended s.tokens) :
    load s.advance.ahead < load s.ahead := by
  rw [← load_advance h]
  exact load_ahead_lt (Onward.advance h).ended (by rwa [current_advance])

theorem onward_splitShift (h : Ended s.tokens) (hk : s.peek.kind = .shiftRight) :
    Onward s s.splitShift ∧ load s.splitShift.ahead = load s.ahead := by
  rcases s with ⟨_ | ⟨t, _ | ⟨u, ts⟩⟩, errors⟩
  · exact absurd rfl h.ne_nil
  · exact absurd (hk.symm.trans h.of_singleton) (by decide)
  · have hk : u.kind = .shiftRight := hk
    have hu : weight u = 2 := by simp [weight, hk]
    obtain ⟨ht, hrest⟩ := h.of_cons_cons
    cases ts with
    | nil => exact absurd (hk.symm.trans hrest.of_singleton) (by decide)
    | cons v ts =>
      have hend := hrest.of_cons_cons.2
      have hhalf (col : Int) : weight ⟨.gt, ">", .text ">", u.line, col, u.file⟩ = 1 := rfl
      refine ⟨⟨?_, Nat.le_refl _, .inr ⟨?_, rfl⟩⟩, ?_⟩
      · exact .cons_cons ht (.cons_cons Token.Kind.noConfusion (.cons_cons Token.Kind.noConfusion hend))
      all_goals
        simp only [splitShift, ahead, List.tail_cons, load_cons, hu, hhalf]
        omega

theorem dropNewlines_suffix (ts : List Token) : dropNewlines ts <:+ ts ∧ (ts ≠ [] → dropNewlines ts ≠ []) := by
  induction ts with
  | nil => exact ⟨List.suffix_refl _, id⟩
  | cons t ts ih =>
    cases ts with
    | nil => exact ⟨List.suffix_refl _, id⟩
    | cons u ts =>
      rw [dropNewlines]
      split
      · exact ⟨ih.1.trans (List.suffix_cons _ _), fun _ => ih.2 (List.cons_ne_nil _ _)⟩
      · exact ⟨List.suffix_refl _, id⟩

theorem dropPeekNewlines_suffix (ts : List Token) :
    dropPeekNewlines ts <:+ ts ∧ (ts ≠ [] → dropPeekNewlines ts ≠ []) := by
  induction ts with
  | nil => exact ⟨List.suffix_refl _, id⟩
  | cons t ts ih =>
    cases ts with
    | nil => exact ⟨List.suffix_refl _, id⟩
    | cons u ts =>
      rw [dropPeekNewlines]
      split
      · exact ⟨ih.1.trans (List.suffix_cons _ _), fun _ => ih.2 (List.cons_ne_nil _ _)⟩
      · exact ⟨List.suffix_refl _, id⟩

theorem skipWhile_suffix (kinds : List Token.Kind) (ts : List Token) :
    skipWhile.go kinds ts <:+ ts ∧ (ts ≠ [] → skipWhile.go kinds ts ≠ []) := by
  induction ts with
  | nil => exact ⟨List.suffix_refl _, id⟩
  | cons t ts ih =>
    cases ts with
    | nil => exact ⟨List.suffix_refl _, id⟩
    | cons u ts =>
      rw [skipWhile.go]
      split
      · exact ⟨ih.1.trans (List.suffix_cons _ _), fun _ => ih.2 (List.cons_ne_nil _ _)⟩
      · exact ⟨List.suffix_refl _, id⟩

theorem exists_skipped (kinds : List Token.Kind) (ts : List Token) :
    ∃ skipped, (∀ t ∈ skipped, t.kind ∈ kinds) ∧ ts = skipped ++ skipWhile.go kinds ts := by
  induction ts with
  | nil => exact ⟨[], List.forall_mem_nil _, rfl⟩
  | cons t ts ih =>
    cases ts with
    | nil => exact ⟨[], List.forall_mem_nil _, rfl⟩
    | cons u ts =>
      rw [skipWhile.go]
      split
      · rename_i hk
        obtain ⟨skipped, hskipped, heq⟩ := ih
        exact ⟨t :: skipped, List.forall_mem_cons.mpr ⟨by simpa using hk, hskipped⟩, congrArg (t :: ·) heq⟩
      · exact ⟨[], List.forall_mem_nil _, rfl⟩

theorem current_skipWhile {kinds : List Token.Kind} {errors : List Diagnostic} (heof : .eof ∉ kinds)
    {ts : List Token} (h : Ended ts) :
    (ParseState.mk (skipWhile.go kinds ts) errors).current.kind ∉ kinds := by
  induction ts with
  | nil => exact absurd rfl h.ne_nil
  | cons t ts ih =>
    cases ts with
    | nil => exact h.of_singleton ▸ heof
    | cons u ts =>
      rw [skipWhile.go]
      split
      · exact ih h.of_cons_cons.2
      · rename_i hk
        simpa [current] using hk

theorem skipStatement_suffix (close : Token.Kind) (depth : Int) (ts : List Token) :
    skipStatement close depth ts <:+ ts ∧ (ts ≠ [] → skipStatement close depth ts ≠ []) := by
  induction ts generalizing depth with
  | nil => exact ⟨List.suffix_refl _, id⟩
  | cons t ts ih =>
    cases ts with
    | nil => exact ⟨List.suffix_refl _, id⟩
    | cons u ts =>
      have hrest (depth : Int) : skipStatement close depth (u :: ts) <:+ t :: u :: ts ∧
          (t :: u :: ts ≠ [] → skipStatement close depth (u :: ts) ≠ []) :=
        ⟨(ih depth).1.trans (List.suffix_cons _ _), fun _ => (ih depth).2 (List.cons_ne_nil _ _)⟩
      rw [skipStatement]
      split
      · exact ⟨List.suffix_refl _, id⟩
      · exact hrest _
      · split
        · exact ⟨List.suffix_refl _, id⟩
        · exact hrest _
      · split
        · exact ⟨List.suffix_refl _, id⟩
        · exact hrest _
      · split
        · exact ⟨List.suffix_refl _, id⟩
        · exact hrest _
      · exact hrest _

theorem skipStatement_lt {close : Token.Kind} (h : Ended s.tokens)
    (hk : s.current.kind ∉ [.eof, .newline, .semicolon, close]) :
    load (skipStatement close 0 s.tokens) < load s.tokens := by
  simp only [List.mem_cons, List.not_mem_nil, or_false, not_or] at hk
  rcases s with ⟨_ | ⟨t, _ | ⟨u, ts⟩⟩, errors⟩
  · exact absurd rfl h.ne_nil
  · exact absurd h.of_singleton hk.1
  · have hk : t.kind ≠ .eof ∧ t.kind ≠ .newline ∧ t.kind ≠ .semicolon ∧ t.kind ≠ close := hk
    have hskip : ∃ depth, skipStatement close 0 (t :: u :: ts) = skipStatement close depth (u :: ts) := by
      rw [skipStatement]
      split
      · exact absurd ‹_› hk.1
      · exact ⟨_, rfl⟩
      · rename_i hbrace
        refine ⟨0 - 1, if_neg fun h => ?_⟩
        have hclose : close = .rightBrace := by simpa using h
        exact hk.2.2.2 (hbrace.trans hclose.symm)
      · exact absurd ‹_› hk.2.1
      · exact absurd ‹_› hk.2.2.1
      · exact ⟨0, rfl⟩
    obtain ⟨depth, hskip⟩ := hskip
    have hle := load_le_of_suffix (skipStatement_suffix close depth (u :: ts)).1
    have hpos := weight_pos hk.1
    rw [hskip]
    simp only [load_cons] at hle ⊢
    omega

theorem tail_suffix_tail {ts us : List Token} (h : us <:+ ts) : us.tail <:+ ts.tail := by
  obtain ⟨_ | ⟨t, seg⟩, rfl⟩ := h
  · exact List.suffix_refl _
  · exact (List.tail_suffix us).trans (List.suffix_append seg us)

end ParseState

namespace Parser

variable {α β σ : Type} {P Q : ParseState → Prop} {a : Nat} {before : ParseState → List Token}
  {p q : Parse α} {s : ParseState}

/-- Both parsers end in the same way: well, or they fail and something was reported. -/
def Agree (p q : Parse α) (s : ParseState) (good : α → ParseState → Prop) : Prop :=
  ∃ x? t, p.run.run s = (x?, t) ∧ q.run.run s = (x?, t) ∧ Onward s t ∧
    match x? with
    | some x => good x t
    | none => s.errors.length < t.errors.length

namespace Agree

variable {f g : α → Parse β} {good good' : α → ParseState → Prop} {better : β → ParseState → Prop}

theorem mono (h : Agree p q s good) (hgood : ∀ x t, good x t → good' x t) : Agree p q s good' := by
  obtain ⟨_ | x, t, hp, hq, honward, hend⟩ := h
  · exact ⟨_, _, hp, hq, honward, hend⟩
  · exact ⟨_, _, hp, hq, honward, hgood x t hend⟩

theorem pure {x : α} (hs : Ended s.tokens) (hgood : good x s) : Agree (Pure.pure x) (Pure.pure x) s good :=
  ⟨some x, s, rfl, rfl, .refl hs, hgood⟩

theorem fail {code : Diagnostic.Code} {tok : Token} {msg : String} (hs : Ended s.tokens) :
    Agree (Parse.fail code tok msg) (Parse.fail code tok msg) s good :=
  ⟨none, { s with errors := .report code tok msg :: s.errors }, rfl, rfl,
    ⟨hs, Nat.le_succ _, .inr ⟨rfl, rfl⟩⟩, Nat.lt_succ_self _⟩

theorem bind (h : Agree p q s good)
    (hf : ∀ x t, Onward s t → good x t → Agree (f x) (g x) t better) : Agree (p >>= f) (q >>= g) s better := by
  obtain ⟨_ | x, t, hp, hq, honward, hend⟩ := h
  · exact ⟨none, t, by rw [run_bind, hp], by rw [run_bind, hq], honward, hend⟩
  · obtain ⟨y?, u, hf, hg, honward', hend'⟩ := hf x t honward hend
    refine ⟨y?, u, by rw [run_bind, hp]; exact hf, by rw [run_bind, hq]; exact hg, honward.trans honward', ?_⟩
    cases y? with
    | none => exact Nat.lt_of_le_of_lt honward.grows hend'
    | some y => exact hend'

theorem of_step {t : ParseState} (honward : Onward s t) (hp : p.run.run s = p'.run.run t)
    (hq : q.run.run s = q'.run.run t) (h : Agree p' q' t good) : Agree p q s good := by
  obtain ⟨x?, u, hp', hq', honward', hend⟩ := h
  refine ⟨x?, u, hp.trans hp', hq.trans hq', honward.trans honward', ?_⟩
  cases x? with
  | none => exact Nat.lt_of_le_of_lt honward.grows hend
  | some x => exact hend

end Agree

def Settles (P : ParseState → Prop) (a : Nat) (p q : Parse α) (before : ParseState → List Token)
    (after : α → ParseState → List Token) (d : α → Nat) : Prop :=
  ∀ s, P s → Ended s.tokens → load (before s) < a →
    Agree p q s fun x t => load (after x t) + d x ≤ load (before s)

abbrev SettlesForm (P : ParseState → Prop) (a : Nat) (p q : Parse α) : Prop :=
  Settles P a p q ParseState.tokens (fun _ => ahead) fun _ => 1

abbrev SettlesRest (P : ParseState → Prop) (a : Nat) (p q : Parse α) : Prop :=
  Settles P a p q ahead (fun _ => ahead) fun _ => 0

theorem elim_le_one (y : α ⊕ β) : Sum.elim (fun _ => 1) (fun _ => 0) y ≤ 1 := by
  cases y
  · exact Nat.le_refl 1
  · exact Nat.zero_le 1

namespace Settles

variable {f g : α → Parse β} {after : β → ParseState → List Token} {d : β → Nat}

theorem mono {after : α → ParseState → List Token} {d d' : α → Nat} {a' : Nat}
    (h : Settles Q a' p q before after d) (hPQ : ∀ s, P s → Q s) (ha : a ≤ a') (hd : ∀ x, d' x ≤ d x) :
    Settles P a p q before after d' := fun s hP hs hload =>
  (h s (hPQ s hP) hs (Nat.lt_of_lt_of_le hload ha)).mono fun x _ hx =>
    Nat.le_trans (Nat.add_le_add_left (hd x) _) hx

theorem le {after : α → ParseState → List Token} {d : α → Nat} {a' : Nat}
    (h : Settles P a' p q before after d) (ha : a ≤ a') : Settles P a p q before after d :=
  h.mono (fun _ => id) ha fun _ => Nat.le_refl _

theorem given {after : α → ParseState → List Token} {d : α → Nat}
    (h : ∀ s, P s → Ended s.tokens → load (before s) < a → Settles P a p q before after d) :
    Settles P a p q before after d := fun s hP hs hload => h s hP hs hload s hP hs hload

theorem pure_of {x : α} {after : α → ParseState → List Token} {d : α → Nat}
    (h : ∀ s, load (after x s) + d x ≤ load (before s)) :
    Settles P a (Pure.pure x) (Pure.pure x) before after d := fun s _ hs _ => .pure hs (h s)

theorem pure {x : α} : Settles P a (Pure.pure x) (Pure.pure x) before (fun _ => before) fun _ => 0 :=
  .pure_of fun _ => Nat.le_refl _

theorem fail {code : Diagnostic.Code} {tok : Token} {msg : String} {after : α → ParseState → List Token}
    {d : α → Nat} : Settles P a (Parse.fail code tok msg) (Parse.fail code tok msg) before after d :=
  fun _ _ hs _ => .fail hs

theorem fail_bind {code : Diagnostic.Code} {tok : Token} {msg : String} :
    Settles P a (Parse.fail code tok msg >>= f) (Parse.fail code tok msg >>= g) before after d :=
  fun s _ hs _ =>
    have hfail : Agree (Parse.fail code tok msg) (Parse.fail code tok msg) s fun _ _ => False := .fail hs
    hfail.bind fun _ _ _ h => h.elim

theorem bind {mid : α → ParseState → List Token} {k : α → Nat} (hp : Settles P a p q before mid k)
    (hf : ∀ x, Settles (fun _ => True) a (f x) (g x) (mid x) after d) :
    Settles P a (p >>= f) (q >>= g) before after d := fun s hP hs hload =>
  (hp s hP hs hload).bind fun x t honward (hx : load (mid x t) + k x ≤ _) =>
    (hf x t trivial honward.ended (by omega)).mono fun y u hy => by omega

theorem bind_of {mid : α → ParseState → List Token} {e : Nat} (ha : a ≤ e + 1)
    (hp : Settles P a p q before mid fun _ => 1)
    (hf : ∀ x, Settles (fun _ => True) e (f x) (g x) (mid x) after fun _ => 0) (hd : ∀ y, d y ≤ 1) :
    Settles P a (p >>= f) (q >>= g) before after d := fun s hP hs hload =>
  (hp s hP hs hload).bind fun x t honward (hx : load (mid x t) + 1 ≤ _) =>
    (hf x t trivial honward.ended (by omega)).mono fun y u (hy : _ ≤ load (mid x t)) => by
      have := hd y
      omega

theorem bind_counted {f g : α → Parse (σ ⊕ β)} {mid : α → ParseState → List Token}
    {after : σ ⊕ β → ParseState → List Token} (hp : Settles P a p q before mid fun _ => 1)
    (hf : ∀ x, Settles (fun _ => True) a (f x) (g x) (mid x) after fun _ => 0) :
    Settles P a (p >>= f) (q >>= g) before after (Sum.elim (fun _ => 1) fun _ => 0) :=
  .bind_of (Nat.le_succ a) hp hf elim_le_one

theorem ite {c : Prop} [Decidable c] {p' q' : Parse α} {after : α → ParseState → List Token} {d : α → Nat}
    (hp : c → Settles P a p q before after d) (hq : ¬ c → Settles P a p' q' before after d) :
    Settles P a (if c then p else p') (if c then q else q') before after d := by
  split
  · exact hp ‹_›
  · exact hq ‹_›

section Steps

variable {f g : Unit → Parse β}

theorem current {f g : Token → Parse β}
    (h : ∀ tok, Settles (fun s => P s ∧ s.current = tok) a (f tok) (g tok) before after d) :
    Settles P a (Parse.current >>= f) (Parse.current >>= g) before after d :=
  fun s hP hs hload => h s.current s ⟨hP, rfl⟩ hs hload

theorem peek {f g : Token → Parse β}
    (h : ∀ tok, Settles (fun s => P s ∧ s.peek = tok) a (f tok) (g tok) before after d) :
    Settles P a (Parse.peek >>= f) (Parse.peek >>= g) before after d :=
  fun s hP hs hload => h s.peek s ⟨hP, rfl⟩ hs hload

theorem get {f g : ParseState → Parse β}
    (h : ∀ s, Settles (fun s' => P s' ∧ s' = s) a (f s) (g s) before after d) :
    Settles P a (MonadState.get >>= f) (MonadState.get >>= g) before after d :=
  fun s hP hs hload => h s s ⟨hP, rfl⟩ hs hload

theorem currentName {f g : Name → Parse β} (h : ∀ name, Settles P a (f name) (g name) before after d) :
    Settles P a (Parse.currentName >>= f) (Parse.currentName >>= g) before after d :=
  fun s hP hs hload => h _ s hP hs hload

theorem peekIs {k : Token.Kind} {f g : Bool → Parse β}
    (hyes : Settles (fun s => P s ∧ s.peek.kind = k) a (f true) (g true) before after d)
    (hno : Settles (fun s => P s ∧ s.peek.kind ≠ k) a (f false) (g false) before after d) :
    Settles P a (Parse.peekIs k >>= f) (Parse.peekIs k >>= g) before after d := by
  intro s hP hs hload
  change Agree (f (s.peek.kind == k)) (g (s.peek.kind == k)) s _
  by_cases hk : s.peek.kind = k
  · rw [beq_iff_eq.mpr hk]
    exact hyes s ⟨hP, hk⟩ hs hload
  · rw [beq_eq_false_iff_ne.mpr hk]
    exact hno s ⟨hP, hk⟩ hs hload

theorem currentIs {k : Token.Kind} {f g : Bool → Parse β}
    (hyes : Settles (fun s => P s ∧ s.current.kind = k) a (f true) (g true) before after d)
    (hno : Settles (fun s => P s ∧ s.current.kind ≠ k) a (f false) (g false) before after d) :
    Settles P a (Parse.currentIs k >>= f) (Parse.currentIs k >>= g) before after d := by
  intro s hP hs hload
  change Agree (f (s.current.kind == k)) (g (s.current.kind == k)) s _
  by_cases hk : s.current.kind = k
  · rw [beq_iff_eq.mpr hk]
    exact hyes s ⟨hP, hk⟩ hs hload
  · rw [beq_eq_false_iff_ne.mpr hk]
    exact hno s ⟨hP, hk⟩ hs hload

theorem tokens_of_ahead {p q : Parse β} (h : Settles P a p q ahead after d) :
    Settles P a p q ParseState.tokens after d := by
  intro s hP hs hload
  have hle := load_ahead_le s
  exact (h s hP hs (by omega)).mono fun x t hx => Nat.le_trans hx hle

theorem past_of {p q : Parse β} {e : Nat} (ha : a ≤ e + 1) (hk : ∀ s, P s → s.current.kind ≠ .eof)
    (h : Settles P e p q ahead after fun _ => 0) (hd : ∀ x, d x ≤ 1) :
    Settles P a p q ParseState.tokens after d := by
  intro s hP hs hload
  have hlt := load_ahead_lt hs (hk s hP)
  exact (h s hP hs (by omega)).mono fun x t (hx : _ ≤ load s.ahead) => by
    have := hd x
    omega

theorem past_counted {p q : Parse β} (hk : ∀ s, P s → s.current.kind ≠ .eof)
    (h : Settles P a p q ahead after fun _ => 0) : Settles P a p q ParseState.tokens after fun _ => 1 :=
  .past_of (Nat.le_succ a) hk h fun _ => Nat.le_refl 1

theorem past {p q : Parse β} (hk : ∀ s, P s → s.current.kind ≠ .eof)
    (h : Settles P a p q ahead after fun _ => 0) :
    Settles P (a + 1) p q ParseState.tokens after fun _ => 1 :=
  .past_of (Nat.le_refl _) hk h fun _ => Nat.le_refl 1

theorem advance_of (hPQ : ∀ s, P s → Q s.advance)
    (h : Settles Q a (f ()) (g ()) ParseState.tokens after d) :
    Settles P a (Parse.advance >>= f) (Parse.advance >>= g) ahead after d := by
  intro s hP hs hload
  have hnext := h s.advance (hPQ s hP) (Onward.advance hs).ended (by rwa [load_advance hs])
  rw [load_advance hs] at hnext
  exact .of_step (.advance hs) rfl rfl hnext

theorem advance (h : Settles (fun _ => True) a (f ()) (g ()) ParseState.tokens after d) :
    Settles P a (Parse.advance >>= f) (Parse.advance >>= g) ahead after d := advance_of (fun _ _ => trivial) h

theorem advanceOver (h : Settles (fun _ => True) a (f ()) (g ()) ahead after d) :
    Settles P a (Parse.advance >>= f) (Parse.advance >>= g) ahead after d := advance h.tokens_of_ahead

theorem advancePast (hk : ∀ s, P s → s.peek.kind ≠ .eof)
    (h : Settles (fun _ => True) a (f ()) (g ()) ahead after d) :
    Settles P (a + 1) (Parse.advance >>= f) (Parse.advance >>= g) ahead after d := by
  intro s hP hs hload
  have hlt := load_ahead_advance (hk s hP) hs
  have hnext := h s.advance trivial (Onward.advance hs).ended (by omega)
  exact .of_step (.advance hs) rfl rfl (hnext.mono fun x t hx => by omega)

theorem expectPeek {k : Token.Kind} (h : Settles (fun _ => True) a (f ()) (g ()) ahead after d) :
    Settles P a (Parse.expectPeek k >>= f) (Parse.expectPeek k >>= g) ahead after d := by
  intro s hP hs hload
  have hstep : Agree (Parse.expectPeek k) (Parse.expectPeek k) s fun _ t => t = s.advance := by
    let fail : Parse Unit := Parse.fail .unexpected s.peek
      ("expected next token to be " ++ k.name ++ ", got " ++ describe s.peek ++ " instead")
    change Agree (if s.peek.kind == k then Parse.advance else fail)
      (if s.peek.kind == k then Parse.advance else fail) s _
    split
    · exact ⟨some (), s.advance, rfl, rfl, .advance hs, rfl⟩
    · exact .fail hs
  refine hstep.bind fun _ t honward ht => ?_
  subst ht
  have hle : load s.advance.ahead ≤ load s.ahead := load_advance hs ▸ load_ahead_le s.advance
  exact (h s.advance trivial honward.ended (by omega)).mono fun x t hx => Nat.le_trans hx hle

theorem skipNewlines (h : Settles (fun _ => True) a (f ()) (g ()) ParseState.tokens after d) :
    Settles P a (Parse.skipNewlines >>= f) (Parse.skipNewlines >>= g) ParseState.tokens after d := by
  intro s _ hs hload
  obtain ⟨hsuffix, hne⟩ := dropNewlines_suffix s.tokens
  have honward : Onward s { s with tokens := dropNewlines s.tokens } := .of_suffix hs hsuffix (hne hs.ne_nil)
  have hle := load_le_of_suffix hsuffix
  have hnext := h { s with tokens := dropNewlines s.tokens } trivial honward.ended
    (Nat.lt_of_le_of_lt hle hload)
  exact .of_step honward rfl rfl (hnext.mono fun x t hx => Nat.le_trans hx hle)

theorem skipWhile {kinds : List Token.Kind}
    (h : Settles (fun _ => True) a (f ()) (g ()) ParseState.tokens after d) :
    Settles P a (Parse.skipWhile kinds >>= f) (Parse.skipWhile kinds >>= g) ParseState.tokens after d := by
  intro s _ hs hload
  obtain ⟨hsuffix, hne⟩ := skipWhile_suffix kinds s.tokens
  have honward : Onward s { s with tokens := Parse.skipWhile.go kinds s.tokens } :=
    .of_suffix hs hsuffix (hne hs.ne_nil)
  have hle := load_le_of_suffix hsuffix
  have hnext := h { s with tokens := Parse.skipWhile.go kinds s.tokens } trivial honward.ended
    (Nat.lt_of_le_of_lt hle hload)
  exact .of_step honward rfl rfl (hnext.mono fun x t hx => Nat.le_trans hx hle)

theorem skipPeekNewlines (h : Settles (fun _ => True) a (f ()) (g ()) ahead after d) :
    Settles P a (Parse.skipPeekNewlines >>= f) (Parse.skipPeekNewlines >>= g) ahead after d := by
  intro s _ hs hload
  obtain ⟨hsuffix, hne⟩ := dropPeekNewlines_suffix s.tokens
  have honward : Onward s { s with tokens := dropPeekNewlines s.tokens } :=
    .of_suffix hs hsuffix (hne hs.ne_nil)
  have hle : load (ahead { s with tokens := dropPeekNewlines s.tokens }) ≤ load s.ahead :=
    load_le_of_suffix (tail_suffix_tail hsuffix)
  have hnext := h { s with tokens := dropPeekNewlines s.tokens } trivial honward.ended
    (Nat.lt_of_le_of_lt hle hload)
  exact .of_step honward rfl rfl (hnext.mono fun x t hx => Nat.le_trans hx hle)

theorem splitShift {f g : PUnit → Parse β} (hk : ∀ s, P s → s.peek.kind = .shiftRight)
    (h : Settles (fun _ => True) a (f ⟨⟩) (g ⟨⟩) ahead after d) :
    Settles P a (modify ParseState.splitShift >>= f) (modify ParseState.splitShift >>= g) ahead after d := by
  intro s hP hs hload
  obtain ⟨honward, heq⟩ := onward_splitShift hs (hk s hP)
  have hnext := h s.splitShift trivial honward.ended (by rwa [heq])
  rw [heq] at hnext
  exact .of_step honward rfl rfl hnext

end Steps

theorem iterate {step step' : σ → Parse (σ ⊕ β)} {after : ParseState → List Token} {m n : Nat}
    (h : ∀ x, Settles (fun _ => True) a (step x) (step' x) before (Sum.elim (fun _ => before) fun _ => after)
      (Sum.elim (fun _ => 1) fun _ => 0)) (hm : a ≤ m) (hn : a ≤ n) (x : σ) :
    Settles P a (Parse.iterate step m x) (Parse.iterate step' n x) before (fun _ => after) fun _ => 0 := by
  -- By induction on what there is to read: a round that is not the last one reads something.
  suffices hrun : ∀ N m n x s, N < m → N < n → Ended s.tokens → load (before s) < a → load (before s) ≤ N →
      Agree (Parse.iterate step m x) (Parse.iterate step' n x) s fun _ t =>
        load (after t) + 0 ≤ load (before s) from
    fun s _ hs hload => hrun _ m n x s (by omega) (by omega) hs hload (Nat.le_refl _)
  intro N
  induction N using Nat.strongRecOn with
  | ind N ih =>
    intro m n x s hm hn hs hload hN
    obtain ⟨m, rfl⟩ := Nat.exists_eq_add_of_lt hm
    obtain ⟨n, rfl⟩ := Nat.exists_eq_add_of_lt hn
    refine (h x s trivial hs hload).bind fun y t honward hy => ?_
    cases y with
    | inl z =>
      have hless : load (before t) + 1 ≤ load (before s) := hy
      exact (ih (load (before t)) (by omega) _ _ z t (by omega) (by omega) honward.ended (by omega)
        (Nat.le_refl _)).mono fun b u hb => by omega
    | inr b => exact .pure honward.ended hy

theorem iterate_bind {step step' : σ → Parse (σ ⊕ α)} {f g : α → Parse β} {m n : Nat} {x : σ}
    (mid : ParseState → List Token) (hm : a ≤ m) (hn : a ≤ n)
    (h : ∀ x, Settles (fun _ => True) a (step x) (step' x) before (Sum.elim (fun _ => before) fun _ => mid)
      (Sum.elim (fun _ => 1) fun _ => 0))
    (hf : ∀ x, Settles (fun _ => True) a (f x) (g x) mid after d) :
    Settles P a (Parse.iterate step m x >>= f) (Parse.iterate step' n x >>= g) before after d :=
  .bind (.iterate h hm hn x) hf

end Settles

end Parser

end Scripting
