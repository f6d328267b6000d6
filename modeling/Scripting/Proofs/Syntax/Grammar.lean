import Scripting.Proofs.Syntax.Reads

/-!
# Every rule of the grammar reads balanced brackets

A rule that succeeds and reports nothing has read a run of tokens in which every bracket is closed
(`sound_rules`). The only tokens that a rule changes are the two halves of a `>>` behind a type; the
second half can be read by a further type only, and no rule goes on with it otherwise (`Split`).
-/

namespace Scripting.Parser

open Parse ParseState

variable {β : Type} {P : ParseState → Prop} {before : Place} {n : Nat}

/-- A place behind the first half of a `>>`, whose second half is still to be read. -/
def Split (ts : List Token) (t : ParseState) : Prop :=
  ∃ g u us, t.ahead = g :: us ∧ g.kind = .gt ∧ u.kind = .shiftRight ∧ Span 0 ts 0 (u :: us)

def TypeEnd (ts : List Token) (t : ParseState) : Prop := Span 0 ts 0 t.ahead ∨ Split ts t

theorem TypeEnd.of_span {ts us : List Token} {t : ParseState} (h : Span 0 ts 0 us) (h' : TypeEnd us t) :
    TypeEnd ts t := by
  rcases h' with h' | ⟨g, u, us, hahead, hg, hu, h'⟩
  · exact .inl (h.trans h')
  · exact .inr ⟨g, u, us, hahead, hg, hu, h.trans h'⟩

def ReadsType (p : Parse β) (before : Place) : Prop :=
  ∀ s a t, p.Yields s a t → Clean s t (Closed (before s) → TypeEnd (before s) t)

theorem Split.peek {ts : List Token} {t : ParseState} (h : Split ts t) : t.peek.kind = .gt := by
  obtain ⟨g, u, us, hahead, hg, hu, hspan⟩ := h
  have hne : us ≠ [] := (hspan.closed.tail (by simp [hu])).ne_nil
  rcases t with ⟨_ | ⟨t, _ | ⟨v, ts⟩⟩, errors⟩
  · simp [ahead] at hahead
  · simp [ahead] at hahead
  · simp only [ahead, List.tail_cons, List.cons.injEq] at hahead
    rw [← hg, ← hahead.1]
    rfl

theorem TypeEnd.span_of_peek {ts : List Token} {t : ParseState} (h : TypeEnd ts t)
    (ht : t.peek.kind ≠ .gt) : Span 0 ts 0 t.ahead := h.resolve_right fun hsplit => ht hsplit.peek

theorem Split.past {ts : List Token} {t : ParseState} (h : Split ts t) :
    Span 0 ts 0 t.advance.ahead := by
  obtain ⟨g, u, us, hahead, hg, hu, hspan⟩ := h
  have hus : Closed us := hspan.closed.tail (by simp [hu])
  have hadvance : t.advance.ahead = us := by
    rcases t with ⟨_ | ⟨t, _ | ⟨v, ts⟩⟩, errors⟩
    · simp [ahead] at hahead
    · simp [ahead] at hahead
    · simp only [ahead, List.tail_cons, List.cons.injEq] at hahead
      exact hahead.2
  rw [hadvance]
  exact hspan.trans (.cons hspan.closed (by rw [hu]; decide) (by simp [hu, Token.Kind.shift]))

theorem ReadsType.bind {p : Parse α} {f : α → Parse β} {after : β → Place} {m : β → Nat}
    (hp : ReadsType p before) (hf : ∀ a, Reads (fun _ => True) (f a) ahead n after m)
    (hstuck : ∀ a t b u, t.peek.kind = .gt → ¬ (f a).Yields t b u) :
    Reads P (p >>= f) before n after m := by
  intro s b u _ h
  obtain ⟨a, t, hpy, hfy⟩ := yields_bind.mp h
  obtain ⟨hle, hspan⟩ := hp s a t hpy
  obtain ⟨hle', hspan'⟩ := hf a t b u trivial hfy
  refine ⟨Nat.le_trans hle hle', fun heq hc => ?_⟩
  rcases hspan (by omega) hc with hspan | hsplit
  · have h₁ := hspan.add n
    rw [Nat.zero_add] at h₁
    exact h₁.trans (hspan' (by omega) hspan.closed)
  · exact absurd hfy (hstuck a t b u hsplit.peek)

/-- Rules read what they should, and a type starts with a name. -/
structure Sound (r : Rules) : Prop where
  expr : ∀ {P} level c, ReadsForm P (r.expr level c)
  block : ∀ {P} c, Reads P (r.block c) ahead 1 (fun _ => ahead) fun _ => 0
  cond : ∀ {P} c, Reads P (r.cond c) ahead 0 (fun _ => ahead) fun _ => 0
  pattern : ∀ {P} c, ReadsForm P (r.pattern c)
  type : ReadsType r.type ParseState.tokens
  type_ident : ∀ s a t, r.type.Yields s a t → s.current.kind = .ident

theorem reads_dottedPath (rounds : Nat) (path : List String) :
    Reads P (dottedPath rounds path) ahead 0 (fun _ => ahead) fun _ => 0 := by
  induction rounds generalizing path P with
  | zero => exact .failure
  | succ rounds ih =>
    refine .peekIs ?_ (.pure rfl rfl)
    refine .advanceOver .dot (fun s hs => hs.2) ?_ (by decide) rfl
    exact .expectPeek (.current fun _ => ih _) (by decide) rfl

variable {r : Rules} (hr : Sound r)

include hr

theorem readsType_typeArgs : ReadsType (typeArgs r) ahead := by
  intro s args t h
  -- Behind each argument comes a comma, or the list ends, maybe inside a `>>`.
  refine Yields.iterate_induct
    (I := fun _ t => Clean s t (Closed s.ahead → Span 0 s.ahead 0 t.ahead))
    (Q := fun _ t => Clean s t (Closed s.ahead → TypeEnd s.ahead t)) ?_ ?_ h
    ⟨Nat.le_refl _, fun _ hs => .refl hs⟩
  all_goals
    rintro args t args' t' h ⟨hle, hspan⟩
    rw [yields_advance_bind] at h
    obtain ⟨ty, u, hty, h⟩ := yields_bind.mp h
    obtain ⟨hle', hend⟩ := hr.type _ _ _ hty
    rw [errors_advance] at hle' hend
    rw [yields_peekIs_bind] at h
    have hstep : Clean s u (Closed s.ahead → TypeEnd s.ahead u) := by
      refine ⟨by omega, fun heq hs => ?_⟩
      have h₁ := hspan (by omega) hs
      have h₂ := h₁.trans (span_advance h₁.closed)
      exact .of_span h₂ (hend (by omega) h₂.closed)
    by_cases hcomma : u.peek.kind = .comma
  · simp only [hcomma, beq_self_eq_true, if_true, yields_advance_bind, yields_pure] at h
    obtain ⟨-, rfl⟩ := h
    rw [Clean, errors_advance]
    refine ⟨hstep.1, fun heq hs => ?_⟩
    have h₁ := (hstep.2 heq hs).span_of_peek (by simp [hcomma])
    exact h₁.trans (span_peek h₁.closed hcomma (by decide) rfl)
  · simp [beq_eq_false_iff_ne.mpr hcomma] at h
  · simp [hcomma] at h
  · simp only [beq_eq_false_iff_ne.mpr hcomma, Bool.false_eq_true, if_false, yields_pure] at h
    obtain ⟨-, rfl⟩ := h
    exact hstep

omit hr in
theorem yields_arraySuffix {tok : Token} {rounds : Nat} {ty ty' : TypeExpr} {s t : ParseState}
    (h : (arraySuffix tok rounds ty).Yields s ty' t) : t = s ∨
      (s.peek.kind = .leftBracket ∧ t.errors = s.errors ∧
        (Closed s.ahead → Span 0 s.ahead 0 t.ahead)) := by
  induction rounds generalizing ty s with
  | zero => exact absurd h not_yields_failure
  | succ rounds ih =>
    rw [arraySuffix, yields_get_bind] at h
    split at h
    · rename_i u v us htokens
      by_cases hk : (u.kind == .leftBracket && v.kind == .rightBracket) = true
      · obtain ⟨hu, hv⟩ : u.kind = .leftBracket ∧ v.kind = .rightBracket := by simpa using hk
        rw [if_pos hk, yields_advance_bind, yields_advance_bind] at h
        have hpeek : s.peek = u := by simp [ParseState.peek, htokens]
        have hnext : s.advance.peek.kind = .rightBracket := by
          simp [ParseState.peek, ParseState.advance, htokens, hv]
        have hbrackets : Closed s.ahead → Span 0 s.ahead 0 s.advance.advance.ahead := fun hs => by
          have h₁ := span_peek (n := 0) hs (hpeek ▸ hu) (by decide) rfl
          exact h₁.trans (span_peek h₁.closed hnext (by decide) rfl)
        refine .inr ⟨hpeek ▸ hu, ?_⟩
        rcases ih h with rfl | ⟨-, herrors, hspan⟩
        · exact ⟨by simp, hbrackets⟩
        · exact ⟨by simpa using herrors, fun hs => (hbrackets hs).trans (hspan (hbrackets hs).closed)⟩
      · rw [if_neg hk] at h
        exact .inl (yields_pure.mp h).2.symm
    · exact .inl (yields_pure.mp h).2.symm

omit hr in
theorem Clean.arraySuffix {ts : List Token} {tok : Token} {rounds : Nat} {ty ty' : TypeExpr}
    {s u t : ParseState} (hu : Clean s u (Closed ts → TypeEnd ts u))
    (h : (arraySuffix tok rounds ty).Yields u ty' t) : Clean s t (Closed ts → TypeEnd ts t) := by
  rcases yields_arraySuffix h with rfl | ⟨hpeek, herrors, hspan⟩
  · exact hu
  · refine ⟨by rw [herrors]; exact hu.1, fun heq hts => .inl ?_⟩
    have h₁ := (hu.2 (by rw [← herrors]; exact heq) hts).span_of_peek (by simp [hpeek])
    exact h₁.trans (hspan h₁.closed)

omit hr in
theorem errors_splitShift (s : ParseState) : s.splitShift.errors = s.errors := by
  unfold ParseState.splitShift
  split <;> rfl

omit hr in
theorem TypeEnd.splitShift {ts : List Token} {s : ParseState} (h : TypeEnd ts s)
    (hpeek : s.peek.kind = .shiftRight) : TypeEnd ts s.splitShift.advance := by
  have h₁ := h.span_of_peek (by simp [hpeek])
  rcases s with ⟨_ | ⟨t, _ | ⟨u, us⟩⟩, errors⟩
  · exact absurd rfl h₁.closed.ne_nil
  · exact absurd rfl h₁.closed.ne_nil
  · exact .inr ⟨_, u, us, rfl, rfl, hpeek, h₁⟩

omit hr in
theorem yields_typeExpr {s t : ParseState} {ty : TypeExpr} : (typeExpr r).Yields s ty t ↔
    s.current.kind = .ident ∧ ∃ path u, (dottedPath r.rounds [s.current.lexeme]).Yields s path u ∧
      ((u.peek.kind ≠ .lt ∧ (arraySuffix s.current r.rounds (.named s.current path [])).Yields u ty t) ∨
        (u.peek.kind = .lt ∧ ∃ args v, (typeArgs r).Yields u.advance args v ∧ v.unshift.peek.kind = .gt ∧
          (arraySuffix s.current r.rounds (.named s.current path args)).Yields v.unshift.advance ty t)) := by
  rw [typeExpr, yields_current_bind]
  by_cases hident : s.current.kind = .ident
  · simp only [hident, bne_self_eq_false, Bool.false_eq_true, if_false, pure_bind, true_and]
    rw [yields_bind]
    refine exists_congr fun path => exists_congr fun u => and_congr_right' ?_
    rw [yields_peekIs_bind]
    by_cases hlt : u.peek.kind = .lt
    · simp only [hlt, beq_self_eq_true, if_true, ne_eq, not_true_eq_false, false_and, false_or, true_and]
      rw [yields_advance_bind, yields_bind]
      refine exists_congr fun args => exists_congr fun v => and_congr_right' ?_
      rw [yields_peekIs_bind, ParseState.unshift]
      by_cases hshift : v.peek.kind = .shiftRight
      · simp only [hshift, beq_self_eq_true, if_true, yields_modify_bind, yields_expectPeek_bind]
      · simp only [beq_eq_false_iff_ne.mpr hshift, Bool.false_eq_true, if_false, yields_expectPeek_bind, hshift]
    · simp [beq_eq_false_iff_ne.mpr hlt, hlt]
  · simp [bne_iff_ne.mpr hident, hident]

theorem readsType_typeExpr : ReadsType (typeExpr r) ParseState.tokens := by
  intro s ty t h
  obtain ⟨hident, path, u, hpath, h⟩ := yields_typeExpr.mp h
  have hname : ReadsForm (fun s => s.current.kind = .ident) (dottedPath r.rounds [s.current.lexeme]) :=
    .past .ident (fun _ h => h) (reads_dottedPath _ _) (by decide) rfl
  obtain ⟨hle, hspan⟩ := hname s path u hident hpath
  rcases h with ⟨-, h⟩ | ⟨hlt, args, v, hargs, hgt, h⟩
  · exact Clean.arraySuffix ⟨hle, fun heq hs => .inl (hspan heq hs)⟩ h
  · obtain ⟨hle', hend⟩ := readsType_typeArgs hr _ args v hargs
    rw [errors_advance] at hle' hend
    have hv : Clean s v (Closed s.tokens → TypeEnd s.tokens v) := by
      refine ⟨by omega, fun heq hs => ?_⟩
      have h₁ := hspan (by omega) hs
      have h₂ := h₁.trans (span_peek h₁.closed hlt (by decide) rfl)
      exact .of_span h₂ (hend (by omega) h₂.closed)
    refine Clean.arraySuffix ?_ h
    rw [Clean, errors_advance]
    unfold ParseState.unshift at hgt ⊢
    split
    · rename_i hshift
      rw [errors_splitShift]
      exact ⟨hv.1, fun heq hs => (hv.2 heq hs).splitShift hshift⟩
    · rename_i hshift
      rw [if_neg hshift] at hgt
      refine ⟨hv.1, fun heq hs => .inl ?_⟩
      rcases hv.2 heq hs with h₁ | h₁
      · exact h₁.trans (span_peek h₁.closed hgt (by decide) rfl)
      · exact h₁.past

omit hr in
theorem yields_typeExpr_ident {s t : ParseState} {ty : TypeExpr} (h : (typeExpr r).Yields s ty t) :
    s.current.kind = .ident := (yields_typeExpr.mp h).1

theorem readsType_typeAfterColon : ReadsType (typeAfterColon r) ahead := by
  intro s ty t h
  rw [typeAfterColon, yields_peekIs_bind] at h
  by_cases hcolon : s.peek.kind = .colon
  · simp only [hcolon, beq_self_eq_true, if_true] at h
    rw [yields_advance_bind, yields_advance_bind] at h
    obtain ⟨ty, u, hty, h⟩ := yields_bind.mp h
    obtain ⟨-, rfl⟩ := yields_pure.mp h
    obtain ⟨hle, hend⟩ := hr.type _ _ _ hty
    simp only [errors_advance] at hle hend
    refine ⟨hle, fun heq hs => ?_⟩
    have h₁ := span_peek (n := 0) hs hcolon (by decide) rfl
    have h₂ := h₁.trans (span_advance h₁.closed)
    exact .of_span h₂ (hend heq h₂.closed)
  · simp only [beq_eq_false_iff_ne.mpr hcolon, Bool.false_eq_true, if_false, yields_pure] at h
    obtain ⟨-, rfl⟩ := h
    exact ⟨Nat.le_refl _, fun _ hs => .inl (.refl hs)⟩

omit hr in
theorem reads_literal {k : Token.Kind} (tok : Token) (hk : ∀ s, P s → s.current.kind = k)
    (hplain : k.Plain) (hshift : k.shift 0 = some 0) : ReadsForm P (literal tok) := by
  refine .past k hk ?_ hplain hshift
  unfold literal
  split <;> first | exact .pure rfl rfl | exact .fail

theorem reads_unary {k : Token.Kind} (c : Context) (op : UnaryOp)
    (hk : ∀ s, P s → s.current.kind = k) (hplain : k.Plain) (hshift : k.shift 0 = some 0) :
    ReadsForm P (unary r c op) := by
  refine .past k hk ?_ hplain hshift
  exact .current fun _ => .advance (.bind (hr.expr _ _) fun _ => .pure rfl rfl)

theorem reads_patternArgs (c : Context) :
    Reads P (patternArgs r c) ParseState.tokens 1 (fun _ => ahead) fun _ => 0 := by
  refine .skipNewlines (.iterate (.of_reads fun args => ?_) _ _)
  refine .currentIs ?_ ?_
  · exact .past .rightParen (fun _ h => h.2) (.pure rfl rfl) (by decide) rfl
  · refine .bind ((hr.pattern c).add 1) fun _ => .advance (.skipNewlines (.currentIs ?_ ?_))
    · exact .past .comma (fun _ h => h.2) (.advance (.skipNewlines (.pure rfl rfl))) (by decide) rfl
    · exact .currentIs (.pure rfl rfl) (.current fun _ => .fail)

omit hr in
theorem reads_ctorPattern (hr : Sound r) (c : Context) :
    ReadsForm (fun s => s.current.kind = .ident) (ctorPattern r c) := by
  refine .past .ident (fun _ h => h) (.current fun _ => ?_) (by decide) rfl
  refine .bind (reads_dottedPath _ _) fun _ => .peekIs ?_ (.pure rfl rfl)
  exact .advanceOver .leftParen (fun _ h => h.2)
    (.advance (.bind (reads_patternArgs hr c) fun _ => .pure rfl rfl)) (by decide) rfl

theorem reads_pattern (c : Context) : ReadsForm P (pattern r c) := by
  refine .current fun tok => ?_
  have hcur {k : Token.Kind} (hk : tok.kind = k) :
      ∀ s : ParseState, P s ∧ s.current = tok → s.current.kind = k := by
    rintro s ⟨-, rfl⟩
    exact hk
  split
  case h_7 hk =>
    refine .peekIs (.peekIs ?_ ?_) (.peekIs ?_ ?_)
    all_goals
      refine .ite (fun _ => .bind ?_ fun _ => .pure rfl rfl) fun _ => .fail
      exact reads_unary hr c .neg (fun s hs => hcur hk s hs.1.1) (by decide) rfl
  case h_8 hk =>
    refine .ite (fun _ => .past .ident (hcur hk) (.pure rfl rfl) (by decide) rfl) fun _ => ?_
    refine .ite (fun _ => (reads_ctorPattern hr c).mono (hcur hk)) fun _ => ?_
    exact .past .ident (hcur hk) (.pure rfl rfl) (by decide) rfl
  case h_9 => exact .fail
  all_goals
    rename_i hk
    exact .bind (reads_literal tok (hcur hk) (by decide) rfl) fun _ => .pure rfl rfl

theorem reads_exprList_inside (c : Context) (close : Token.Kind) :
    Reads P (exprList r c close) ahead 0 (fun _ => ParseState.tokens) fun _ => 0 := by
  refine .skipPeekNewlines (.peekIs ?_ (.advance (.iterate_bind ahead 0 (.of_reads fun found => ?_) ?_)))
  · exact .advance (.pure rfl rfl)
  · refine .skipNewlines (.bind (hr.expr 1 c.inside) fun _ => ?_)
    refine .skipPeekNewlines (.peekIs ?_ (.pure rfl rfl))
    refine .advanceOver .comma (fun _ h => h.2) ?_ (by decide) rfl
    exact .skipPeekNewlines (.peekIs (.pure rfl rfl) (.advance (.pure rfl rfl)))
  · exact fun found => .expectPeekOn (.pure rfl rfl)

omit hr in
theorem current_of_exprList {c : Context} {close : Token.Kind} {s t : ParseState}
    {es : List (Expr .parsed)} (h : (exprList r c close).Yields s es t) : t.current.kind = close := by
  rw [exprList, yields_skipPeekNewlines_bind, yields_peekIs_bind, yields_ite] at h
  split at h
  · rename_i hpeek
    rw [yields_advance_bind] at h
    obtain ⟨-, rfl⟩ := yields_pure.mp h
    simpa using hpeek
  · rw [yields_advance_bind] at h
    obtain ⟨found, u, -, h⟩ := yields_bind.mp h
    obtain ⟨hpeek, h⟩ := yields_expectPeek_bind.mp h
    obtain ⟨-, rfl⟩ := yields_pure.mp h
    simpa using hpeek

theorem reads_exprList (c : Context) {close : Token.Kind} (hplain : close.Plain)
    (hshift : close.shift 1 = some 0) :
    Reads P (exprList r c close) ahead 1 (fun _ => ahead) fun _ => 0 :=
  .over_closing (reads_exprList_inside hr c close) (fun _ _ _ h => current_of_exprList h) hplain hshift

theorem reads_fieldInits (c : Context) (path : List String) :
    Reads P (fieldInits r c path) ParseState.tokens 1 (fun _ => ahead) fun _ => 0 := by
  refine .iterate (.of_reads fun fields => .skipWhile (.current fun tok => ?_) (by decide)) _ _
  refine .ite (fun h => ?_) fun _ => .ite (fun _ => .fail) fun h => .ite (fun _ => .fail) fun _ => ?_
  · exact .past .rightBrace (fun s hs => hs.2 ▸ beq_iff_eq.mp h) (.pure rfl rfl) (by decide) rfl
  · refine .past .ident (fun s hs => hs.2 ▸ by simpa using h) ?_ (by decide) rfl
    refine .expectPeek (.advance (.bind ((hr.expr 2 c.inside).add 1) fun _ => ?_)) (by decide) rfl
    exact .advance (.pure rfl rfl)

theorem reads_operatorForm (c : Context) (left : Expr .parsed) :
    ReadsForm P (operatorForm r c left) := by
  refine .current fun tok => ?_
  have hcur {k : Token.Kind} (hk : tok.kind = k) :
      ∀ s : ParseState, P s ∧ s.current = tok → s.current.kind = k := by
    rintro s ⟨-, rfl⟩
    exact hk
  split
  case h_1 hk =>
    refine .ite (fun _ => .past .assign (hcur hk) ?_ (by decide) rfl) fun _ => .fail
    exact .advance (.skipNewlines (.bind (hr.expr 1 c) fun _ => .pure rfl rfl))
  case h_2 hk =>
    exact .past .dotDot (hcur hk) (.advance (.bind (hr.expr 10 c) fun _ => .pure rfl rfl)) (by decide) rfl
  case h_3 hk =>
    refine .past .leftParen (hcur hk) ?_ (by decide) rfl
    exact .bind (reads_exprList hr c (by decide) rfl) fun _ => .pure rfl rfl
  case h_4 hk =>
    refine .past .leftBracket (hcur hk) (.advance ?_) (by decide) rfl
    refine .bind ((hr.expr 1 c.inside).add 1) fun _ => ?_
    exact .expectPeek (.pure rfl rfl) (by decide) rfl
  case h_5 hk =>
    refine .past .dot (hcur hk) ?_ (by decide) rfl
    exact .expectPeek (.currentName fun _ => .pure rfl rfl) (by decide) rfl
  case h_6 hk =>
    refine .past .leftBrace (hcur hk) (.advance ?_) (by decide) rfl
    exact .bind (reads_fieldInits hr c _) fun _ => .pure rfl rfl
  case h_7 =>
    split
    · rename_i op hop
      obtain ⟨hplain, hshift⟩ : tok.kind.Plain ∧ tok.kind.shift 0 = some 0 := by
        revert hop
        cases tok.kind <;> simp [binaryOp?, Token.Kind.shift, Token.Kind.Plain]
      refine .past tok.kind (hcur rfl) (.advance (.skipNewlines ?_)) hplain hshift
      exact .bind (hr.expr _ c) fun _ => .pure rfl rfl
    · exact .failure

theorem reads_operatorRound (level : Nat) (c : Context) (left : Expr .parsed) :
    Reads P (operatorRound r level c left) ahead 0 (Sum.elim (fun _ => ahead) fun _ => ahead)
      (Sum.elim (fun _ => 0) fun _ => 0) := by
  refine .peek fun next => .ite (fun _ => ?_) fun _ => .pure rfl rfl
  exact .advance (.bind (reads_operatorForm hr c left) fun _ => .pure rfl rfl)

theorem reads_operatorForms (level : Nat) (c : Context) (left : Expr .parsed) :
    Reads P (operatorForms r level c left) ahead 0 (fun _ => ahead) fun _ => 0 :=
  .iterate (.of_reads fun left => reads_operatorRound hr level c left) _ _

omit hr in
theorem yields_of_segment {s t : ParseState} {e : Expr .parsed} {e? : Option (Expr .parsed)}
    {errors : List Diagnostic}
    (h : (set { s with errors := errors ++ s.errors } >>= fun _ => match e? with
      | some e => if errors.isEmpty then pure e else failure
      | none => failure : Parse (Expr .parsed)).Yields s e t) : t = s ∧ e? = some e ∧ errors = [] := by
  rw [yields_set_bind] at h
  cases e? with
  | none => exact absurd h not_yields_failure
  | some e' =>
    cases errors with
    | nil =>
      obtain ⟨rfl, rfl⟩ := yields_pure.mp h
      exact ⟨rfl, rfl, rfl⟩
    | cons d ds => exact absurd h not_yields_failure

omit hr in
theorem yields_interpolation {file code : String} {line col : Int} {s t : ParseState}
    {e : Expr .parsed} (h : (interpolation r file code line col).Yields s e t) : t = s ∧
      (Token.scanAt code line (col - 1) file).2 = [] ∧ ∃ u : ParseState,
        (r.expr 1 {}).Yields ⟨(Token.scanAt code line (col - 1) file).1, []⟩ e u ∧ u.errors = [] ∧
          u.peek.kind = .eof := by
  rw [interpolation, yields_get_bind] at h
  by_cases hscan : (Token.scanAt code line (col - 1) file).2 = []
  · simp only [hscan, List.isEmpty_nil, Bool.not_true, Bool.false_eq_true, if_false] at h
    rcases hrun : (r.expr 1 {}).run ⟨(Token.scanAt code line (col - 1) file).1, []⟩ with ⟨e?, u⟩
    rw [hrun] at h
    obtain ⟨rfl, rfl, hquiet⟩ := yields_of_segment h
    refine ⟨rfl, hscan, u, hrun, ?_⟩
    split at hquiet
    · cases hquiet
    · rename_i hend
      exact ⟨hquiet, by simpa [hquiet] using hend⟩
  · have hsome : (!(Token.scanAt code line (col - 1) file).2.isEmpty) = true := by simpa using hscan
    simp only [hsome, if_true, yields_set_bind, not_yields_failure] at h

theorem legible_of_interpolation {file code : String} {line col : Int} {s t : ParseState}
    {e : Expr .parsed} (h : (interpolation r file code line col).Yields s e t) :
    (Token.scanAt code line (col - 1) file).2 = [] ∧
      ∀ u ∈ (Token.scanAt code line (col - 1) file).1, u.Legible := by
  obtain ⟨-, hscan, v, hv, hquiet, hend⟩ := yields_interpolation h
  refine ⟨hscan, ?_⟩
  have hended := Lexer.scanAt_ended hscan
  have hspan := (hr.expr (P := fun _ => True) 1 {} _ e v trivial hv).2 (by rw [hquiet])
  obtain ⟨hclosed, seg, htokens, -, hlegible⟩ := hspan (.of_ended hended)
  have hahead := ahead_eq_cons hclosed
  simp only at htokens
  rw [htokens, hahead] at hended ⊢
  rw [(hended.init_eq hend).1]
  refine List.forall_mem_append.mpr ⟨hlegible, ?_⟩
  simpa using Token.Legible.of_kind (t := v.peek) (by rw [hend]; decide)

omit hr in
theorem yields_interpolationParts {tok : Token} {parts : List Token.Part} {s t : ParseState}
    {es : List (Expr .parsed)} (h : (interpolationParts r tok parts).Yields s es t) : t = s := by
  induction parts generalizing es with
  | nil => exact (yields_pure.mp h).2.symm
  | cons part parts ih =>
    cases part with
    | text v =>
      obtain ⟨es, u, hes, hu⟩ := yields_bind.mp h
      obtain ⟨-, rfl⟩ := yields_pure.mp hu
      exact ih hes
    | source code line col =>
      obtain ⟨e, u, he, hu⟩ := yields_bind.mp h
      obtain ⟨rfl, -⟩ := yields_interpolation he
      obtain ⟨es, v, hes, hv⟩ := yields_bind.mp hu
      obtain ⟨-, rfl⟩ := yields_pure.mp hv
      exact ih hes

theorem legible_of_interpolationParts {tok : Token} {parts : List Token.Part} {s t : ParseState}
    {es : List (Expr .parsed)} (h : (interpolationParts r tok parts).Yields s es t) {code : String}
    {line col : Int} (hmem : .source code line col ∈ parts) :
    (Token.scanAt code line (col - 1) tok.file).2 = [] ∧
      ∀ u ∈ (Token.scanAt code line (col - 1) tok.file).1, u.Legible := by
  induction parts generalizing s t es with
  | nil => exact absurd hmem List.not_mem_nil
  | cons part parts ih =>
    cases part with
    | text v =>
      obtain ⟨es, u, hes, -⟩ := yields_bind.mp h
      exact ih hes (by simpa using hmem)
    | source code' line' col' =>
      obtain ⟨e, u, he, hu⟩ := yields_bind.mp h
      obtain ⟨es, v, hes, -⟩ := yields_bind.mp hu
      rcases List.mem_cons.mp hmem with heq | hmem
      · cases heq
        exact legible_of_interpolation hr he
      · exact ih hes hmem

theorem reads_matchArms (c : Context) :
    Reads P (matchArms r c) ParseState.tokens 1 (fun _ => ahead) fun _ => 0 := by
  refine .iterate (.of_reads fun arms => .skipWhile (.current fun tok => ?_) (by decide)) _ _
  refine .ite (fun h => ?_) fun _ => .bind ((hr.pattern c.inside).add 1) fun _ => ?_
  · exact .past .rightBrace (fun s hs => hs.2 ▸ beq_iff_eq.mp h) (.pure rfl rfl) (by decide) rfl
  · refine .expectPeek (.advance (.skipNewlines ?_)) (by decide) rfl
    exact .bind ((hr.expr 1 c.inside).add 1) fun _ => .advance (.pure rfl rfl)

theorem reads_matchForm (c : Context) :
    Reads P (matchForm r c) ahead 0 (fun _ => ahead) fun _ => 0 := by
  refine .current fun tok => .advance (.bind (hr.expr 1 c.head) fun _ => ?_)
  refine .expectPeek (.advance (.bind (reads_matchArms hr c) fun _ => ?_)) (by decide) rfl
  exact .ite (fun _ => .fail) fun _ => .pure rfl rfl

theorem reads_condForm (c : Context) :
    Reads P (condForm r c) ahead 0 (fun _ => ahead) fun _ => 0 := by
  refine .current fun tok => .advance (.bind (hr.expr 1 c.head) fun _ => ?_)
  refine .expectPeek (.bind (hr.block c) fun _ => .get fun _ => ?_) (by decide) rfl
  refine .ite (fun _ => .pure rfl rfl) fun helse => ?_
  refine .skipPeekNewlines_advanceOver .kwElse (fun s hs => ?_) (.peekIs ?_ ?_) (by decide) rfl
  · simpa [hs.2] using helse
  · exact .advanceOver .kwIf (fun _ h => h.2) (.bind (hr.cond c) fun _ => .pure rfl rfl) (by decide) rfl
  · exact .expectPeek (.bind (hr.block c) fun _ => .pure rfl rfl) (by decide) rfl

theorem reads_startForm (c : Context) : ReadsForm P (startForm r c) := by
  refine .current fun tok => ?_
  have hcur {k : Token.Kind} (hk : tok.kind = k) :
      ∀ s : ParseState, P s ∧ s.current = tok → s.current.kind = k := by
    rintro s ⟨-, rfl⟩
    exact hk
  split
  case h_1 hk => exact .past .ident (hcur hk) (.pure rfl rfl) (by decide) rfl
  case h_8 hk =>
    intro s e t hs h
    obtain ⟨es, u, hes, hu⟩ := yields_bind.mp h
    obtain rfl := yields_interpolationParts hes
    obtain ⟨-, rfl⟩ := yields_pure.mp hu
    have hsegment {code : String} {line col : Int} (h : tok.Segment code line col) :
        (Token.scanAt code line (col - 1) tok.file).2 = [] ∧
          ∀ u ∈ (Token.scanAt code line (col - 1) tok.file).1, u.Legible := by
      obtain ⟨-, ps, hps, hmem⟩ := h
      rw [hps] at hes
      exact legible_of_interpolationParts hr hes hmem
    have hlegible : tok.Legible := ⟨fun _ _ _ h => (hsegment h).1, fun _ _ _ h => (hsegment h).2⟩
    refine ⟨Nat.le_refl _, fun _ hc => ?_⟩
    have hcons := tokens_eq_cons hc
    rw [hcons] at hc ⊢
    exact .cons_of_legible hc (by rw [hcur hk _ hs]; decide) (hs.2 ▸ hlegible)
      (by rw [hcur hk _ hs]; rfl)
  case h_9 hk => exact reads_unary hr c .neg (hcur hk) (by decide) rfl
  case h_10 hk => exact reads_unary hr c .not (hcur hk) (by decide) rfl
  case h_11 hk =>
    refine .past .leftParen (hcur hk) (.advance (.skipNewlines ?_)) (by decide) rfl
    refine .bind ((hr.expr 1 c.inside).add 1) fun _ => ?_
    exact .skipPeekNewlines (.expectPeek (.pure rfl rfl) (by decide) rfl)
  case h_12 hk =>
    refine .past .leftBracket (hcur hk) ?_ (by decide) rfl
    exact .bind (reads_exprList hr c (by decide) rfl) fun _ => .pure rfl rfl
  case h_13 hk =>
    exact .past .leftBrace (hcur hk) (.bind (hr.block c) fun _ => .pure rfl rfl) (by decide) rfl
  case h_14 hk => exact .past .kwIf (hcur hk) (hr.cond c) (by decide) rfl
  case h_15 hk => exact .past .kwMatch (hcur hk) (reads_matchForm hr c) (by decide) rfl
  case h_16 hk =>
    refine .past .kwTry (hcur hk) (.advance ?_) (by decide) rfl
    exact .bind (hr.expr 14 c) fun _ => .pure rfl rfl
  case h_17 => exact .fail
  all_goals
    rename_i hk
    exact reads_literal tok (hcur hk) (by decide) rfl

theorem reads_expr (level : Nat) (c : Context) : ReadsForm P (expr r level c) := by
  refine .ite (fun _ => .current fun _ => .fail) fun _ => ?_
  exact .bind (reads_startForm hr _) fun e => reads_operatorForms hr level _ e

end Scripting.Parser
