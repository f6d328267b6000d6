import Scripting.Proofs.Syntax.Settles
import Scripting.Proofs.Syntax.Rules

/-!
# The rules nest and repeat deep enough

Rules that may nest and repeat a little more than there is to read do the same as rules that may do so more
often, and fail only with a report (`enough_rules`). Every rule reads at least one token, and a block or a
conditional one more in front of what it nests; that is where the two bounds come from.
-/

namespace Scripting.Parser

open Parse ParseState

variable {α β : Type} {P : ParseState → Prop} {a b : Nat}

/-- Two families of rules do the same as long as less than `a` is to be read, and less than `b` behind the
first token of a block or a conditional. -/
structure Enough (r q : Rules) (a b : Nat) : Prop where
  le : b ≤ a
  rounds : a ≤ r.rounds
  rounds' : a ≤ q.rounds
  expr : ∀ {P} level c, 1 ≤ level → SettlesForm P a (r.expr level c) (q.expr level c)
  pattern : ∀ {P} c, SettlesForm P a (r.pattern c) (q.pattern c)
  type : ∀ {P}, SettlesForm P a r.type q.type
  block : ∀ {P} c, SettlesRest P b (r.block c) (q.block c)
  cond : ∀ {P} c, SettlesRest P b (r.cond c) (q.cond c)

theorem Enough.enough {r q : Rules} (hr : Enough r q a b) : b ≤ r.rounds := Nat.le_trans hr.le hr.rounds

theorem Enough.enough' {r q : Rules} (hr : Enough r q a b) : b ≤ q.rounds := Nat.le_trans hr.le hr.rounds'

theorem Enough.lower {r q : Rules} {e : Nat} (hr : Enough r q a b) (he : e ≤ b) : Enough r q a e :=
  ⟨Nat.le_trans he hr.le, hr.rounds, hr.rounds', hr.expr, hr.pattern, hr.type, fun c => (hr.block c).le he,
    fun c => (hr.cond c).le he⟩

theorem settles_dottedPath {m n : Nat} (hm : a ≤ m) (hn : a ≤ n) (path : List String) :
    SettlesRest P a (dottedPath m path) (dottedPath n path) := by
  induction a generalizing m n path P with
  | zero => exact fun s _ _ hload => absurd hload (Nat.not_lt_zero _)
  | succ a ih =>
    obtain ⟨m, rfl⟩ := Nat.exists_eq_add_of_lt (Nat.lt_of_succ_le hm)
    obtain ⟨n, rfl⟩ := Nat.exists_eq_add_of_lt (Nat.lt_of_succ_le hn)
    refine .peekIs (.advancePast (fun s hs => by rw [hs.2]; decide) ?_) .pure
    exact .expectPeek (.current fun _ => ih (by omega) (by omega) _)

theorem settles_arraySuffix {m n : Nat} (hm : a ≤ m) (hn : a ≤ n) (tok : Token) (ty : TypeExpr) :
    SettlesRest P a (arraySuffix tok m ty) (arraySuffix tok n ty) := by
  induction a generalizing m n ty P with
  | zero => exact fun s _ _ hload => absurd hload (Nat.not_lt_zero _)
  | succ a ih =>
    obtain ⟨m, rfl⟩ := Nat.exists_eq_add_of_lt (Nat.lt_of_succ_le hm)
    obtain ⟨n, rfl⟩ := Nat.exists_eq_add_of_lt (Nat.lt_of_succ_le hn)
    refine .get fun s => ?_
    split
    · rename_i t u v us htokens
      refine .ite (fun h => ?_) fun _ => .pure
      have hbracket : u.kind = .leftBracket := by simp_all
      refine .advancePast (fun s' hs => ?_) (.advanceOver (ih (by omega) (by omega) _))
      rw [hs.2, show s.peek = u by simp [ParseState.peek, htokens], hbracket]
      decide
    · exact .pure

section Rules

variable {r q : Rules} (hr : Enough r q a b)

include hr

theorem settles_typeArgs : SettlesRest P b (typeArgs r) (typeArgs q) := by
  refine .iterate (fun args => .advance (.bind_counted (hr.type.le hr.le) fun ty => ?_))
    hr.enough hr.enough' _
  exact .peekIs (.advanceOver (.pure_of fun _ => Nat.le_refl _)) (.pure_of fun _ => Nat.le_refl _)

theorem settles_typeExpr : SettlesForm P (b + 1) (typeExpr r) (typeExpr q) := by
  refine .current fun tok => .ite (fun _ => .fail) fun hk => .past ?_ ?_
  · rintro s ⟨-, rfl⟩
    simp_all
  · refine .bind (settles_dottedPath hr.enough hr.enough' _) fun path => ?_
    have hend {Q : ParseState → Prop} (args : List TypeExpr) : SettlesRest Q b
        (arraySuffix tok r.rounds (.named tok path args)) (arraySuffix tok q.rounds (.named tok path args)) :=
      settles_arraySuffix hr.enough hr.enough' _ _
    simp only [pure_bind]
    refine .peekIs (.advanceOver (.bind (settles_typeArgs hr) fun args => .peekIs ?_ ?_)) (hend _)
    · exact .splitShift (fun s hs => hs.2) (.expectPeek (hend args))
    · exact .expectPeek (hend args)

theorem settles_typeAfterColon : SettlesRest P b (typeAfterColon r) (typeAfterColon q) := by
  refine .peekIs (.advanceOver (.advance (.bind (hr.type.le hr.le) fun _ => .pure_of ?_))) .pure
  exact fun _ => Nat.le_refl _

omit hr in
theorem current_ne_eof {tok : Token} {k : Token.Kind} (hk : tok.kind = k) (hne : k ≠ .eof) :
    ∀ s : ParseState, P s ∧ s.current = tok → s.current.kind ≠ .eof := by
  rintro s ⟨-, rfl⟩
  rwa [hk]

omit hr in
theorem settles_literal (tok : Token) : SettlesRest P b (literal tok) (literal tok) := by
  unfold literal
  split <;> first | exact .pure | exact .fail

theorem settles_unary (c : Context) (op : UnaryOp) : SettlesRest P b (unary r c op) (unary q c op) :=
  .current fun _ => .advance (.bind ((hr.expr 14 c (by decide)).le hr.le) fun _ => .pure)

theorem settles_patternArgs (c : Context) :
    Settles P b (patternArgs r c) (patternArgs q c) ParseState.tokens (fun _ => ahead) fun _ => 0 := by
  refine .skipNewlines (.iterate (fun args => ?_) hr.enough hr.enough' _)
  refine .currentIs (.pure_of load_ahead_le) (.bind_counted ((hr.pattern c).le hr.le) fun _ => ?_)
  refine .advance (.skipNewlines (.currentIs ?_ (.currentIs (.pure_of fun _ => Nat.le_refl _)
    (.current fun _ => .fail))))
  exact .tokens_of_ahead (.advance (.skipNewlines (.pure_of fun _ => Nat.le_refl _)))

theorem settles_ctorPattern (c : Context) : SettlesRest P b (ctorPattern r c) (ctorPattern q c) := by
  refine .current fun _ => .bind (settles_dottedPath hr.enough hr.enough' _) fun _ => .peekIs ?_ .pure
  exact .advanceOver (.advance (.bind (settles_patternArgs hr c) fun _ => .pure))

theorem settles_pattern (c : Context) : SettlesForm P (b + 1) (pattern r c) (pattern q c) := by
  refine .current fun tok => ?_
  split
  case h_7 hk =>
    refine .past (current_ne_eof hk (by decide)) (.peekIs (.peekIs ?_ ?_) (.peekIs ?_ ?_))
    all_goals exact .ite (fun _ => .bind (settles_unary hr c .neg) fun _ => .pure) fun _ => .fail
  case h_8 hk =>
    refine .past (current_ne_eof hk (by decide)) (.ite (fun _ => .pure) fun _ => ?_)
    refine .ite (fun _ => ?_) fun _ => .pure
    exact settles_ctorPattern hr c
  case h_9 => exact .fail
  all_goals
    rename_i hk
    exact .past (current_ne_eof hk (by decide)) (.bind (settles_literal tok) fun _ => .pure)

/-- What is done with a segment that was read in a state, and the errors in it. -/
def segmentEnd (s : ParseState) (e? : Option (Expr .parsed)) (errors : List Diagnostic) :
    Parse (Expr .parsed) := do
  set { s with errors := errors ++ s.errors }
  match e? with
  | some e => if errors.isEmpty then return e else failure
  | none => failure

theorem settles_exprList (c : Context) (close : Token.Kind) :
    SettlesRest P b (exprList r c close) (exprList q c close) := by
  refine .skipPeekNewlines (.peekIs (.advanceOver .pure) (.advance ?_))
  refine .iterate_bind ahead hr.enough hr.enough' (fun found => ?_) fun found => .expectPeek .pure
  refine .skipNewlines (.bind_counted ((hr.expr 1 c.inside (by decide)).le hr.le) fun _ => ?_)
  refine .skipPeekNewlines (.peekIs (.advanceOver (.skipPeekNewlines (.peekIs
    (.pure_of fun _ => Nat.le_refl _) ?_))) (.pure_of fun _ => Nat.le_refl _))
  exact .advance (.pure_of fun _ => Nat.le_refl _)

theorem settles_fieldInits (c : Context) (path : List String) :
    Settles P b (fieldInits r c path) (fieldInits q c path) ParseState.tokens (fun _ => ahead) fun _ => 0 := by
  refine .iterate (fun fields => .skipWhile (.current fun tok => ?_)) hr.enough hr.enough' _
  refine .ite (fun _ => .pure_of load_ahead_le) fun _ => .ite (fun _ => .fail) fun h => ?_
  refine .ite (fun _ => .fail) fun _ => ?_
  refine .past_of (Nat.le_succ b) (current_ne_eof (k := .ident) (by simpa using h) (by decide)) ?_ elim_le_one
  refine .expectPeek (.advance ?_)
  exact .bind ((hr.expr 2 c.inside (by decide)).le hr.le) fun _ => .advance (.pure_of fun _ => Nat.le_refl _)

theorem settles_operatorForm (c : Context) (left : Expr .parsed) :
    Settles (fun s => 1 < levelOf s.current.kind) b (operatorForm r c left) (operatorForm q c left)
      ParseState.tokens (fun _ => ahead) fun _ => 1 := by
  refine .current fun tok => ?_
  split
  case h_1 hk =>
    refine .ite (fun _ => .past_counted (current_ne_eof hk (by decide)) ?_) fun _ => .fail
    refine .advance (.skipNewlines ?_)
    exact .bind ((hr.expr 1 c (by decide)).le hr.le) fun _ => .pure
  case h_2 hk =>
    refine .past_counted (current_ne_eof hk (by decide)) (.advance ?_)
    exact .bind ((hr.expr 10 c (by decide)).le hr.le) fun _ => .pure
  case h_3 hk =>
    exact .past_counted (current_ne_eof hk (by decide)) (.bind (settles_exprList hr c _) fun _ => .pure)
  case h_4 hk =>
    refine .past_counted (current_ne_eof hk (by decide)) (.advance ?_)
    exact .bind ((hr.expr 1 c.inside (by decide)).le hr.le) fun _ => .expectPeek .pure
  case h_5 hk => exact .past_counted (current_ne_eof hk (by decide)) (.expectPeek (.currentName fun _ => .pure))
  case h_6 hk =>
    refine .past_counted (current_ne_eof hk (by decide)) (.advance ?_)
    exact .bind (settles_fieldInits hr c _) fun _ => .pure
  case h_7 =>
    split
    · rename_i op hop
      obtain ⟨hne, hlevel⟩ : tok.kind ≠ .eof ∧ 2 < levelOf tok.kind := by
        revert hop
        cases tok.kind <;> simp [binaryOp?, levelOf]
      refine .past_counted (fun s hs => by rw [hs.2]; exact hne) (.advance (.skipNewlines ?_))
      exact .bind ((hr.expr _ c (by split <;> omega)).le hr.le) fun _ => .pure
    · -- Other tokens do not continue an expression.
      rename_i hop _ _ _ _ _ _
      intro s hs
      obtain ⟨hlevel, rfl⟩ := hs
      revert hlevel
      cases hk : s.current.kind <;> simp_all [binaryOp?, levelOf]

theorem settles_operatorRound (level : Nat) (hlevel : 1 ≤ level) (c : Context) (left : Expr .parsed) :
    Settles P b (operatorRound r level c left) (operatorRound q level c left) ahead
      (Sum.elim (fun _ => ahead) fun _ => ahead) (Sum.elim (fun _ => 1) fun _ => 0) := by
  refine .peek fun tok => .ite (fun h => ?_) fun _ => .pure_of fun _ => Nat.le_refl _
  refine .advance_of (fun s hs => ?_) (.bind_counted (settles_operatorForm hr c left) fun _ => .pure_of
    fun _ => Nat.le_refl _)
  have hnext : level < levelOf tok.kind := by simp_all
  rw [current_advance, hs.2]
  omega

theorem settles_operatorForms (level : Nat) (hlevel : 1 ≤ level) (c : Context) (left : Expr .parsed) :
    SettlesRest P b (operatorForms r level c left) (operatorForms q level c left) :=
  .iterate (fun left => settles_operatorRound hr level hlevel c left) hr.enough hr.enough' left

omit hr in
theorem agree_segmentEnd {s : ParseState} (hs : Ended s.tokens) {e? : Option (Expr .parsed)}
    {errors : List Diagnostic} (h : e? = none → errors ≠ []) :
    Agree (segmentEnd s e? errors) (segmentEnd s e? errors) s fun _ t => t = s := by
  have hreported (hne : errors ≠ []) : Onward s { s with errors := errors ++ s.errors } ∧
      s.errors.length < (errors ++ s.errors).length := by
    have := List.length_pos_iff.mpr hne
    rw [List.length_append]
    exact ⟨⟨hs, by simp, .inr ⟨rfl, rfl⟩⟩, by omega⟩
  cases e? with
  | none => exact ⟨none, _, rfl, rfl, hreported (h rfl)⟩
  | some e =>
    cases errors with
    | nil => exact ⟨some e, s, rfl, rfl, .refl hs, rfl⟩
    | cons d ds => exact ⟨none, _, rfl, rfl, hreported (List.cons_ne_nil d ds)⟩

theorem settles_interpolation {file code : String} {line col : Int} (hcode : code.length < a)
    {e : Nat} {before : ParseState → List Token} : Settles P e (interpolation r file code line col)
      (interpolation q file code line col) before (fun _ => before) fun _ => 0 := by
  intro s _ hs _
  suffices h : Agree (interpolation r file code line col) (interpolation q file code line col) s
      fun _ t => t = s from
    h.mono fun _ t ht => by rw [ht]; exact Nat.le_refl _
  by_cases hscan : (Token.scanAt code line (col - 1) file).2 = []
  · obtain ⟨e?, u, hr, hq, -, hend⟩ := hr.expr 1 {} (by decide) (P := fun _ => True)
      ⟨(Token.scanAt code line (col - 1) file).1, []⟩ trivial (Lexer.scanAt_ended hscan)
      (Nat.lt_of_le_of_lt (load_scanAt_le hscan) hcode)
    have hstep {r : Rules} (hr : (r.expr 1 {}).run.run ⟨(Token.scanAt code line (col - 1) file).1, []⟩ =
        (e?, u)) : (interpolation r file code line col).run.run s =
          (segmentEnd s e? (if u.errors.isEmpty && u.peek.kind != Token.Kind.eof then
            [.report .unexpected u.peek ("unexpected " ++ describe u.peek ++ " in interpolation")]
            else u.errors)).run.run s := by
      rw [interpolation]
      simp only [hscan, List.isEmpty_nil, Bool.not_true, Bool.false_eq_true, if_false]
      rw [show (r.expr 1 {}).run ⟨(Token.scanAt code line (col - 1) file).1, []⟩ = (e?, u) from hr]
      dsimp only
      split <;> rfl
    refine .of_step (.refl hs) (hstep hr) (hstep hq) (agree_segmentEnd hs ?_)
    rintro rfl
    have hne : u.errors ≠ [] := List.length_pos_iff.mp hend
    simp [hne]
  · have hsome : (!(Token.scanAt code line (col - 1) file).2.isEmpty) = true := by simpa using hscan
    have hstep (r : Rules) : (interpolation r file code line col).run.run s =
        (segmentEnd s none (Token.scanAt code line (col - 1) file).2.reverse).run.run s := by
      rw [interpolation]
      simp only [hsome, if_true]
      rfl
    exact .of_step (.refl hs) (hstep _) (hstep _) (agree_segmentEnd hs fun _ => by simpa using hscan)

theorem settles_interpolationParts {tok : Token} {parts : List Token.Part}
    (hparts : Token.Part.sizes parts < a) {e : Nat} {before : ParseState → List Token} :
    Settles P e (interpolationParts r tok parts) (interpolationParts q tok parts) before (fun _ => before)
      fun _ => 0 := by
  induction parts generalizing P with
  | nil => exact .pure
  | cons part parts ih =>
    rw [Token.Part.sizes_cons] at hparts
    have hrest {P : ParseState → Prop} := ih (P := P) (by omega)
    cases part with
    | text v => exact .bind hrest fun _ => .pure
    | source code line col =>
      have hcode : code.length < a := by simp only [Token.Part.size] at hparts; omega
      exact .bind (settles_interpolation hr hcode) fun _ => .bind hrest fun _ => .pure

theorem settles_matchArms (c : Context) :
    Settles P b (matchArms r c) (matchArms q c) ParseState.tokens (fun _ => ahead) fun _ => 0 := by
  refine .iterate (fun arms => .skipWhile (.current fun tok => .ite
    (fun _ => .pure_of load_ahead_le) fun _ => ?_))
    hr.enough hr.enough' _
  refine .bind_counted ((hr.pattern c.inside).le hr.le) fun _ => .expectPeek (.advance (.skipNewlines ?_))
  exact .bind ((hr.expr 1 c.inside (by decide)).le hr.le) fun _ => .advance (.pure_of fun _ => Nat.le_refl _)

theorem settles_matchForm (c : Context) : SettlesRest P b (matchForm r c) (matchForm q c) := by
  refine .current fun tok => .advance (.bind ((hr.expr 1 c.head (by decide)).le hr.le) fun _ => ?_)
  refine .expectPeek (.advance (.bind (settles_matchArms hr c) fun _ => ?_))
  exact .ite (fun _ => .fail) fun _ => .pure

theorem settles_startForm (c : Context) : SettlesForm P (b + 1) (startForm r c) (startForm q c) := by
  refine .current fun tok => ?_
  split
  case h_1 hk => exact .past (current_ne_eof hk (by decide)) .pure
  case h_8 hk =>
    refine .given fun s hs hended hload => ?_
    have hweight := weight_le_of_current hended
    rw [hs.2] at hweight
    have hle := hr.le
    refine .past (current_ne_eof hk (by decide)) (.bind (settles_interpolationParts hr ?_) fun _ => .pure)
    refine Nat.lt_of_lt_of_le ?_ (show weight tok ≤ a by omega)
    rw [weight, hk]
    cases tok.literal <;> simp
  case h_9 hk => exact .past (current_ne_eof hk (by decide)) (settles_unary hr c .neg)
  case h_10 hk => exact .past (current_ne_eof hk (by decide)) (settles_unary hr c .not)
  case h_11 hk =>
    refine .past (current_ne_eof hk (by decide)) (.advance (.skipNewlines ?_))
    refine .bind ((hr.expr 1 c.inside (by decide)).le hr.le) fun _ => ?_
    exact .skipPeekNewlines (.expectPeek .pure)
  case h_12 hk => exact .past (current_ne_eof hk (by decide)) (.bind (settles_exprList hr c _) fun _ => .pure)
  case h_13 hk => exact .past (current_ne_eof hk (by decide)) (.bind (hr.block c) fun _ => .pure)
  case h_14 hk => exact .past (current_ne_eof hk (by decide)) (hr.cond c)
  case h_15 hk => exact .past (current_ne_eof hk (by decide)) (settles_matchForm hr c)
  case h_16 hk =>
    refine .past (current_ne_eof hk (by decide)) (.advance ?_)
    exact .bind ((hr.expr 14 c (by decide)).le hr.le) fun _ => .pure
  case h_17 => exact .fail
  all_goals
    rename_i hk
    exact .past (current_ne_eof hk (by decide)) (settles_literal tok)

theorem settles_expr (level : Nat) (hlevel : 1 ≤ level) (c : Context) :
    SettlesForm P (b + 1) (expr r level c) (expr q level c) :=
  .ite (fun _ => .current fun _ => .fail) fun _ =>
    .bind_of (Nat.le_refl _) (settles_startForm hr _) (fun e => settles_operatorForms hr level hlevel _ e)
      fun _ => Nat.le_refl 1

end Rules

section Statements

variable {r q : Rules} (hr : Enough r q (b + 1) b)

include hr

theorem settles_condForm (c : Context) : SettlesRest P (b + 1) (condForm r c) (condForm q c) := by
  refine .current fun tok => .advance ?_
  refine .bind_of (Nat.le_refl _) (hr.expr 1 c.head (by decide)) (fun _ => ?_) fun _ => Nat.zero_le 1
  refine .expectPeek (.bind (hr.block c) fun _ => .get fun s => .ite (fun _ => .pure) fun _ => ?_)
  refine .skipPeekNewlines (.advanceOver (.peekIs (.advanceOver ?_) (.expectPeek ?_)))
  · exact .bind (hr.cond c) fun _ => .pure
  · exact .bind (hr.block c) fun _ => .pure

theorem settles_letStmt (c : Context) : SettlesRest P b (letStmt r c) (letStmt q c) := by
  refine .current fun tok => .peekIs (.advanceOver ?_) ?_
  all_goals
    refine .expectPeek (.currentName fun name => .bind (settles_typeAfterColon hr) fun ty => ?_)
    refine .expectPeek (.advance (.skipNewlines ?_))
    exact .bind ((hr.expr 1 c (by decide)).le hr.le) fun _ => .pure

theorem settles_returnStmt (c : Context) : SettlesRest P b (returnStmt r c) (returnStmt q c) := by
  refine .current fun tok => .peek fun next => ?_
  split
  case h_5 => exact .advance (.bind ((hr.expr 1 c (by decide)).le hr.le) fun _ => .pure)
  all_goals exact .pure

theorem settles_whileStmt (c : Context) : SettlesRest P b (whileStmt r c) (whileStmt q c) := by
  refine .current fun tok => .advance (.bind ((hr.expr 1 c.head (by decide)).le hr.le) fun _ => ?_)
  exact .expectPeek (.bind (hr.block c) fun _ => .pure)

theorem settles_forStmt (c : Context) : SettlesRest P b (forStmt r c) (forStmt q c) := by
  refine .current fun tok => .expectPeek (.currentName fun name => .expectPeek (.advance ?_))
  refine .bind ((hr.expr 1 c.head (by decide)).le hr.le) fun _ => ?_
  exact .expectPeek (.bind (hr.block c) fun _ => .pure)

theorem settles_param (inImpl first : Bool) :
    SettlesForm P b (param r inImpl first) (param q inImpl first) := by
  refine .current fun tok => .ite (fun _ => .fail) fun hk => ?_
  refine .past_counted (current_ne_eof (k := .ident) (by simpa using hk) (by decide)) (.peekIs ?_ ?_)
  all_goals
    refine .ite (fun _ => .ite (fun _ => .pure) fun _ => .fail) fun _ => ?_
    exact .bind (settles_typeAfterColon hr) fun _ => .pure

theorem settles_params (inImpl : Bool) :
    Settles P b (params r inImpl) (params q inImpl) ParseState.tokens (fun _ => ahead) fun _ => 0 := by
  refine .skipNewlines (.iterate (fun x => ?_) hr.enough hr.enough' _)
  obtain ⟨first, hasSelf, ps⟩ := x
  have hparam {Q : ParseState → Prop} {next : Option (Param .parsed) →
      Parse ((Bool × Bool × List (Param .parsed)) ⊕ (Bool × List (Param .parsed)))}
      (hnext : ∀ p?, ∃ z, next p? = pure (.inl z)) : Settles Q b
        (param r inImpl first >>= fun p? => Parse.advance >>= fun _ => Parse.skipNewlines >>= fun _ => next p?)
        (param q inImpl first >>= fun p? => Parse.advance >>= fun _ => Parse.skipNewlines >>= fun _ => next p?)
        ParseState.tokens (Sum.elim (fun _ => ParseState.tokens) fun _ => ahead)
        (Sum.elim (fun _ => 1) fun _ => 0) := by
    refine .bind_counted (settles_param hr inImpl first) fun p? => .advance (.skipNewlines ?_)
    obtain ⟨z, hz⟩ := hnext p?
    rw [hz]
    exact .pure_of fun _ => Nat.le_refl _
  refine .current fun tok => .ite (fun _ => .pure_of load_ahead_le) fun _ => .ite (fun _ => ?_) fun _ => ?_
  · refine .ite (fun h => ?_) fun _ => .fail_bind
    refine .tokens_of_ahead (.advance (.skipNewlines (hparam ?_)))
    rintro (_ | p) <;> exact ⟨_, rfl⟩
  · refine hparam ?_
    rintro (_ | p) <;> exact ⟨_, rfl⟩

theorem settles_funDecl (c : Context) (inImpl : Bool) :
    SettlesRest P b (funDecl r c inImpl) (funDecl q c inImpl) := by
  refine .current fun tok => .expectPeek (.currentName fun name => .expectPeek (.advance ?_))
  refine .bind (settles_params hr inImpl) fun x => ?_
  obtain ⟨hasSelf, ps⟩ := x
  have hbody {Q : ParseState → Prop} (result : Option TypeExpr) : SettlesRest Q b
      (do expectPeek .leftBrace; return FunDecl.mk tok name () hasSelf ps result (← r.block c))
      (do expectPeek .leftBrace; return FunDecl.mk tok name () hasSelf ps result (← q.block c)) :=
    .expectPeek (.bind (hr.block c) fun _ => .pure)
  simp only [pure_bind]
  refine .peekIs (.peekIs ?_ ?_) (.peekIs ?_ ?_)
  case' refine_4 => exact hbody none
  all_goals exact .advanceOver (.advance (.bind (hr.type.le hr.le) fun ty => hbody (some ty)))

theorem settles_fieldDecls (close : Token.Kind) (positional : Bool) :
    Settles P b (fieldDecls r close positional) (fieldDecls q close positional) ParseState.tokens
      (fun _ => ahead) fun _ => 0 := by
  refine .iterate (fun fields => .skipWhile (.current fun tok => ?_)) hr.enough hr.enough' _
  refine .ite (fun _ => .pure_of load_ahead_le) fun _ => ?_
  have htype {Q : ParseState → Prop} (name : String) : Settles Q b
      (if fields.any fun f => f.name == name then fail .malformed tok ("duplicate field " ++ name)
        else do let type ← r.type; Parse.advance; return .inl (fields ++ [⟨tok, name, type⟩]))
      (if fields.any fun f => f.name == name then fail .malformed tok ("duplicate field " ++ name)
        else do let type ← q.type; Parse.advance; return .inl (fields ++ [⟨tok, name, type⟩]))
      ParseState.tokens (Sum.elim (fun _ => ParseState.tokens) fun _ : List FieldDecl => ahead)
      (Sum.elim (fun _ => 1) fun _ => 0) :=
    .ite (fun _ => .fail) fun _ => .bind_counted (hr.type.le hr.le) fun _ => .advance
      (.pure_of fun _ => Nat.le_refl _)
  simp only [pure_bind]
  refine .peekIs ?_ ?_
  all_goals
    refine .ite (fun _ => .tokens_of_ahead (.advanceOver (.advance (htype _)))) fun _ => ?_
    exact .ite (fun _ => htype _) fun _ => .fail_bind

theorem settles_typeStmt : SettlesRest P b (typeStmt r) (typeStmt q) := by
  refine .current fun tok => .expectPeek (.currentName fun name => .ite (fun _ => ?_) fun _ => .fail)
  exact .expectPeek (.advance (.bind (settles_fieldDecls hr _ _) fun _ => .pure))

theorem settles_unionStmt : SettlesRest P b (unionStmt r) (unionStmt q) := by
  refine .current fun tok => .expectPeek (.currentName fun name => .expectPeek (.advance ?_))
  refine .iterate_bind ahead hr.enough hr.enough' (fun variants => .skipWhile (.current fun tok => ?_))
    fun _ => .ite (fun _ => .fail) fun _ => .pure
  refine .ite (fun _ => .pure_of load_ahead_le) fun _ => .ite (fun h => ?_) fun _ => .fail
  have hident : tok.kind = .ident := by simp_all
  simp only [pure_bind]
  refine .past_of (Nat.le_succ b) (current_ne_eof hident (by decide)) ?_ elim_le_one
  refine .peekIs (.advanceOver (.advance ?_)) (.advance (.pure_of fun _ => Nat.le_refl _))
  exact .bind (settles_fieldDecls hr _ _) fun _ => .advance (.pure_of fun _ => Nat.le_refl _)

theorem settles_implStmt (c : Context) : SettlesRest P b (implStmt r c) (implStmt q c) := by
  refine .current fun tok => .expectPeek (.currentName fun name => .expectPeek (.advance ?_))
  refine .iterate_bind ahead hr.enough hr.enough' (fun methods => .skipWhile (.current fun tok => ?_))
    fun _ => .pure
  refine .ite (fun _ => .pure_of load_ahead_le) fun _ => .ite (fun h => ?_) fun _ => .fail
  refine .past_of (Nat.le_succ b) (current_ne_eof (k := .kwFun) (beq_iff_eq.mp h) (by decide)) ?_ elim_le_one
  exact .bind (settles_funDecl hr c true) fun _ => .advance (.pure_of fun _ => Nat.le_refl _)

theorem settles_useStmt : SettlesRest P b (useStmt r) (useStmt q) :=
  .current fun _ => .expectPeek (.current fun _ =>
    .bind (settles_dottedPath hr.enough hr.enough' _) fun _ => .pure)

theorem settles_stmt (c : Context) : SettlesForm P (b + 1) (stmt r c) (stmt q c) := by
  refine .skipWhile (.current fun tok => ?_)
  split
  case h_1 hk => exact .past (current_ne_eof hk (by decide)) (settles_letStmt hr c)
  case h_2 hk => exact .past (current_ne_eof hk (by decide)) (.bind (settles_funDecl hr c false) fun _ => .pure)
  case h_3 hk => exact .past (current_ne_eof hk (by decide)) (settles_typeStmt hr)
  case h_4 hk => exact .past (current_ne_eof hk (by decide)) (settles_unionStmt hr)
  case h_5 hk => exact .past (current_ne_eof hk (by decide)) (settles_implStmt hr c)
  case h_6 hk => exact .past (current_ne_eof hk (by decide)) (settles_useStmt hr)
  case h_7 hk => exact .past (current_ne_eof hk (by decide)) (settles_returnStmt hr c)
  case h_8 hk => exact .past (current_ne_eof hk (by decide)) (settles_whileStmt hr c)
  case h_9 hk => exact .past (current_ne_eof hk (by decide)) (settles_forStmt hr c)
  case h_10 hk => exact .past (current_ne_eof hk (by decide)) .pure
  case h_11 hk => exact .past (current_ne_eof hk (by decide)) .pure
  case h_12 hk => exact .past (current_ne_eof hk (by decide)) (.bind (hr.block c) fun _ => .pure)
  case h_13 => exact .bind_of (Nat.le_succ _) (hr.expr 1 c (by decide)) (fun _ => .pure) fun _ => Nat.le_refl 1

theorem exists_cleanStmt (c : Context) {s : ParseState} (hs : Ended s.tokens) (hload : load s.tokens < b + 1) :
    ∃ st? t, (cleanStmt r c).Yields s st? t ∧ (cleanStmt q c).Yields s st? t ∧ Onward s t ∧
      ∀ st, st? = some st → load t.ahead < load s.tokens := by
  obtain ⟨found?, t, hr, hq, honward, hend⟩ := settles_stmt hr c (P := fun _ => True) s trivial hs hload
  have hclean {r : Rules} (hr : (stmt r c).run.run s = (found?, t)) : (cleanStmt r c).run.run s =
      (if t.errors.length > s.errors.length then some none else found?.map some, t) := by
    rw [run_cleanStmt, hr]
  by_cases hgrown : t.errors.length > s.errors.length
  · rw [if_pos hgrown] at hclean
    exact ⟨none, t, hclean hr, hclean hq, honward, fun _ h => by cases h⟩
  · rw [if_neg hgrown] at hclean
    cases found? with
    | none => exact absurd hend hgrown
    | some st => exact ⟨some st, t, hclean hr, hclean hq, honward, fun _ _ => hend⟩

omit hr in
theorem exists_stmtRound_of_clean {c : Context} (close : Token.Kind) (list : List (Stmt .parsed))
    {s u v : ParseState} {st? : Option (Stmt .parsed)}
    (hu : { s with tokens := skipWhile.go [.newline, .semicolon] s.tokens } = u)
    (hk : u.current.kind ∉ [.eof, .newline, .semicolon, close]) (hv : Onward u v)
    (hst : ∀ st, st? = some st → load v.ahead < load u.tokens) :
    ∃ list' t, (∀ r, (cleanStmt r c).Yields u st? v → (stmtRound r c close list).Yields s (.inl list') t) ∧
      Onward v t ∧ load t.tokens < load u.tokens := by
  have hstart : ¬ (u.current.kind == close || u.current.kind == .eof) = true := by simp_all
  have hbroken {w : ParseState} (hw : Ended w.tokens) :
      Onward w { w with tokens := skipStatement close 0 w.tokens } :=
    .of_suffix hw (skipStatement_suffix _ _ _).1 ((skipStatement_suffix _ _ _).2 hw.ne_nil)
  cases st? with
  | none =>
    refine ⟨list, _, fun r hr => ?_, hbroken hv.ended, ?_⟩
    · rw [stmtRound, yields_skipWhile_bind, hu, yields_current_bind, if_neg hstart]
      exact yields_bind.mpr ⟨none, v, hr, yields_skipBroken_bind.mpr (yields_pure.mpr ⟨rfl, rfl⟩)⟩
    · -- Where nothing was read, the token that is current ends no statement and is skipped.
      rcases hv.moves with hlt | ⟨heq, hkind⟩
      · exact Nat.lt_of_le_of_lt (load_le_of_suffix (skipStatement_suffix _ _ _).1) hlt
      · exact heq ▸ skipStatement_lt hv.ended (hkind ▸ hk)
  | some st =>
    have hless : load v.advance.tokens < load u.tokens := load_advance hv.ended ▸ hst st rfl
    have hnext := Onward.advance hv.ended
    by_cases hend : (v.advance.current.kind == .newline || v.advance.current.kind == .semicolon ||
        v.advance.current.kind == close || v.advance.current.kind == .eof ||
        v.current.kind == .rightBrace) = true
    · refine ⟨st :: list, v.advance, fun r hr => ?_, hnext, hless⟩
      rw [stmtRound, yields_skipWhile_bind, hu, yields_current_bind, if_neg hstart]
      refine yields_bind.mpr ⟨some st, v, hr, ?_⟩
      rw [yields_currentIs_bind, yields_advance_bind, yields_current_bind, if_pos hend]
      exact yields_pure.mpr ⟨rfl, rfl⟩
    · -- A missing separator is reported, and the rest of the line is skipped.
      let d := Diagnostic.report .unexpected v.advance.current
        ("expected newline or ';' before " ++ describe v.advance.current)
      let w : ParseState := { v.advance with errors := d :: v.advance.errors }
      have hreport : Onward v.advance w := ⟨hnext.ended, Nat.le_succ _, .inr ⟨rfl, rfl⟩⟩
      refine ⟨st :: list, { w with tokens := skipStatement close 0 w.tokens }, fun r hr => ?_,
        hnext.trans (hreport.trans (hbroken hreport.ended)),
        Nat.lt_of_le_of_lt (load_le_of_suffix (skipStatement_suffix _ _ _).1) hless⟩
      rw [stmtRound, yields_skipWhile_bind, hu, yields_current_bind, if_neg hstart]
      refine yields_bind.mpr ⟨some st, v, hr, ?_⟩
      rw [yields_currentIs_bind, yields_advance_bind, yields_current_bind, if_neg hend, yields_report_bind,
        yields_skipBroken_bind]
      exact yields_pure.mpr ⟨rfl, rfl⟩

theorem exists_stmtRound (c : Context) (close : Token.Kind) (list : List (Stmt .parsed)) {s : ParseState}
    (hs : Ended s.tokens) (hload : load s.tokens < b + 1) :
    ∃ y t, (stmtRound r c close list).Yields s y t ∧ (stmtRound q c close list).Yields s y t ∧ Onward s t ∧
      ∀ list', y = .inl list' → load t.tokens < load s.tokens := by
  generalize hu : { s with tokens := skipWhile.go [.newline, .semicolon] s.tokens } = u
  obtain ⟨hsuffix, hne⟩ := skipWhile_suffix [.newline, .semicolon] s.tokens
  have honward : Onward s u := hu ▸ .of_suffix hs hsuffix (hne hs.ne_nil)
  have hseparator : u.current.kind ∉ [.newline, .semicolon] := hu ▸ current_skipWhile (by decide) hs
  have hle := honward.load_le
  by_cases hk : (u.current.kind == close || u.current.kind == .eof) = true
  · refine ⟨.inr list, u, ?_, ?_, honward, fun _ h => by cases h⟩
    all_goals
      rw [stmtRound, yields_skipWhile_bind, hu, yields_current_bind, if_pos hk]
      exact yields_pure.mpr ⟨rfl, rfl⟩
  · obtain ⟨st?, v, hr, hq, hv, hst⟩ := exists_cleanStmt hr c honward.ended (by omega)
    obtain ⟨list', t, hround, ht, hless⟩ :=
      exists_stmtRound_of_clean close list hu (by simp_all) hv hst
    exact ⟨.inl list', t, hround r hr, hround q hq, honward.trans (hv.trans ht), fun _ _ => by omega⟩

theorem exists_stmtList (c : Context) (close : Token.Kind) {s : ParseState} (hs : Ended s.tokens)
    (hload : load s.tokens < b + 1) : ∃ stmts t, (stmtList r c close).Yields s stmts t ∧
      (stmtList q c close).Yields s stmts t ∧ Onward s t := by
  -- By induction on what there is to read, with any rounds that are enough for it.
  suffices hrounds : ∀ N m n list s, N < m → N < n → Ended s.tokens → load s.tokens < b + 1 →
      load s.tokens ≤ N → ∃ list' t, (iterate (stmtRound r c close) m list).Yields s list' t ∧
        (iterate (stmtRound q c close) n list).Yields s list' t ∧ Onward s t by
    obtain ⟨list, t, hr', hq', honward⟩ := hrounds (load s.tokens) r.rounds q.rounds [] s
      (Nat.lt_of_lt_of_le hload hr.rounds) (Nat.lt_of_lt_of_le hload hr.rounds') hs hload (Nat.le_refl _)
    exact ⟨list.reverse, t, yields_bind.mpr ⟨list, t, hr', yields_pure.mpr ⟨rfl, rfl⟩⟩,
      yields_bind.mpr ⟨list, t, hq', yields_pure.mpr ⟨rfl, rfl⟩⟩, honward⟩
  intro N
  induction N using Nat.strongRecOn with
  | ind N ih =>
    intro m n list s hm hn hs hload hN
    obtain ⟨m, rfl⟩ := Nat.exists_eq_add_of_lt hm
    obtain ⟨n, rfl⟩ := Nat.exists_eq_add_of_lt hn
    obtain ⟨y, t, hr', hq', honward, hless⟩ := exists_stmtRound hr c close list hs hload
    cases y with
    | inl list' =>
      have hless := hless list' rfl
      obtain ⟨list'', u, hr'', hq'', honward'⟩ := ih (load t.tokens) (by omega) (N + m) (N + n) list' t
        (by omega) (by omega) honward.ended (by omega) (Nat.le_refl _)
      exact ⟨list'', u, yields_iterate_succ.mpr (.inr ⟨_, t, hr', hr''⟩),
        yields_iterate_succ.mpr (.inr ⟨_, t, hq', hq''⟩), honward.trans honward'⟩
    | inr list' =>
      exact ⟨list', t, yields_iterate_succ.mpr (.inl hr'), yields_iterate_succ.mpr (.inl hq'), honward⟩

theorem settles_block (c : Context) : SettlesRest P (b + 1) (block r c) (block q c) := by
  have hlist : Settles (fun _ => True) (b + 1) (stmtList r c.inside .rightBrace)
      (stmtList q c.inside .rightBrace) ParseState.tokens (fun _ => ParseState.tokens) fun _ => 0 := by
    intro s _ hs hload
    obtain ⟨stmts, t, hr, hq, honward⟩ := exists_stmtList hr c.inside .rightBrace hs hload
    exact ⟨some stmts, t, hr, hq, honward, honward.load_le⟩
  refine .current fun _ => .advance (.bind hlist fun _ => .current fun _ => ?_)
  exact .ite (fun _ => .pure_of load_ahead_le) fun _ => .fail

end Statements

section Family

variable {m n k l : Nat}

theorem Enough.zero : Enough (rules m k) (rules n l) 0 0 := by
  have hnone {α : Type} {P : ParseState → Prop} {before : ParseState → List Token}
      {after : α → ParseState → List Token} {d : α → Nat} {p q : Parse α} :
      Settles P 0 p q before after d := fun _ _ _ hload => absurd hload (Nat.not_lt_zero _)
  exact ⟨Nat.le_refl 0, Nat.zero_le _, Nat.zero_le _, fun _ _ _ => hnone, fun _ => hnone, hnone, fun _ => hnone,
    fun _ => hnone⟩

theorem Enough.forms (h : Enough (rules m k) (rules n l) b b)
    (h' : Enough (rules m (k + 1)) (rules n (l + 1)) b b) (hm : b < m) (hn : b < n) :
    Enough (rules m (k + 1)) (rules n (l + 1)) (b + 1) b := by
  refine ⟨Nat.le_succ b, ?_, ?_, ?_, ?_, ?_, h'.block, h'.cond⟩
  · rwa [rounds_rules]
  · rwa [rounds_rules]
  · intro P level c hlevel
    rw [rules_expr, rules_expr]
    exact settles_expr h level hlevel c
  · intro P c
    rw [rules_pattern, rules_pattern]
    exact settles_pattern h c
  · intro P
    rw [rules_type, rules_type]
    exact settles_typeExpr h

theorem Enough.blocks (h : Enough (rules m k) (rules n l) (b + 1) b)
    (h' : Enough (rules m (k + 1)) (rules n (l + 1)) (b + 1) b) :
    Enough (rules m (k + 1)) (rules n (l + 1)) (b + 1) (b + 1) := by
  refine ⟨Nat.le_refl _, h'.rounds, h'.rounds', h'.expr, h'.pattern, h'.type, ?_, ?_⟩
  · intro P c
    rw [rules_block, rules_block]
    exact settles_block h c
  · intro P c
    rw [rules_cond, rules_cond]
    exact settles_condForm h c

theorem enough_rules (a : Nat) (hm : a < m) (hn : a < n) :
    (∀ k l, 2 * a ≤ k → 2 * a ≤ l → Enough (rules m k) (rules n l) a a) ∧
      ∀ k l, 2 * a + 1 ≤ k → 2 * a + 1 ≤ l → Enough (rules m k) (rules n l) (a + 1) a := by
  have hforms (a : Nat) (hm : a < m) (hn : a < n)
      (h : ∀ k l, 2 * a ≤ k → 2 * a ≤ l → Enough (rules m k) (rules n l) a a) (k l : Nat) (hk : 2 * a + 1 ≤ k)
      (hl : 2 * a + 1 ≤ l) : Enough (rules m k) (rules n l) (a + 1) a := by
    obtain ⟨k, rfl⟩ := Nat.exists_eq_add_of_lt hk
    obtain ⟨l, rfl⟩ := Nat.exists_eq_add_of_lt hl
    exact .forms (h _ _ (by omega) (by omega)) (h _ _ (by omega) (by omega)) hm hn
  induction a with
  | zero => exact ⟨fun _ _ _ _ => .zero, hforms 0 hm hn fun _ _ _ _ => .zero⟩
  | succ a ih =>
    have hprev := (ih (by omega) (by omega)).2
    have hblocks (k l : Nat) (hk : 2 * (a + 1) ≤ k) (hl : 2 * (a + 1) ≤ l) :
        Enough (rules m k) (rules n l) (a + 1) (a + 1) := by
      obtain ⟨k, rfl⟩ : ∃ k', k = k' + 1 := ⟨k - 1, by omega⟩
      obtain ⟨l, rfl⟩ : ∃ l', l = l' + 1 := ⟨l - 1, by omega⟩
      exact .blocks (hprev _ _ (by omega) (by omega)) (hprev _ _ (by omega) (by omega))
    exact ⟨hblocks, hforms (a + 1) hm hn hblocks⟩

end Family

end Scripting.Parser
