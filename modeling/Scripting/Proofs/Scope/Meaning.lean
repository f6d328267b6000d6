import Scripting.Proofs.Scope.Found

/-!
# Resolved trees mean what their source says

Every tree is `Lexical`: the induction follows the parsed tree, and each construct adds to the chain
what it declares. The variables that were marked on the way are those that functions list.
-/

namespace Scripting.Resolve

/-- What resolving statements does: they may declare names for what follows them. -/
def StandsStmts (ss : List (Stmt .parsed)) (Γ : Chain) (ss' : List (Stmt .resolved)) (Δ : Chain)
    (ds : List (FunDecl .resolved)) : Prop :=
  Lexical.stmts Γ ss ss' Δ ∧ ds ⊆ Decls.stmts ss'

def StandsFunc (d : FunDecl .parsed) (b : Option BindingId) (Γ : Chain) (d' : FunDecl .resolved)
    (Δ : Chain) (ds : List (FunDecl .resolved)) : Prop :=
  Δ = Γ ∧ Lexical.func Γ d d' ∧ d'.info.binding = b ∧ ds ⊆ Decls.func d'

theorem funcParts_finds (hasSelf : Bool) (tok : Token) (ps : List (Param .parsed))
    {ss : List (Stmt .parsed)} (h : Finds (stmts ss) (StandsStmts ss)) :
    Finds (do
      let self ← if hasSelf then some <$> declare "self" tok else pure none
      let ps ← declareParams ps
      return (self, ps, ← stmts ss)) fun Γ a Δ ds => a.1.isSome = hasSelf ∧
        a.2.1.map (·.name) = ps.map (·.name) ∧ StandsStmts ss (Γ.declareAll
          (a.1.toList.map (("self", ·)) ++ a.2.1.map fun q => (q.name.text, q.decl))) a.2.2 Δ ds := by
  have hrest : ∀ self : Option BindingId, Finds (do
      let ps ← declareParams ps
      return (self, ps, ← stmts ss)) fun Γ a Δ ds => a.1 = self ∧
        a.2.1.map (·.name) = ps.map (·.name) ∧ StandsStmts ss
          (Γ.declareAll (a.2.1.map fun q => (q.name.text, q.decl))) a.2.2 Δ ds := by
    intro self
    refine ((declareParams_finds ps).bind fun qs => h.bind fun ss' =>
      Finds.pure (self, qs, ss')).mono ?_
    rintro Γ a Δ ds ⟨qs, _, _, _, ⟨rfl, hnames, rfl⟩, ⟨ss', _, ds₁, _, ⟨hstmts, hds⟩,
      ⟨rfl, rfl, rfl⟩, rfl⟩, rfl⟩
    exact ⟨rfl, hnames, hstmts, by simpa using hds⟩
  cases hasSelf with
  | false =>
    refine (hrest none).mono ?_
    rintro Γ ⟨self, qs, ss'⟩ Δ ds ⟨rfl, hnames, hstmts⟩
    exact ⟨rfl, hnames, hstmts⟩
  | true =>
    refine (((declare_finds "self" tok).bind fun b => Finds.pure (some b)).bind hrest).mono ?_
    rintro Γ ⟨self, qs, ss'⟩ Δ ds ⟨_, _, _, _, ⟨b, _, _, _, ⟨rfl, rfl⟩, ⟨rfl, rfl, rfl⟩, rfl⟩,
      ⟨rfl, hnames, hstmts⟩, rfl⟩
    exact ⟨rfl, hnames, hstmts⟩

theorem func_finds (id : FunId) (b : Option BindingId) {tok btok close : Token} {nm : Name}
    {u v : Unit} {hasSelf : Bool} {ps : List (Param .parsed)} {r : Option TypeExpr}
    {ss : List (Stmt .parsed)} (h : Finds (stmts ss) (StandsStmts ss)) :
    Finds (func id b (.mk tok nm u hasSelf ps r (.mk v btok ss close)))
      (StandsFunc (.mk tok nm u hasSelf ps r (.mk v btok ss close)) b) := by
  intro s
  obtain ⟨hlater, hpost⟩ := withFrame_finds (funcParts_finds hasSelf tok ps h (inner s))
  rw [func]
  let act : Resolve (Option BindingId × List (Param .resolved) × List (Stmt .resolved)) := do
    let self ← if hasSelf then some <$> declare "self" tok else pure none
    let ps ← declareParams ps
    return (self, ps, ← stmts ss)
  let x := (withFrame act).run s
  let d : FunDecl .resolved :=
    .mk tok nm ⟨id, b, x.1.1.1, x.1.2.nextSlot, x.1.2.free.toList, x.1.2.depth⟩ hasSelf x.1.1.2.1 r
      (.mk () btok x.1.1.2.2 close)
  -- What is noted in the table of functions concerns no names.
  let count (f : UserFunction) : UserFunction :=
    { f with localCount := x.1.2.nextSlot, freeCount := x.1.2.free.size }
  have hnoted : x.2.Later { x.2 with program := x.2.program.modifyFun id count } :=
    ⟨Program.modifyFun_grows _ id count fun _ => rfl, growsAll_refl _, fun h => h⟩
  refine ⟨hlater.trans hnoted, fun hk he => ?_⟩
  obtain ⟨ds, Θ, hsteps, hchain, hself, hnames, hstmts, hds⟩ := hpost hk he
  have hsub : d :: ds ++ [] ⊆ Decls.func d := by
    rw [Decls.func, Decls.block, List.append_nil]
    exact List.cons_subset_cons _ hds
  exact ⟨_, (hsteps d rfl).trans hlater hnoted (.of_eq rfl rfl rfl), hchain,
    .mk hself hnames hstmts, rfl, hsub⟩

section

variable {α β γ : Type} {L : Chain → α → Prop} {D : α → List (FunDecl .resolved)}
  {L₁ : Chain → β → Prop} {D₁ : β → List (FunDecl .resolved)} {L₂ : Chain → γ → Prop}
  {D₂ : γ → List (FunDecl .resolved)} {m : Resolve α} {m₁ : Resolve β}

theorem Finds.leaf (a : α) (hL : ∀ Γ, L Γ a) : Finds (Pure.pure a) (Stands L D) := by
  refine (Finds.pure a).mono ?_
  rintro Γ b Δ ds ⟨rfl, rfl, rfl⟩
  exact ⟨rfl, hL _, List.nil_subset _⟩

theorem Finds.map {g : α → γ} (h : Finds m (Stands L D)) (hL : ∀ Γ a, L Γ a → L₂ Γ (g a))
    (hD : ∀ a, D₂ (g a) = D a) : Finds (m >>= fun a => Pure.pure (g a)) (Stands L₂ D₂) := by
  refine (h.bind fun a => Finds.pure (g a)).mono ?_
  rintro Γ c Δ ds ⟨a, _, ds₁, _, ⟨rfl, ha, hds⟩, ⟨rfl, rfl, rfl⟩, rfl⟩
  exact ⟨rfl, hL _ a ha, by simpa [hD] using hds⟩

theorem Finds.map₂ {g : α → β → γ} (h : Finds m (Stands L D)) (h₁ : Finds m₁ (Stands L₁ D₁))
    (hL : ∀ Γ a b, L Γ a → L₁ Γ b → L₂ Γ (g a b)) (hD : ∀ a b, D₂ (g a b) = D a ++ D₁ b) :
    Finds (m >>= fun a => m₁ >>= fun b => Pure.pure (g a b)) (Stands L₂ D₂) := by
  refine (h.bind fun a => h₁.bind fun b => Finds.pure (g a b)).mono ?_
  rintro Γ c Δ ds ⟨a, _, ds₁, _, ⟨rfl, ha, hds⟩, ⟨b, _, ds₂, _, ⟨rfl, hb, hds'⟩, ⟨rfl, rfl, rfl⟩, rfl⟩,
    rfl⟩
  refine ⟨rfl, hL _ a b ha hb, ?_⟩
  rw [hD, List.append_nil]
  exact append_subset hds hds'

end

def StandsStmt (s : Stmt .parsed) (Γ : Chain) (s' : Stmt .resolved) (Δ : Chain)
    (ds : List (FunDecl .resolved)) : Prop :=
  Lexical.stmt Γ s s' Δ ∧ ds ⊆ Decls.stmt s'

theorem Finds.same {s : Stmt .parsed} {m : Resolve (Stmt .resolved)}
    (h : Finds m (Stands (fun Γ s' => Lexical.stmt Γ s s' Γ) Decls.stmt)) : Finds m (StandsStmt s) := by
  refine h.mono ?_
  rintro Γ s' Δ ds ⟨rfl, hs, hds⟩
  exact ⟨hs, hds⟩

theorem memberType_finds {left : Expr .parsed} {field : Name} {t : Token} {u : Unit}
    {m : Resolve (Expr .resolved)}
    (h : Finds m (Stands (fun Γ => Lexical.expr Γ (.member u t left field)) Decls.expr)) :
    Finds (do match ← memberType? left field with
      | some (d, tok) => readType d tok
      | none => m) (Stands (fun Γ => Lexical.expr Γ (.member u t left field)) Decls.expr) := by
  intro s
  show FindsAt s (match left.dotted?.bind fun x =>
      (s.program.type? (".".intercalate (x.2 ++ [field.text]))).map (·, x.1) with
    | some (d, tok) => readType d tok
    | none => m) _
  split
  case h_1 d tok hd =>
    obtain ⟨⟨t, path⟩, hdotted, hpath⟩ := Option.bind_eq_some_iff.mp hd
    obtain ⟨e, he, heq⟩ := Option.map_eq_some_iff.mp hpath
    obtain ⟨rfl, rfl⟩ := Prod.mk.inj heq
    have hread (L : Chain → Expr .resolved → Prop) (hL : ∀ slot, L s.chain (.name () t e.name slot)) :=
      readType_finds e t hL
    refine ⟨(hread (fun _ _ => True) fun _ => trivial).1, fun hk => ?_⟩
    have hname : e.name = ".".intercalate (path ++ [field.text]) := hk.name_of_byName? he
    exact (hread _ fun slot => hname ▸ .qualified hdotted).2 hk
  case h_2 => exact h s

/-- What resolving the target of an assignment does; its value `v` is resolved before. -/
def StandsTarget (target : Expr .parsed) (v : Expr .resolved) (t : Token) (Γ : Chain)
    (a : Expr .resolved) (Δ : Chain) (ds : List (FunDecl .resolved)) : Prop :=
  ∃ e, a = Expr.assign () t e v ∧ Stands (fun Γ => Lexical.expr Γ target) Decls.expr Γ e Δ ds

theorem target_finds {target : Expr .parsed} {m : Resolve (Expr .resolved)}
    (h : Finds m (Stands (fun Γ => Lexical.expr Γ target) Decls.expr)) (isMember : Bool)
    (v : Expr .resolved) (t tok : Token) (msg : String) : Finds (do
      let e ← m
      if isMember && !e.isMember then report .badBinding tok msg
      return .assign () t e v) (StandsTarget target v t) := by
  have htest : ∀ e : Expr .resolved, Finds (do
      if isMember && !e.isMember then report .badBinding tok msg
      return .assign () t e v) fun Γ a Δ ds => a = Expr.assign () t e v ∧ Δ = Γ ∧ ds = [] := by
    intro e s
    cases isMember && !e.isMember with
    | true => exact .ofFailure _
    | false => exact Finds.pure _ s
  refine (h.bind htest).mono ?_
  rintro Γ a Δ ds ⟨e, _, ds₁, _, ⟨rfl, he, hds⟩, ⟨rfl, rfl, rfl⟩, rfl⟩
  exact ⟨e, rfl, rfl, he, by simpa using hds⟩

theorem loopBody_finds {b : Block .parsed} {m : Resolve (Block .resolved)}
    (h : Finds m (Stands (fun Γ => Lexical.block Γ b) Decls.block)) (tok : Token) (nm : Name)
    (series : Expr .resolved) :
    Finds (do
      let (index, limit) ← if series.rangeBounds?.isSome then do
          let index ← declareHidden "$index" tok
          pure (index, ← declareHidden "$end" tok)
        else do
          let array ← declareHidden "$array" tok
          pure (← declareHidden "$index" tok, array)
      let item ← declare nm.text nm.token
      return .each tok nm ⟨limit, index, item⟩ series (← m)) fun Γ t _ ds => ∃ slots b',
        t = Stmt.each tok nm slots series b' ∧ Lexical.block (Γ.declare nm.text slots.item) b b' ∧
          ds ⊆ Decls.block b' := by
  have hrest : ∀ x : BindingId × BindingId, Finds (do
      let item ← declare nm.text nm.token
      return .each tok nm ⟨x.2, x.1, item⟩ series (← m)) fun Γ t _ ds => ∃ slots b',
        t = Stmt.each tok nm slots series b' ∧ Lexical.block (Γ.declare nm.text slots.item) b b' ∧
          ds ⊆ Decls.block b' := by
    intro x
    refine ((declare_finds nm.text nm.token).bind fun item => h.bind fun b' =>
      Finds.pure (Stmt.each tok nm ⟨x.2, x.1, item⟩ series b' : Stmt .resolved)).mono ?_
    rintro Γ a Δ ds ⟨item, _, _, _, ⟨rfl, rfl⟩, ⟨b', _, ds₁, _, ⟨rfl, hb, hds⟩, ⟨rfl, rfl, rfl⟩, rfl⟩,
      rfl⟩
    exact ⟨_, b', rfl, hb, by simpa using hds⟩
  have hslots : ∀ one two : String, ∀ pair : BindingId → BindingId → BindingId × BindingId, Finds (do
      let a ← declareHidden one tok
      let b ← declareHidden two tok
      pure (pair a b)) fun Γ _ Δ ds => Δ = Γ ∧ ds = [] := by
    intro one two pair
    refine ((declareHidden_finds one tok).bind fun a => (declareHidden_finds two tok).bind fun b =>
      Finds.pure (pair a b)).mono ?_
    rintro Γ a Δ ds ⟨_, _, _, _, ⟨rfl, rfl⟩, ⟨_, _, _, _, ⟨rfl, rfl⟩, ⟨rfl, rfl, rfl⟩, rfl⟩, rfl⟩
    exact ⟨rfl, rfl⟩
  split
  · refine ((hslots "$index" "$end" fun a b => (a, b)).bind hrest).mono ?_
    rintro Γ t Δ ds ⟨_, _, _, _, ⟨rfl, rfl⟩, ht, rfl⟩
    exact ht
  · refine ((hslots "$array" "$index" fun a b => (b, a)).bind hrest).mono ?_
    rintro Γ t Δ ds ⟨_, _, _, _, ⟨rfl, rfl⟩, ht, rfl⟩
    exact ht

mutual

theorem expr_finds : (e : Expr .parsed) →
    Finds (expr e) (Stands (fun Γ => Lexical.expr Γ e) Decls.expr)
  | .name u t text v => by
    rw [expr]
    exact readName_finds t text u v
  | .int .. | .float .. | .string .. | .char .. | .bool .. => by
    rw [expr]
    exact .leaf _ fun _ => by constructor
  | .interpolated _ _ es => by
    rw [expr]
    exact (exprs_finds es).map (fun _ _ => .interpolated) fun _ => rfl
  | .array _ _ es => by
    rw [expr]
    exact (exprs_finds es).map (fun _ _ => .array) fun _ => rfl
  | .unary _ _ _ e => by
    rw [expr]
    exact (expr_finds e).map (fun _ _ => .unary) fun _ => rfl
  | .tryUnwrap _ _ e => by
    rw [expr]
    exact (expr_finds e).map (fun _ _ => .tryUnwrap) fun _ => rfl
  | .binary _ _ _ l r => by
    rw [expr]
    exact (expr_finds l).map₂ (expr_finds r) (fun _ _ _ => .binary) fun _ _ => rfl
  | .index _ _ l r => by
    rw [expr]
    exact (expr_finds l).map₂ (expr_finds r) (fun _ _ _ => .index) fun _ _ => rfl
  | .range _ _ l r => by
    rw [expr]
    exact (expr_finds l).map₂ (expr_finds r) (fun _ _ _ => .range) fun _ _ => rfl
  | .assign _ t target value => by
    rw [expr]
    have htarget : ∀ v, Finds (match target.nameView? with
        | some (tok, name) => (do return .assign () t (← assignName tok name) v : Resolve (Expr .resolved))
        | none => do
          let e ← expr target
          if target.isMember && !e.isMember then
            report .badBinding target.token "cannot assign to a type"
          return .assign () t e v) (StandsTarget target v t) := by
      intro v
      cases target with
      | name u tok name w =>
        refine ((assignName_finds tok name u w).bind fun e => Finds.pure (Expr.assign () t e v)).mono ?_
        rintro Γ a Δ ds ⟨e, _, ds₁, _, ⟨rfl, he, hds⟩, ⟨rfl, rfl, rfl⟩, rfl⟩
        exact ⟨e, rfl, rfl, he, by simpa using hds⟩
      | _ => exact target_finds (expr_finds _) _ v t _ _
    refine ((expr_finds value).bind htarget).mono ?_
    rintro Γ a Δ ds ⟨v, _, ds₁, ds₂, ⟨rfl, hv, hds⟩, ⟨e, rfl, rfl, he, hds'⟩, rfl⟩
    refine ⟨rfl, .assign he hv, ?_⟩
    rw [Decls.expr]
    exact List.append_subset.mpr ⟨List.Subset.trans hds (List.subset_append_right _ _),
      List.Subset.trans hds' (List.subset_append_left _ _)⟩
  | .call _ _ _ f es => by
    rw [expr]
    exact (expr_finds f).map₂ (exprs_finds es) (fun _ _ _ => .call) fun _ _ => rfl
  | .member _ _ left field => by
    rw [expr]
    exact memberType_finds ((expr_finds left).map (fun _ _ => .member) fun _ => rfl)
  | .new _ _ _ _ fs => by
    rw [expr]
    exact (inits_finds fs).map (fun _ _ => .new) fun _ => rfl
  | .block b => by
    rw [expr]
    exact (block_finds b).map (fun _ _ => .block) fun _ => rfl
  | .cond _ t test body alt => by
    rw [expr]
    refine ((expr_finds test).bind fun test' => (block_finds body).bind fun body' =>
      (option_finds alt).bind fun alt' => Finds.pure (Expr.cond () t test' body' alt')).mono ?_
    rintro Γ e Δ ds ⟨test', _, _, _, ⟨rfl, htest, hds⟩, ⟨body', _, _, _, ⟨rfl, hbody, hds'⟩,
      ⟨alt', _, _, _, ⟨rfl, halt, hds''⟩, ⟨rfl, rfl, rfl⟩, rfl⟩, rfl⟩, rfl⟩
    refine ⟨rfl, .cond htest hbody halt, ?_⟩
    rw [Decls.expr, List.append_nil]
    exact append_subset hds (append_subset hds' hds'')
  | .cases _ t subject _ as => by
    rw [expr]
    refine ((expr_finds subject).bind fun subject' => (declareHidden_finds "$match" t).bind fun b =>
      (arms_finds as).bind fun as' => Finds.pure (Expr.cases () t subject' b as')).mono ?_
    rintro Γ e Δ ds ⟨subject', _, ds₁, _, ⟨rfl, hsubject, hds⟩, ⟨b, _, _, _, ⟨rfl, rfl⟩, ⟨as', _, ds₂, _,
      ⟨rfl, has, hds'⟩, ⟨rfl, rfl, rfl⟩, rfl⟩, rfl⟩, rfl⟩
    refine ⟨rfl, .cases hsubject has, ?_⟩
    rw [List.append_nil, List.nil_append]
    exact append_subset hds hds'

theorem exprs_finds : (es : List (Expr .parsed)) →
    Finds (exprs es) (Stands (fun Γ => Lexical.exprs Γ es) Decls.exprs)
  | [] => by
    rw [exprs]
    exact .leaf _ fun _ => .nil
  | e :: es => by
    rw [exprs]
    exact (expr_finds e).map₂ (exprs_finds es) (fun _ _ _ => .cons) fun _ _ => rfl

theorem option_finds : (e : Option (Expr .parsed)) →
    Finds (option e) (Stands (fun Γ => Lexical.option Γ e) Decls.option)
  | none => by
    rw [option]
    exact .leaf _ fun _ => .none
  | some e => by
    rw [option]
    exact (expr_finds e).map (fun _ _ => .some) fun _ => rfl

theorem inits_finds : (fs : List (FieldInit .parsed)) →
    Finds (inits fs) (Stands (fun Γ => Lexical.inits Γ fs) Decls.inits)
  | [] => by
    rw [inits]
    exact .leaf _ fun _ => .nil
  | .mk _ _ e :: fs => by
    rw [inits]
    exact (expr_finds e).map₂ (inits_finds fs) (fun _ _ _ => .cons) fun _ _ => rfl

theorem arms_finds : (as : List (Arm .parsed)) →
    Finds (arms as) (Stands (fun Γ => Lexical.arms Γ as) Decls.arms)
  | [] => by
    rw [arms]
    exact .leaf _ fun _ => .nil
  | .mk t q e :: as => by
    rw [arms]
    refine ((withScope_finds .block ((pattern_finds q).bind fun q' => (expr_finds e).bind fun e' =>
      Finds.pure (Arm.mk t q' e'))).bind fun a => (arms_finds as).bind fun as' =>
        Finds.pure (a :: as')).mono ?_
    rintro Γ a Δ ds ⟨_, _, ds₁, _, ⟨rfl, Θ, q', _, _, _, ⟨hq, hds⟩, ⟨e', _, _, _, ⟨rfl, he, hds'⟩,
      ⟨rfl, rfl, rfl⟩, rfl⟩, rfl⟩, ⟨as', _, _, _, ⟨rfl, has, hds''⟩, ⟨rfl, rfl, rfl⟩, rfl⟩, rfl⟩
    refine ⟨rfl, .cons hq he has, ?_⟩
    rw [Decls.arms, List.append_nil, List.append_nil, List.append_assoc]
    exact append_subset hds (append_subset hds' hds'')

theorem pattern_finds : (q : Pattern .parsed) → Finds (pattern q) fun Γ q' Δ ds =>
    Lexical.pattern Γ q q' Δ ∧ ds ⊆ Decls.pattern q'
  | .wildcard t => by
    rw [pattern]
    refine (Finds.pure (Pattern.wildcard t)).mono ?_
    rintro Γ q' Δ ds ⟨rfl, rfl, rfl⟩
    exact ⟨.wildcard, List.nil_subset _⟩
  | .literal t e => by
    rw [pattern]
    refine ((expr_finds e).bind fun e' => Finds.pure (Pattern.literal t e')).mono ?_
    rintro Γ q' Δ ds ⟨e', _, _, _, ⟨rfl, he, hds⟩, ⟨rfl, rfl, rfl⟩, rfl⟩
    exact ⟨.literal he, by simpa [Decls.pattern] using hds⟩
  | .bind nm _ => by
    rw [pattern]
    refine ((declare_finds nm.text nm.token).bind fun b =>
      Finds.pure (Pattern.bind nm b : Pattern .resolved)).mono ?_
    rintro Γ q' Δ ds ⟨b, _, _, _, ⟨rfl, rfl⟩, ⟨rfl, rfl, rfl⟩, rfl⟩
    exact ⟨.bind, List.nil_subset _⟩
  | .ctor t _ path qs => by
    rw [pattern]
    refine ((patterns_finds qs).bind fun qs' => Finds.pure (Pattern.ctor t () path qs')).mono ?_
    rintro Γ q' Δ ds ⟨qs', _, _, _, ⟨hqs, hds⟩, ⟨rfl, rfl, rfl⟩, rfl⟩
    exact ⟨.ctor hqs, by simpa [Decls.pattern] using hds⟩

theorem patterns_finds : (qs : List (Pattern .parsed)) → Finds (patterns qs) fun Γ qs' Δ ds =>
    Lexical.patterns Γ qs qs' Δ ∧ ds ⊆ Decls.patterns qs'
  | [] => by
    rw [patterns]
    refine (Finds.pure []).mono ?_
    rintro Γ q' Δ ds ⟨rfl, rfl, rfl⟩
    exact ⟨.nil, List.nil_subset _⟩
  | q :: qs => by
    rw [patterns]
    refine ((pattern_finds q).bind fun q' => (patterns_finds qs).bind fun qs' =>
      Finds.pure (q' :: qs')).mono ?_
    rintro Γ a Δ ds ⟨q', _, _, _, ⟨hq, hds⟩, ⟨qs', _, _, _, ⟨hqs, hds'⟩, ⟨rfl, rfl, rfl⟩, rfl⟩, rfl⟩
    refine ⟨.cons hq hqs, ?_⟩
    rw [Decls.patterns, List.append_nil]
    exact append_subset hds hds'

theorem block_finds : (b : Block .parsed) →
    Finds (block b) (Stands (fun Γ => Lexical.block Γ b) Decls.block)
  | .mk _ t ss close => by
    rw [block]
    refine ((withScope_finds .block (stmts_finds ss)).bind fun ss' =>
      Finds.pure (Block.mk () t ss' close)).mono ?_
    rintro Γ b Δ ds ⟨ss', _, _, _, ⟨rfl, Θ, hss, hds⟩, ⟨rfl, rfl, rfl⟩, rfl⟩
    exact ⟨rfl, .mk hss, by simpa [Decls.block] using hds⟩

theorem stmts_finds : (ss : List (Stmt .parsed)) → Finds (stmts ss) (StandsStmts ss)
  | [] => by
    rw [stmts]
    refine (Finds.pure []).mono ?_
    rintro Γ ss Δ ds ⟨rfl, rfl, rfl⟩
    exact ⟨.nil, List.nil_subset _⟩
  | s :: ss => by
    rw [stmts]
    refine ((stmt_finds s).bind fun s' => (stmts_finds ss).bind fun ss' =>
      Finds.pure (s' :: ss')).mono ?_
    rintro Γ a Δ ds ⟨s', _, _, _, ⟨hs, hds⟩, ⟨ss', _, _, _, ⟨hss, hds'⟩, ⟨rfl, rfl, rfl⟩, rfl⟩, rfl⟩
    refine ⟨.cons hs hss, ?_⟩
    rw [Decls.stmts, List.append_nil]
    exact append_subset hds hds'

theorem stmt_finds : (s : Stmt .parsed) → Finds (stmt s) (StandsStmt s)
  | .expr t e => by
    rw [stmt]
    exact .same ((expr_finds e).map (fun _ _ => .expr) fun _ => rfl)
  | .block b => by
    rw [stmt]
    exact .same ((block_finds b).map (fun _ _ => .block) fun _ => rfl)
  | .bind t nm _ type e => by
    rw [stmt]
    refine ((expr_finds e).bind fun e' => (declare_finds nm.text nm.token).bind fun b =>
      Finds.pure (Stmt.bind t nm b type e' : Stmt .resolved)).mono ?_
    rintro Γ s' Δ ds ⟨e', _, _, _, ⟨rfl, he, hds⟩, ⟨b, _, _, _, ⟨rfl, rfl⟩, ⟨rfl, rfl, rfl⟩, rfl⟩, rfl⟩
    exact ⟨.bind he, by simpa [Decls.stmt] using hds⟩
  | .ret t e => by
    rw [stmt]
    exact .same ((option_finds e).map (fun _ _ => .ret) fun _ => rfl)
  | .loop t test b => by
    rw [stmt]
    exact .same ((expr_finds test).map₂ (block_finds b) (fun _ _ _ => .loop) fun _ _ => rfl)
  | .each t nm _ series b => by
    rw [stmt]
    refine ((expr_finds series).bind fun series' =>
      withScope_finds .block (loopBody_finds (block_finds b) t nm series')).mono ?_
    rintro Γ s' Δ ds ⟨series', _, _, _, ⟨rfl, hseries, hds⟩, ⟨rfl, Θ, slots, b', rfl, hb, hds'⟩, rfl⟩
    refine ⟨.each hseries hb, ?_⟩
    rw [Decls.stmt]
    exact append_subset hds hds'
  | .leave t => by
    rw [stmt]
    exact .same (.leaf _ fun _ => .leave)
  | .next t => by
    rw [stmt]
    exact .same (.leaf _ fun _ => .next)
  | .func (.mk t nm u hasSelf ps r (.mk v bt ss close)) => by
    rw [stmt]
    refine ((declareNested_finds _).bind fun a => (func_finds a.1 (some a.2)
      (stmts_finds ss)).bind fun d => Finds.pure (Stmt.func d : Stmt .resolved)).mono ?_
    rintro Γ s' Δ ds ⟨a, _, _, _, ⟨rfl, rfl⟩, ⟨d, _, _, _, ⟨rfl, hd, hb, hds⟩, ⟨rfl, rfl, rfl⟩, rfl⟩,
      rfl⟩
    exact ⟨.func hb hd, by simpa [Decls.stmt] using hds⟩
  | .impl .. | .record .. | .union .. | .use .. => by
    rw [stmt]
    exact fun s => .ofFailure _

end

end Scripting.Resolve
