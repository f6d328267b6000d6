import Scripting.Proofs.Typed.Steps

/-!
# Typed trees

Type checking keeps what name resolution settled. The induction follows the resolved tree; the bodies
of functions are checked on demand, so what is known of them is kept with the functions that are done.
-/

namespace Scripting.Typing

variable {p : Program} {table : Table}

theorem paramDecls_typed (d : FunDecl .resolved) (b : Block .typed) :
    (FunDecl.mk d.token d.name d.info d.hasSelf (typedParams d.params) d.result b
      : FunDecl .typed).paramDecls = d.paramDecls := by
  simp [FunDecl.paramDecls, FunDecl.info, FunDecl.params, typedParams, Function.comp_def]

theorem KeepsFunc.of_block {d : FunDecl .resolved} {b : Block .typed} (h : KeepsBlock p d.body b) :
    KeepsFunc p d
      (.mk d.token d.name d.info d.hasSelf (typedParams d.params) d.result b) := by
  have hdecls := paramDecls_typed d b
  obtain ⟨tok, nm, info, self, ps, r, ⟨n, bt, ss, close⟩⟩ := d
  obtain ⟨n', bt', ss', close'⟩ := b
  refine ⟨rfl, ⟨fun q R σ hq hd => ⟨⟨?_, ?_, hd.1.distinct, ?_⟩, ?_⟩, h.formed, ?_, h.stores, ?_⟩⟩
  · rw [hdecls]
    exact hd.1.params
  · rw [hdecls]
    exact hd.1.room
  · rw [hdecls]
    exact hd.1.listed
  · have hentry := h.inScope q (FunDecl.region (.mk tok nm info self ps r (.mk n bt ss close)))
      (FunDecl.entry (.mk tok nm info self ps r (.mk n bt ss close))) hq hd.2
    have hsame : FunDecl.entry (.mk tok nm info self (typedParams ps) r (.mk n' bt' ss' close')
        : FunDecl .typed) = FunDecl.entry (.mk tok nm info self ps r (.mk n bt ss close)) := by
      funext j
      exact congrArg (·[j]?) hdecls
    rw [← hsame] at hentry
    exact hentry
  · rw [Decls.func_eq, Decls.func_eq, List.map_cons, List.map_cons]
    exact (List.subperm_cons _).mpr h.ids
  · have hself : Narrowed [.mk tok nm info self ps r (.mk n bt ss close)]
        [.mk tok nm info self (typedParams ps) r (.mk n' bt' ss' close')] := by
      intro t ht
      obtain rfl := List.mem_singleton.mp ht
      exact ⟨_, List.mem_singleton_self _, rfl, hdecls, h.stores⟩
    exact hself.append h.inner

theorem KeepsFunc.stmt {d : FunDecl .resolved} {t : FunDecl .typed} (h : KeepsFunc p d t) :
    KeepsStmt p (.func d) (.func t) := by
  refine ⟨⟨fun q R σ hq hd => ⟨?_, h.keeps.inScope q R σ hq hd.2⟩, h.keeps.formed, h.keeps.ids, ?_,
    h.keeps.inner⟩, ?_⟩
  · rw [h.info]
    exact hd.1
  · rw [Stores.stmt, Stores.stmt, h.info]
  · intro q σ
    rw [Slots.afterStmt, Slots.afterStmt, h.info]

theorem finished_run (d : FunDecl .resolved) (s : State) :
    (finished d).run s = match s.done[d.info.id]? with
      | some t => (t, s)
      | none => (.mk d.token d.name d.info d.hasSelf (typedParams d.params) d.result
          (.mk none d.body.token [] d.body.close), s) := by
  change StateT.run (match s.done[d.info.id]? with
    | some t => (pure t : Typing _)
    | none => pure (.mk d.token d.name d.info d.hasSelf (typedParams d.params) d.result
        (.mk none d.body.token [] d.body.close))) s = _
  split <;> rfl

theorem finished_ensures {d : FunDecl .resolved} (hd : table[d.info.id]? = some d) :
    Ensures p table (finished d) (KeepsFunc p d) := by
  intro s hs
  rw [finished_run]
  split
  · rename_i t ht
    refine ⟨hs, fun he => ⟨he, ?_⟩⟩
    obtain ⟨d', hd', hkeeps⟩ := hs.done he d.info.id t ht
    rw [hd] at hd'
    exact Option.some.inj hd' ▸ hkeeps
  · refine ⟨hs, fun he => ⟨he, .of_block ?_⟩⟩
    obtain ⟨tok, nm, info, self, ps, r, ⟨n, bt, ss, close⟩⟩ := d
    exact ⟨fun _ _ _ _ _ => trivial, trivial, List.nil_subperm, List.nil_subperm, .nil⟩

theorem own_info {d : FunDecl .resolved} {n m : Nat} (h : Own.func n m d) :
    d.info.Own n m (d.params.map (·.decl)) := by
  cases d
  exact h.1

theorem own_body {d : FunDecl .resolved} {n m : Nat} (h : Own.func n m d) :
    Own.block n m d.body := by
  cases d
  exact h.2

abbrev Analyzes (p : Program) (table : Table) (analyze : FunId → Typing Unit) : Prop :=
  ∀ id, Ensures p table (analyze id) fun _ => True

variable {analyze : FunId → Typing Unit}

theorem nested_ensures (ha : Analyzes p table analyze) {d : FunDecl .resolved}
    (hd : table[d.info.id]? = some d)
    (ho : Own.func p.oldBindings p.oldFuns d) :
    Ensures p table (nested analyze d) (KeepsFunc p d) :=
  (header_ensures (own_info ho)).andThen fun _ => (ha d.info.id).andThen fun _ => finished_ensures hd

def Known (table : Table) (ds : List (FunDecl .resolved)) : Prop :=
  ∀ d ∈ ds, table[d.info.id]? = some d

theorem Known.left {ds es : List (FunDecl .resolved)} (h : Known table (ds ++ es)) :
    Known table ds := fun d hd => h d (List.mem_append_left es hd)

theorem Known.right {ds es : List (FunDecl .resolved)} (h : Known table (ds ++ es)) :
    Known table es := fun d hd => h d (List.mem_append_right ds hd)

theorem KeepsExpr.leaf {a : Expr .resolved} {a' : Expr .typed}
    (hs : ∀ q R σ, p.Grows q → Scoped.expr q R σ a → Scoped.expr q R σ a') (hf : Formed.expr p a')
    (hd : Decls.expr a' = []) (ht : Stores.expr a' = []) : KeepsExpr p a a' := by
  refine ⟨hs, hf, ?_, ?_, ?_⟩
  · rw [hd]
    exact List.nil_subperm
  · rw [ht]
    exact List.nil_subperm
  · rw [hd]
    exact .nil

theorem KeepsExpr.pair {a l r : Expr .resolved} {a' l' r' : Expr .typed} (hl : KeepsExpr p l l')
    (hr : KeepsExpr p r r')
    (hs : ∀ q R σ, Scoped.expr q R σ a → Scoped.expr q R σ l ∧ Scoped.expr q R σ r)
    (hs' : ∀ q R σ, Scoped.expr q R σ l' ∧ Scoped.expr q R σ r' → Scoped.expr q R σ a')
    (hf : Formed.expr p l' ∧ Formed.expr p r' → Formed.expr p a')
    (hd : Decls.expr a = Decls.expr l ++ Decls.expr r)
    (hd' : Decls.expr a' = Decls.expr l' ++ Decls.expr r')
    (ht : (Stores.expr l').Subperm (Stores.expr l) → (Stores.expr r').Subperm (Stores.expr r) →
      (Stores.expr a').Subperm (Stores.expr a)) : KeepsExpr p a a' := by
  refine ⟨fun q R σ hq ha => ?_, hf ⟨hl.formed, hr.formed⟩, ?_, ht hl.stores hr.stores, ?_⟩
  · obtain ⟨hscoped, hscoped'⟩ := hs q R σ ha
    exact hs' q R σ ⟨hl.inScope q R σ hq hscoped, hr.inScope q R σ hq hscoped'⟩
  · rw [hd, hd', List.map_append, List.map_append]
    exact hl.ids.append hr.ids
  · rw [hd, hd']
    exact hl.inner.append hr.inner

theorem KeepsExpr.member {left : Expr .resolved} {left' e : Expr .typed} {n : Unit} {tok : Token}
    {field : Name} (h : KeepsExpr p left left')
    (he : (∃ n, e = .member n tok left' field) ∨ ∃ n t text b, p.IsGlobal b ∧
      e = .name n t text ⟨b, .global, (p.binding b).index⟩) :
    KeepsExpr p (.member n tok left field) e := by
  rcases he with ⟨n, rfl⟩ | ⟨n, t, text, b, hb, rfl⟩
  · exact ⟨h.inScope, h.formed, h.ids, h.stores, h.inner⟩
  · refine .leaf (fun q R σ hq _ => ?_) trivial rfl rfl
    exact ⟨(hq.storage b hb.1).trans hb.2, hq.index b hb.1⟩

def KeepsCallee (p : Program) (f : Expr .resolved) (c : Callee) : Prop :=
  ∀ f', c.Is f' → KeepsExpr p f f'

theorem IsCall.keeps {f g : Expr .resolved} {c : Callee} {es : List (Expr .resolved)}
    {es' : List (Expr .typed)} {e : Expr .typed} (h : IsCall c es' e) (hc : KeepsCallee p f c)
    (hes : KeepsExprs p es es')
    (hg : ∀ q R σ, Scoped.expr q R σ g → Scoped.expr q R σ f ∧ Scoped.exprs q R σ es)
    (hids : ((Decls.expr f ++ Decls.exprs es).map (·.info.id)).Subperm
      ((Decls.expr g).map (·.info.id)))
    (hstores : (Stores.expr f ++ Stores.exprs es).Subperm (Stores.expr g))
    (hdecls : Decls.expr f ++ Decls.exprs es ⊆ Decls.expr g) : KeepsExpr p g e := by
  obtain ⟨n, tok, info, f', rfl, hf', hvia⟩ := h
  exact .call (hc f' hf') hes hvia hg hids hstores hdecls

theorem callee_ensures {analyze : FunId → Typing Unit} {f : Expr .resolved}
    (hf : Ensures p table (infer analyze f) (KeepsExpr p f))
    (hleft : ∀ {n t left field}, f = .member n t left field →
      Ensures p table (infer analyze left) (KeepsExpr p left)) :
    Ensures p table ((memberCallee analyze f).getD (Callee.plain <$> infer analyze f))
      (KeepsCallee p f) := by
  have hplain : Ensures p table (Callee.plain <$> infer analyze f) (KeepsCallee p f) := by
    refine (hf.bind fun f' => .ret (Callee.plain f')).mono ?_
    rintro _ ⟨f', hf', rfl⟩ g rfl
    exact hf'
  cases f with
  | member n t left field =>
    rw [memberCallee]
    refine ((hleft rfl).bind fun left' => .ret (Callee.member t left' field)).mono ?_
    rintro _ ⟨left', hl, rfl⟩ _ ⟨m, rfl⟩
    exact hl.member (.inl ⟨m, rfl⟩)
  | _ => exact hplain

theorem KeepsStmt.each {t : Token} {nm : Name} {slots : LoopSlots} {series : Expr .resolved}
    {series' : Expr .typed} {body : Block .resolved} {body' : Block .typed}
    (hseries : KeepsExpr p series series') (hbody : KeepsBlock p body body') :
    KeepsStmt p (.each t nm slots series body) (.each t nm slots series' body') := by
  refine ⟨⟨fun q R σ hq h => ⟨hseries.inScope q R σ hq h.1, hseries.inScope q R _ hq h.2.1,
    h.2.2.1, hbody.inScope q R _ hq h.2.2.2⟩, ⟨hseries.formed, hbody.formed⟩, ?_, ?_,
    hseries.inner.append hbody.inner⟩, fun _ _ => rfl⟩
  · simp only [Decls.stmt, List.map_append]
    exact hseries.ids.append hbody.ids
  · simp only [Stores.stmt]
    refine hseries.stores.append ?_
    repeat rw [List.subperm_cons]
    exact hbody.stores

theorem each_ensures {analyze : FunId → Typing Unit} {t : Token} {nm : Name} {slots : LoopSlots}
    {series : Expr .resolved} {body : Block .resolved}
    (hseries : Ensures p table (infer analyze series) (KeepsExpr p series))
    (hbounds : ∀ {n t a b}, series = .range n t a b → Ensures p table (infer analyze a) (KeepsExpr p a) ∧
      Ensures p table (infer analyze b) (KeepsExpr p b))
    (hbody : Ensures p table (inferBlock analyze body) (KeepsBlock p body))
    (hslots : p.oldBindings ≤ slots.limit ∧ p.oldBindings ≤ slots.index ∧ p.oldBindings ≤ slots.item) :
    Ensures p table (inferStmt analyze (.each t nm slots series body))
      (KeepsStmt p (.each t nm slots series body)) := by
  have hother : Ensures p table (do
      let series ← infer analyze series
      let item ← itemType series
      setType slots.limit series.type
      setType slots.index .int
      setType slots.item item
      return (Stmt.each t nm slots series (← inferBlock analyze body) : Stmt .typed))
      (KeepsStmt p (.each t nm slots series body)) := by
    refine (hseries.bind fun e => (itemType_ensures e).bind fun ty => (Ensures.setType hslots.1 _).bind
      fun _ => (Ensures.setType hslots.2.1 _).bind fun _ => (Ensures.setType hslots.2.2 _).bind fun _ =>
        hbody.bind fun b =>
        .ret (Stmt.each t nm slots e b : Stmt .typed)).mono ?_
    rintro _ ⟨e, he, _, -, _, -, _, -, _, -, b, hb, rfl⟩
    exact .each he hb
  by_cases hrange : ∃ n rt a b, series = .range n rt a b
  · obtain ⟨n, rt, a, b, rfl⟩ := hrange
    rw [inferStmt]
    obtain ⟨ha, hb⟩ := hbounds rfl
    refine (ha.bind fun a' => hb.bind fun b' => (expectBound_ensures a').bind fun _ =>
      (expectBound_ensures b').bind fun _ => (Ensures.setType hslots.1 _).bind fun _ =>
        (Ensures.setType hslots.2.1 _).bind fun _ => (Ensures.setType hslots.2.2 _).bind fun _ =>
          hbody.bind fun body' =>
          .ret (Stmt.each t nm slots (.range (some .int) rt a' b') body' : Stmt .typed)).mono ?_
    rintro _ ⟨a', ha, b', hb, _, -, _, -, _, -, _, -, _, -, body', hbody, rfl⟩
    have hrange : KeepsExpr p (.range n rt a b) (.range (some .int) rt a' b') :=
      ha.pair hb (fun _ _ _ h => h) (fun _ _ _ h => h) (fun h => h) rfl rfl .append
    exact .each hrange hbody
  · rw [inferStmt]
    · exact hother
    · exact fun n rt a b heq => hrange ⟨n, rt, a, b, heq⟩

theorem infix_ensures (ha : Analyzes p table analyze) {t : Token} {op : BinaryOp} {l r : Expr .resolved}
    (hl : Ensures p table (infer analyze l) (KeepsExpr p l))
    (hr : Ensures p table (infer analyze r) (KeepsExpr p r))
    (hpiped : ∀ k, piped analyze r = some k → Ensures p table (k (infer analyze l)) fun e =>
      ∀ n t op, KeepsExpr p (.binary n t op l r) e) :
    Ensures p table (infer analyze (.binary () t op l r)) (KeepsExpr p (.binary () t op l r)) := by
  rw [infer]
  split
  · rename_i k hk
    split at hk
    · exact (hpiped k hk).mono fun e he => he _ _ _
    · cases hk
  · have hplain : Ensures p table (do
        let l' ← infer analyze l
        binary t op l' (← infer analyze r)) (KeepsExpr p (.binary () t op l r)) := by
      refine (hl.bind fun l' => hr.bind fun r' => binary_ensures t op l' r').mono ?_
      rintro _ ⟨l', hl, r', hr, n, rfl⟩
      exact hl.pair hr (fun _ _ _ h => h) (fun _ _ _ h => h) (fun h => h) rfl rfl .append
    refine (isGlobalFunction_ensures r).andThen fun b => ?_
    split
    · refine (hr.bind fun f => hl.bind fun l' => call_ensures ha t (.plain f) [l']).mono ?_
      rintro e ⟨f, hf, l', hl, hcall⟩
      refine hcall.keeps (f := r) (fun _ h => h ▸ hf) (.cons hl .nil)
        (fun _ _ _ h => ⟨h.2, h.1, trivial⟩) ?_ ?_ ?_
      · simp only [Decls.expr, Decls.exprs, List.append_nil, List.map_append]
        exact List.perm_append_comm.subperm
      · simp only [Stores.expr, Stores.exprs, List.append_nil]
        exact List.perm_append_comm.subperm
      · simp [Decls.expr, Decls.exprs]
    · exact hplain

theorem assign_ensures {t : Token} {target value : Expr .resolved}
    (hvalue : Ensures p table (infer analyze value) (KeepsExpr p value))
    (hleft : ∀ {n t left field}, target = .member n t left field →
      Ensures p table (infer analyze left) (KeepsExpr p left)) :
    Ensures p table (infer analyze (.assign () t target value))
      (KeepsExpr p (.assign () t target value)) := by
  rw [infer]
  refine (hvalue.bind
    (Q := fun v e => KeepsExpr p value v → KeepsExpr p (.assign () t target value) e)
    fun v => ?_).mono fun e ⟨v, hv, he⟩ => he hv
  split
  · rename_i nt text slot
    refine ((assignedSlot_ensures text slot _ _).bind fun ty =>
      .ret (Expr.assign (some v.type) t (.name (some ty) nt text slot) v : Expr .typed)).mono ?_
    rintro _ ⟨ty, -, rfl⟩ hv
    have hname : KeepsExpr p (.name () nt text slot) (.name (some ty) nt text slot) :=
      .leaf (fun _ _ _ _ h => h) trivial rfl rfl
    exact hname.pair hv (fun _ _ _ h => h) (fun _ _ _ h => h) (fun h => h) rfl rfl
      fun hl hr => .append (.refl _) (hl.append hr)
  · rename_i mt left field
    refine ((hleft rfl).bind fun l => (assignedField_ensures l.type field _ _).bind fun ft =>
      .ret (Expr.assign (some v.type) t (.member (some ft) mt l field) v : Expr .typed)).mono ?_
    rintro _ ⟨l, hl, ft, -, rfl⟩ hv
    have hmember : KeepsExpr p (.member () mt left field) (.member (some ft) mt l field) :=
      hl.member (.inl ⟨_, rfl⟩)
    exact hmember.pair hv (fun _ _ _ h => h) (fun _ _ _ h => h) (fun h => h) rfl rfl
      fun hl hr => .append (.refl _) (hl.append hr)
  · exact .failed (.report _ _ _) (.pure trivial)

theorem cond_ensures {t : Token} {test : Expr .resolved} {body : Block .resolved}
    {alt : Option (Expr .resolved)} (htest : Ensures p table (infer analyze test) (KeepsExpr p test))
    (hbody : Ensures p table (inferBlock analyze body) (KeepsBlock p body))
    (halt : Ensures p table (inferOption analyze alt) (KeepsOption p alt)) :
    Ensures p table (infer analyze (.cond () t test body alt))
      (KeepsExpr p (.cond () t test body alt)) := by
  rw [infer]
  refine (htest.bind fun test' => (expectCondition_ensures test').bind fun _ =>
    hbody.bind fun body' => halt.bind fun alt' =>
      .ret (Expr.cond (some (condType body' alt')) t test' body' alt' : Expr .typed)).mono ?_
  rintro _ ⟨test', htest, _, -, body', hbody, alt', halt, rfl⟩
  refine ⟨fun q R σ hq h => ⟨htest.inScope q R σ hq h.1, hbody.inScope q R σ hq h.2.1,
    halt.inScope q R σ hq h.2.2⟩, ⟨htest.formed, hbody.formed, halt.formed⟩, ?_,
    htest.stores.append (hbody.stores.append halt.stores),
    htest.inner.append (hbody.inner.append halt.inner)⟩
  simp only [Decls.expr, List.map_append]
  exact htest.ids.append (hbody.ids.append halt.ids)

theorem cases_ensures {t : Token} {subject : Expr .resolved} {b : BindingId}
    {as : List (Arm .resolved)}
    (hsubject : Ensures p table (infer analyze subject) (KeepsExpr p subject))
    (hb : p.oldBindings ≤ b)
    (has : ∀ ty, Ensures p table (inferArms analyze ty none as) fun x => KeepsArms p as x.1) :
    Ensures p table (infer analyze (.cases () t subject b as))
      (KeepsExpr p (.cases () t subject b as)) := by
  rw [infer]
  refine (hsubject.bind fun e => (Ensures.setType hb e.type).bind fun _ => (has e.type).bind fun x =>
    .ret (Expr.cases (some (x.2.getD .unit)) t e b x.1 : Expr .typed)).mono ?_
  rintro _ ⟨e, he, _, -, x, hx, rfl⟩
  refine ⟨fun q R σ hq h => ⟨he.inScope q R σ hq h.1, h.2.1, hx.inScope q R _ hq h.2.2⟩,
    ⟨he.formed, hx.formed⟩, ?_, he.stores.append ((List.subperm_cons _).mpr hx.stores),
    he.inner.append hx.inner⟩
  simp only [Decls.expr, List.map_append]
  exact he.ids.append hx.ids

theorem literal_ensures {t : Token} {v : Expr .resolved}
    (hv : Ensures p table (infer analyze v) (KeepsExpr p v)) (subject : Ty) :
    Ensures p table (pattern analyze subject (.literal t v)) (KeepsPattern p (.literal t v)) := by
  rw [pattern]
  refine (hv.bind fun v' => (Ensures.assignable subject v'.type).bind fun b =>
    (?_ : Ensures p table _ (· = .literal t v'))).mono ?_
  · split
    · exact .reported rfl
    · exact .pure rfl
  · rintro _ ⟨v', hv, _, -, rfl⟩
    exact ⟨⟨hv.inScope, hv.formed, hv.ids, hv.stores, hv.inner⟩, fun _ _ => rfl⟩

theorem ctor_ensures {t : Token} {path : List String} {args : List (Pattern .resolved)}
    (hargs : ∀ types, Ensures p table (patterns analyze types args) (KeepsPatterns p args))
    (subject : Ty) :
    Ensures p table (pattern analyze subject (.ctor t () path args))
      (KeepsPattern p (.ctor t () path args)) := by
  rw [pattern]
  refine ((ctorTest_ensures t path args.length subject).bind
    (Q := fun x q => x ≠ none → KeepsPattern p (.ctor t () path args) q) fun x => ?_).mono
      fun q ⟨x, hx, hq⟩ => hq hx
  split
  · exact .pure fun hx => absurd rfl hx
  · rename_i test types
    refine ((hargs types).bind fun qs =>
      .ret (Pattern.ctor t test path qs : Pattern .typed)).mono ?_
    rintro _ ⟨qs, hqs, rfl⟩ _
    exact ⟨⟨hqs.1.inScope, hqs.1.formed, hqs.1.ids, hqs.1.stores, hqs.1.inner⟩, hqs.2⟩

theorem loop_ensures {t : Token} {test : Expr .resolved} {body : Block .resolved}
    (htest : Ensures p table (infer analyze test) (KeepsExpr p test))
    (hbody : Ensures p table (inferBlock analyze body) (KeepsBlock p body)) :
    Ensures p table (inferStmt analyze (.loop t test body)) (KeepsStmt p (.loop t test body)) := by
  rw [inferStmt]
  refine (htest.bind fun test' => (expectCondition_ensures test').bind fun _ =>
    hbody.bind fun body' => .ret (Stmt.loop t test' body' : Stmt .typed)).mono ?_
  rintro _ ⟨test', htest, _, -, body', hbody, rfl⟩
  refine ⟨⟨fun q R σ hq h => ⟨htest.inScope q R σ hq h.1, hbody.inScope q R σ hq h.2⟩,
    ⟨htest.formed, hbody.formed⟩, ?_, htest.stores.append hbody.stores,
    htest.inner.append hbody.inner⟩, fun _ _ => rfl⟩
  simp only [Decls.stmt, List.map_append]
  exact htest.ids.append hbody.ids

mutual

theorem infer_ensures (ha : Analyzes p table analyze) (hp : p.Rooted) : (e : Expr .resolved) →
    Known table (Decls.expr e) →
    Own.expr p.oldBindings p.oldFuns e →
    Ensures p table (infer analyze e) (KeepsExpr p e)
  | .name _ t text slot, _, _ => by
    rw [infer]
    refine (slotType_ensures ha t slot).andThen fun ty => .pure ?_
    exact .leaf (fun _ _ _ _ h => h) trivial rfl rfl
  | .int .., _, _ | .float .., _, _ | .string .., _, _ | .char .., _, _ | .bool .., _, _ => by
    rw [infer]
    exact .pure (.leaf (fun _ _ _ _ h => h) trivial rfl rfl)
  | .interpolated _ t es, h, o => by
    rw [infer]
    refine ((inferAll_ensures ha hp es h o).bind fun es' =>
      .ret (Expr.interpolated (some .string) t es' : Expr .typed)).mono ?_
    rintro _ ⟨es', hes, rfl⟩
    exact ⟨hes.inScope, hes.formed, hes.ids, hes.stores, hes.inner⟩
  | .array _ t es, h, o => by
    rw [infer]
    refine ((inferAll_ensures ha hp es h o).bind fun es' => (elementType_ensures es' none).bind fun ty =>
      .ret (Expr.array (some (.arrayOf (ty.getD .any))) t es' : Expr .typed)).mono ?_
    rintro _ ⟨es', hes, ty, -, rfl⟩
    exact ⟨hes.inScope, hes.formed, hes.ids, hes.stores, hes.inner⟩
  | .unary _ t op r, h, o => by
    rw [infer]
    refine ((infer_ensures ha hp r h o).bind fun r' => unary_ensures t op r').mono ?_
    rintro _ ⟨r', hr, n, rfl⟩
    exact ⟨hr.inScope, hr.formed, hr.ids, hr.stores, hr.inner⟩
  | .member _ t left field, h, o => by
    rw [infer]
    refine ((infer_ensures ha hp left h o).bind fun left' => member_ensures hp t left' field).mono ?_
    rintro _ ⟨left', hleft, he⟩
    exact hleft.member he
  | .index _ t l i, h, o => by
    rw [infer]
    refine ((infer_ensures ha hp l h.left o.1).bind fun l' =>
      (infer_ensures ha hp i h.right o.2).bind fun i' =>
      index_ensures t l' i').mono ?_
    rintro _ ⟨l', hl, i', hi, n, rfl⟩
    exact hl.pair hi (fun _ _ _ h => h) (fun _ _ _ h => h) (fun h => h) rfl rfl .append
  | .new _ t _ path fs, h, o => by
    rw [infer]
    refine ((inferInits_ensures ha hp fs h o).bind fun fs' => instantiation_ensures t path fs').mono ?_
    rintro _ ⟨fs', hfs, n, tm, rfl, hrecord, hgiven⟩
    exact ⟨hfs.inScope, ⟨hrecord, hgiven, hfs.formed⟩, hfs.ids, hfs.stores, hfs.inner⟩
  | .tryUnwrap _ t v, h, o => by
    rw [infer]
    refine ((infer_ensures ha hp v h o).bind fun v' => tryUnwrap_ensures t v').mono ?_
    rintro _ ⟨v', hv, n, rfl⟩
    exact ⟨hv.inScope, hv.formed, hv.ids, hv.stores, hv.inner⟩
  | .range _ t a b, h, o => by
    rw [infer]
    refine (infer_ensures ha hp a h.left o.1).andThen fun a' =>
      (infer_ensures ha hp b h.right o.2).andThen fun b' => ?_
    exact .failed (.report _ _ _) (.pure trivial)
  | .block b, h, o => by
    rw [infer]
    refine ((inferBlock_ensures ha hp b h o).bind fun b' => .ret (Expr.block b' : Expr .typed)).mono ?_
    rintro _ ⟨b', hb, rfl⟩
    exact ⟨hb.inScope, hb.formed, hb.ids, hb.stores, hb.inner⟩
  | .cond _ t test body alt, h, o =>
    cond_ensures (infer_ensures ha hp test h.left o.1) (inferBlock_ensures ha hp body h.right.left o.2.1)
      (inferOption_ensures ha hp alt h.right.right o.2.2)
  | .cases _ t subject b as, h, o =>
    cases_ensures (infer_ensures ha hp subject h.left o.1) o.2.1 fun ty =>
      inferArms_ensures ha hp as h.right o.2.2 ty none
  | .call _ t _ f args, h, o => by
    rw [infer]
    refine ((callee_ensures (infer_ensures ha hp f h.left o.1)
      (left_ensures ha hp f h.left o.1)).bind fun c =>
      (inferAll_ensures ha hp args h.right o.2).bind fun args' => call_ensures ha t c args').mono ?_
    rintro _ ⟨c, hc, args', hargs, hcall⟩
    exact hcall.keeps hc hargs (fun _ _ _ h => h) (.refl _) (.refl _) (List.Subset.refl _)
  | .binary _ t op l r, h, o =>
    infix_ensures ha (infer_ensures ha hp l h.left o.1) (infer_ensures ha hp r h.right o.2) fun k hk =>
      piped_ensures ha hp r h.right o.2 k hk l (infer_ensures ha hp l h.left o.1)
  | .assign _ t target value, h, o =>
    assign_ensures (infer_ensures ha hp value h.right o.2) (left_ensures ha hp target h.left o.1)
termination_by structural x => x

theorem left_ensures (ha : Analyzes p table analyze) (hp : p.Rooted) (f : Expr .resolved) (h : Known table
    (Decls.expr f))
    (o : Own.expr p.oldBindings p.oldFuns f) {n : Unit} {t : Token}
    {left : Expr .resolved} {field : Name} (heq : f = .member n t left field) :
    Ensures p table (infer analyze left) (KeepsExpr p left) := by
  cases f with
  | member _ _ left' _ =>
    obtain ⟨-, -, rfl, -⟩ := Expr.member.inj heq
    exact infer_ensures ha hp left' h o
  | _ => cases heq
termination_by structural f

theorem bounds_ensures (ha : Analyzes p table analyze) (hp : p.Rooted) (e : Expr .resolved)
    (h : Known table (Decls.expr e))
    (o : Own.expr p.oldBindings p.oldFuns e) {n : Unit} {t : Token}
    {a b : Expr .resolved} (heq : e = .range n t a b) :
    Ensures p table (infer analyze a) (KeepsExpr p a) ∧
      Ensures p table (infer analyze b) (KeepsExpr p b) := by
  cases e with
  | range _ _ a' b' =>
    obtain ⟨-, -, rfl, rfl⟩ := Expr.range.inj heq
    exact ⟨infer_ensures ha hp a' h.left o.1, infer_ensures ha hp b' h.right o.2⟩
  | _ => cases heq
termination_by structural e

theorem piped_ensures (ha : Analyzes p table analyze) (hp : p.Rooted) (r : Expr .resolved)
    (h : Known table (Decls.expr r))
    (o : Own.expr p.oldBindings p.oldFuns r)
    (k : Typing (Expr .typed) → Typing (Expr .typed)) (hk : piped analyze r = some k)
    (l : Expr .resolved) {m : Typing (Expr .typed)} (hm : Ensures p table m (KeepsExpr p l)) :
    Ensures p table (k m) fun e => ∀ n t op, KeepsExpr p (.binary n t op l r) e := by
  cases r with
  | call _ t _ f args =>
    rw [piped] at hk
    obtain rfl := Option.some.inj hk
    refine ((callee_ensures (infer_ensures ha hp f h.left o.1)
      (left_ensures ha hp f h.left o.1)).bind fun c =>
      hm.bind fun l' => (inferAll_ensures ha hp args h.right o.2).bind fun args' =>
        call_ensures ha t c (l' :: args')).mono ?_
    rintro e ⟨c, hc, l', hl, args', hargs, hcall⟩ n t' op
    refine hcall.keeps hc (.cons hl hargs) (fun _ _ _ h => ⟨h.2.1, h.1, h.2.2⟩) ?_ ?_ ?_
    · simp only [Decls.expr, Decls.exprs, List.map_append]
      rw [← List.append_assoc, ← List.append_assoc]
      exact (List.perm_append_comm.append_right _).subperm
    · simp only [Stores.expr, Stores.exprs]
      rw [← List.append_assoc, ← List.append_assoc]
      exact (List.perm_append_comm.append_right _).subperm
    · simp [Decls.expr, Decls.exprs]
  | _ => cases hk
termination_by structural r

theorem inferAll_ensures (ha : Analyzes p table analyze) (hp : p.Rooted) : (es : List (Expr .resolved)) →
    Known table (Decls.exprs es) →
    Own.exprs p.oldBindings p.oldFuns es →
    Ensures p table (inferAll analyze es) (KeepsExprs p es)
  | [], _, _ => by
    rw [inferAll]
    exact .pure .nil
  | e :: es, h, o => by
    rw [inferAll]
    refine ((infer_ensures ha hp e h.left o.1).bind fun e' =>
      (inferAll_ensures ha hp es h.right o.2).bind fun es' =>
      .ret (e' :: es')).mono ?_
    rintro _ ⟨e', he, es', hes, rfl⟩
    exact .cons he hes
termination_by structural x => x

theorem inferOption_ensures (ha : Analyzes p table analyze) (hp : p.Rooted) : (e : Option
    (Expr .resolved)) → Known table (Decls.option e) →
    Own.option p.oldBindings p.oldFuns e →
    Ensures p table (inferOption analyze e) (KeepsOption p e)
  | none, _, _ => by
    rw [inferOption]
    exact .pure .none
  | some e, h, o => by
    rw [inferOption]
    refine ((infer_ensures ha hp e h o).bind fun e' => .ret (some e')).mono ?_
    rintro _ ⟨e', he, rfl⟩
    exact .some he
termination_by structural x => x

theorem inferInits_ensures (ha : Analyzes p table analyze) (hp : p.Rooted) : (fs : List
    (FieldInit .resolved)) → Known table (Decls.inits fs) →
    Own.inits p.oldBindings p.oldFuns fs →
    Ensures p table (inferInits analyze fs) (KeepsInits p fs)
  | [], _, _ => by
    rw [inferInits]
    exact .pure .nil
  | .mk t nm v :: fs, h, o => by
    rw [Decls.inits] at h
    rw [Own.inits] at o
    rw [inferInits]
    refine ((infer_ensures ha hp v h.left o.1).bind fun v' => (inferInits_ensures ha hp fs h.right o.2).bind
      fun fs' => .ret (FieldInit.mk t nm v' :: fs')).mono ?_
    rintro _ ⟨v', hv, fs', hfs, rfl⟩
    exact .cons hv hfs
termination_by structural x => x

theorem inferArms_ensures (ha : Analyzes p table analyze) (hp : p.Rooted) : (as : List (Arm .resolved)) →
    Known table (Decls.arms as) →
    Own.arms p.oldBindings p.oldFuns as →
    ∀ (subject : Ty) (result : Option Ty),
      Ensures p table (inferArms analyze subject result as) fun x => KeepsArms p as x.1
  | [], _, _, _, _ => by
    rw [inferArms]
    exact .pure .nil
  | .mk t q e :: as, h, o, subject, result => by
    rw [inferArms]
    refine ((pattern_ensures ha hp q h.left o.1 subject).bind fun q' =>
      (infer_ensures ha hp e h.right.left o.2.1).bind
      fun e' => (joinArm_ensures result e').bind fun ty =>
        (inferArms_ensures ha hp as h.right.right o.2.2 subject ty).bind fun x =>
          .ret (Arm.mk t q' e' :: x.1, x.2)).mono ?_
    rintro _ ⟨q', hq, e', he, ty, -, x, hx, rfl⟩
    exact .cons hq he hx
termination_by structural x => x

theorem pattern_ensures (ha : Analyzes p table analyze) (hp : p.Rooted) : (q : Pattern .resolved) →
    Known table (Decls.pattern q) →
    Own.pattern p.oldBindings p.oldFuns q →
    ∀ subject : Ty, Ensures p table (pattern analyze subject q) (KeepsPattern p q)
  | .wildcard t, _, _, _ => by
    rw [pattern]
    exact .pure ⟨⟨fun _ _ _ _ h => h, trivial, .refl _, .refl _, .nil⟩, fun _ _ => rfl⟩
  | .bind nm b, _, o, subject => by
    rw [pattern]
    exact (Ensures.setType o subject).andThen fun _ =>
      .pure ⟨⟨fun _ _ _ _ h => h, trivial, .refl _, .refl _, .nil⟩, fun _ _ => rfl⟩
  | .literal t v, h, o, subject => literal_ensures (infer_ensures ha hp v h o) subject
  | .ctor t _ path args, h, o, subject => ctor_ensures (patterns_ensures ha hp args h o) subject
termination_by structural x => x

theorem patterns_ensures (ha : Analyzes p table analyze) (hp : p.Rooted) : (qs : List
    (Pattern .resolved)) → Known table (Decls.patterns qs) →
    Own.patterns p.oldBindings p.oldFuns qs →
    ∀ types : List Ty, Ensures p table (patterns analyze types qs) (KeepsPatterns p qs)
  | [], _, _, _ => by
    rw [patterns]
    exact .pure .nil
  | q :: qs, h, o, types => by
    rw [patterns]
    refine ((pattern_ensures ha hp q h.left o.1 _).bind fun q' =>
      (patterns_ensures ha hp qs h.right o.2 _).bind fun qs' =>
      .ret (q' :: qs')).mono ?_
    rintro _ ⟨q', hq, qs', hqs, rfl⟩
    exact .cons hq hqs
termination_by structural x => x

theorem inferBlock_ensures (ha : Analyzes p table analyze) (hp : p.Rooted) : (b : Block .resolved) →
    Known table (Decls.block b) →
    Own.block p.oldBindings p.oldFuns b →
    Ensures p table (inferBlock analyze b) (KeepsBlock p b)
  | .mk _ t ss close, h, o => by
    rw [inferBlock]
    refine ((inferStmts_ensures ha hp ss h o).bind fun ss' => .ret (blockOf t ss' close)).mono ?_
    rintro _ ⟨ss', hss, rfl⟩
    exact ⟨hss.inScope, hss.formed, hss.ids, hss.stores, hss.inner⟩
termination_by structural x => x

theorem inferStmts_ensures (ha : Analyzes p table analyze) (hp : p.Rooted) : (ss : List (Stmt .resolved)) →
    Known table (Decls.stmts ss) →
    Own.stmts p.oldBindings p.oldFuns ss →
    Ensures p table (inferStmts analyze ss) (KeepsStmts p ss)
  | [], _, _ => by
    rw [inferStmts]
    exact .pure .nil
  | s :: ss, h, o => by
    rw [inferStmts]
    refine ((inferStmt_ensures ha hp s h.left o.1).bind fun s' =>
      (inferStmts_ensures ha hp ss h.right o.2).bind fun ss' =>
      .ret (s' :: ss')).mono ?_
    rintro _ ⟨s', hs, ss', hss, rfl⟩
    exact .cons hs hss
termination_by structural x => x

theorem inferStmt_ensures (ha : Analyzes p table analyze) (hp : p.Rooted) : (s : Stmt .resolved) →
    Known table (Decls.stmt s) →
    Own.stmt p.oldBindings p.oldFuns s →
    Ensures p table (inferStmt analyze s) (KeepsStmt p s)
  | .expr t v, h, o => by
    rw [inferStmt]
    refine ((infer_ensures ha hp v h o).bind fun v' => .ret (Stmt.expr t v' : Stmt .typed)).mono ?_
    rintro _ ⟨v', hv, rfl⟩
    exact ⟨⟨hv.inScope, hv.formed, hv.ids, hv.stores, hv.inner⟩, fun _ _ => rfl⟩
  | .block b, h, o => by
    rw [inferStmt]
    refine ((inferBlock_ensures ha hp b h o).bind fun b' => .ret (Stmt.block b' : Stmt .typed)).mono ?_
    rintro _ ⟨b', hb, rfl⟩
    exact ⟨⟨hb.inScope, hb.formed, hb.ids, hb.stores, hb.inner⟩, fun _ _ => rfl⟩
  | .bind t nm b type v, h, o => by
    rw [inferStmt]
    refine ((infer_ensures ha hp v h o.1).bind fun v' => (boundType_ensures nm.text type v').bind fun ty =>
      (Ensures.setType o.2 ty).bind fun _ => .ret (Stmt.bind t nm b type v' : Stmt .typed)).mono ?_
    rintro _ ⟨v', hv, _, -, _, -, rfl⟩
    exact ⟨⟨fun q R σ hq h => ⟨hv.inScope q R σ hq h.1, h.2⟩, hv.formed, hv.ids,
      hv.stores.append (.refl _), hv.inner⟩, fun _ _ => rfl⟩
  | .ret t v, h, o => by
    rw [inferStmt]
    refine ((inferOption_ensures ha hp v h o).bind fun v' => (Ensures.addSite t _).bind fun _ =>
      .ret (Stmt.ret t v' : Stmt .typed)).mono ?_
    rintro _ ⟨v', hv, _, -, rfl⟩
    exact ⟨⟨hv.inScope, hv.formed, hv.ids, hv.stores, hv.inner⟩, fun _ _ => rfl⟩
  | .loop t test body, h, o =>
    loop_ensures (infer_ensures ha hp test h.left o.1) (inferBlock_ensures ha hp body h.right o.2)
  | .each t nm slots series body, h, o =>
    each_ensures (infer_ensures ha hp series h.left o.1) (bounds_ensures ha hp series h.left o.1)
      (inferBlock_ensures ha hp body h.right o.2.2) o.2.1
  | .leave t, _, _ | .next t, _, _ => by
    rw [inferStmt]
    exact .pure ⟨⟨fun _ _ _ _ h => h, trivial, .refl _, .refl _, .nil⟩, fun _ _ => rfl⟩
  | .func d, h, o => by
    rw [inferStmt]
    refine ((nested_ensures ha ?_ o).bind fun d' => .ret (Stmt.func d' : Stmt .typed)).mono ?_
    · exact h d (by rw [Decls.stmt, Decls.func_eq]; exact List.mem_cons_self)
    · rintro _ ⟨d', hd, rfl⟩
      exact hd.stmt
  | .impl t nm ds, _, _ => by
    rw [inferStmt]
    exact .pure ⟨⟨fun _ _ _ _ _ => trivial, trivial, List.nil_subperm, List.nil_subperm, .nil⟩,
      fun _ _ => rfl⟩
  | .record .., _, _ | .union .., _, _ | .use .., _, _ => by
    rw [inferStmt]
    exact .pure ⟨⟨fun _ _ _ _ h => h, trivial, .refl _, .refl _, .nil⟩, fun _ _ => rfl⟩

termination_by structural x => x

end

end Scripting.Typing
