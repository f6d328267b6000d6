import Scripting.Proofs.Batch.Loading
import Scripting.Proofs.Batch.Own

/-!
# Resolving names in a batch

Name resolution changes a program only by what can be taken back, and declares new bindings and
functions only. Both hold whether or not failures are reported. The one change of a binding that might
be old is noting that it is captured; but what is old and can be named is global, and globals are not
captured.
-/

namespace Scripting

namespace Program

variable {o p : Program}

theorem undoAll_bindings (us : List Undo) : (us.foldl undo p).bindings = p.bindings := by
  induction us generalizing p with
  | nil => rfl
  | cons u us ih =>
    rw [List.foldl_cons, ih]
    cases u <;> rfl

theorem Follows.binding (h : Follows o p) (ho : o.batch.isSome = true) {b : BindingId}
    (hb : b < o.bindings.size) : p.binding b = o.binding b := by
  obtain ⟨k, hk⟩ := Option.isSome_iff_exists.mp (h.batch.trans ho)
  have hold := (h.undone k hk).2.bindings b hb
  rw [undoAll_bindings] at hold
  rw [Program.binding, Program.binding, Array.getD_eq_getD_getElem?, Array.getD_eq_getD_getElem?, hold]

def Nameable (o : Program) (b : BindingId) : Prop :=
  o.bindings.size ≤ b ∨ (o.binding b).storage = .global

theorem Follows.nameable (h : Follows o p) (ho : o.batch.isSome = true) {b : BindingId}
    (hb : p.IsGlobal b) : o.Nameable b := by
  by_cases hold : b < o.bindings.size
  · exact .inr ((h.binding ho hold) ▸ hb.2)
  · exact .inl (Nat.le_of_not_lt hold)

end Program

namespace Resolve

open Program

/-- A state of name resolution in a batch: what is bound in an open scope is new. -/
structure State.Within (o : Program) (s : State) : Prop where
  begun : o.batch.isSome = true
  follows : Follows o s.program
  inner : ∀ sc ∈ s.scopes, ∀ name b, sc.get? name = some b → o.bindings.size ≤ b

def StaysAt (o : Program) (s : State) {α : Type} (m : Resolve α) (Q : α → Prop) : Prop :=
  s.Within o → (m.run s).2.Within o ∧ Q (m.run s).1

/-- Whether a step of resolution stays in the batch, with what holds of its result. -/
def Stays (o : Program) {α : Type} (m : Resolve α) (Q : α → Prop) : Prop := ∀ s, StaysAt o s m Q

variable {o : Program} {α β : Type}

namespace Stays

theorem mono {m : Resolve α} {P Q : α → Prop} (h : Stays o m P) (hQ : ∀ a, P a → Q a) :
    Stays o m Q := fun s hs => ⟨(h s hs).1, hQ _ (h s hs).2⟩

theorem pure {a : α} {Q : α → Prop} (h : Q a) : Stays o (Pure.pure a) Q := fun _ hs => ⟨hs, h⟩

theorem atBind {s : State} {m : Resolve α} {f : α → Resolve β} {P : α → Prop} {Q : β → Prop}
    (hm : StaysAt o s m P) (hf : ∀ a, P a → Stays o (f a) Q) : StaysAt o s (m >>= f) Q :=
  fun hs => hf _ (hm hs).2 _ (hm hs).1

theorem bind {m : Resolve α} {f : α → Resolve β} {P : α → Prop} {Q : β → Prop} (hm : Stays o m P)
    (hf : ∀ a, P a → Stays o (f a) Q) : Stays o (m >>= f) Q := fun s => atBind (hm s) hf

theorem ofGet {f : State → Resolve α} {Q : α → Prop} (hf : ∀ s, StaysAt o s (f s) Q) :
    Stays o (get >>= f) Q := fun s => hf s

theorem report {code : Diagnostic.Code} {tok : Token} {msg : String} :
    Stays o (Resolve.report code tok msg) fun _ => True :=
  fun _ hs => ⟨⟨hs.begun, hs.follows, hs.inner⟩, trivial⟩

theorem reported {code : Diagnostic.Code} {tok : Token} {msg : String} {a : α} {Q : α → Prop}
    (h : Q a) : Stays o (do Resolve.report code tok msg; return a) Q :=
  report.bind fun _ _ => .pure h

theorem failure {d : Diagnostic} :
    Stays o (modify fun s => { s with errors := s.errors.push d }) fun _ => True :=
  fun _ hs => ⟨⟨hs.begun, hs.follows, hs.inner⟩, trivial⟩

theorem onProgram {f : Program → α × Program} {Q : α → Prop}
    (hf : ∀ p, Follows o p → Follows o (f p).2 ∧ Q (f p).1) : Stays o (Resolve.onProgram f) Q :=
  fun s hs => ⟨⟨hs.begun, (hf s.program hs.follows).1, hs.inner⟩, (hf s.program hs.follows).2⟩

theorem change {f : Program → Program} (hf : ∀ p, Follows o p → Follows o (f p)) :
    Stays o (Resolve.onProgram fun p => ((), f p)) fun _ => True :=
  onProgram fun p hp => ⟨hf p hp, trivial⟩

theorem withScope {kind : Scope.Kind} {m : Resolve α} {Q : α → Prop} (hm : Stays o m Q) :
    Stays o (Resolve.withScope kind m) Q := by
  intro s hs
  have hinside : State.Within o { s with
      scopes := ((s.scopes.headD s.program.scope).inside kind) :: s.scopes } := by
    refine ⟨hs.begun, hs.follows, fun sc hsc name b hb => ?_⟩
    rcases List.mem_cons.mp hsc with rfl | hsc
    · rw [get?_empty rfl] at hb
      cases hb
    · exact hs.inner sc hsc name b hb
  obtain ⟨hdone, hQ⟩ := hm _ hinside
  exact ⟨⟨hdone.begun, hdone.follows, hs.inner⟩, hQ⟩

theorem withFrame {m : Resolve α} {Q : α → Prop} (hm : Stays o m Q) :
    Stays o (Resolve.withFrame m) fun x => Q x.1 := by
  intro s hs
  have hinside : (inner s).Within o := by
    refine ⟨hs.begun, hs.follows, fun sc hsc name b hb => ?_⟩
    rcases List.mem_cons.mp hsc with rfl | hsc
    · rw [get?_empty rfl] at hb
      cases hb
    · exact hs.inner sc hsc name b hb
  obtain ⟨hdone, hQ⟩ := hm _ hinside
  rw [withFrame_run]
  exact ⟨⟨hdone.begun, hdone.follows, hs.inner⟩, hQ⟩

theorem forM {f : α → Resolve Unit} : {xs : List α} → (∀ x ∈ xs, Stays o (f x) fun _ => True) →
    Stays o (xs.forM f) fun _ => True
  | [], _ => .pure trivial
  | x :: xs, h => (h x (by simp)).bind fun _ _ => forM fun y hy => h y (by simp [hy])

theorem mapM {f : α → Resolve β} {Q : α → β → Prop} : {xs : List α} →
    (∀ x ∈ xs, Stays o (f x) (Q x)) → Stays o (xs.mapM f) (List.Forall₂ Q xs)
  | [], _ => .pure .nil
  | x :: xs, h => by
    rw [List.mapM_cons]
    exact (h x (by simp)).bind fun y hy => (mapM fun z hz => h z (by simp [hz])).bind fun ys hys =>
      .pure (.cons hy hys)

end Stays

theorem newLocal_stays (name : String) (tok : Token) :
    Stays o (newLocal name tok) (o.bindings.size ≤ ·) := by
  intro s hs
  obtain ⟨q, scs, fs, errs⟩ := s
  cases fs with
  | nil => exact ⟨⟨hs.begun, hs.follows.newSlot name tok, hs.inner⟩, hs.follows.longer.bindings⟩
  | cons f fs => exact ⟨⟨hs.begun, hs.follows.addBinding _, hs.inner⟩, hs.follows.longer.bindings⟩

theorem defineInner_stays (name : String) {b : BindingId} (hb : o.bindings.size ≤ b) :
    Stays o (defineInner name b) fun _ => True := by
  intro s hs
  obtain ⟨q, scs, fs, errs⟩ := s
  cases scs with
  | nil => exact ⟨hs, trivial⟩
  | cons sc scs =>
    refine ⟨⟨hs.begun, hs.follows, fun c hc other d hd => ?_⟩, trivial⟩
    rcases List.mem_cons.mp hc with rfl | hc
    · rw [get?_define] at hd
      split at hd
      · exact Option.some.inj hd ▸ hb
      · exact hs.inner sc (by simp) other d hd
    · exact hs.inner c (by simp [hc]) other d hd

theorem declare_stays (name : String) (tok : Token) :
    Stays o (declare name tok) (o.bindings.size ≤ ·) := by
  refine .ofGet fun s => ?_
  split
  · exact Stays.onProgram (fun p hp => ⟨hp.declareGlobal name tok, hp.longer.bindings⟩) s
  · exact (newLocal_stays name tok).bind (fun b hb => (defineInner_stays name hb).bind
      fun _ _ => .pure hb) s

theorem declareHidden_stays (name : String) (tok : Token) :
    Stays o (declareHidden name tok) (o.bindings.size ≤ ·) := by
  refine (newLocal_stays name tok).bind fun b hb => .bind (.change fun p hp => ?_) fun _ _ => .pure hb
  exact hp.modifyBinding hb fun _ => ⟨rfl, rfl, rfl, fun h => h⟩

theorem lookup_stays (name : String) :
    Stays o (lookup name) fun r => ∀ b, r = some b → o.Nameable b := by
  refine .ofGet fun s hs => ?_
  split
  · rename_i b hb
    obtain ⟨sc, hsc, hget⟩ := mem_of_lookup hb
    refine ⟨hs, fun c hc => .inl ?_⟩
    obtain rfl : b = c := Option.some.inj hc
    exact hs.inner sc hsc name b hget
  · exact ⟨hs, fun b hb => hs.follows.nameable hs.begun (hs.follows.tidy.names name b hb)⟩

theorem slotFor_stays {b : BindingId} (hb : o.Nameable b) :
    Stays o (slotFor b) fun _ => True := by
  refine .ofGet fun s => ?_
  intro hs
  dsimp only
  split
  · exact ⟨hs, trivial⟩
  · exact ⟨hs, trivial⟩
  · rename_i hstorage _
    split
    · exact ⟨hs, trivial⟩
    · -- A binding of a frame is not an old one, because those that can be named are global.
      have hnew : o.bindings.size ≤ b := by
        rcases hb with hb | hb
        · exact hb
        · apply Nat.le_of_not_lt
          intro hlt
          rw [hs.follows.binding hs.begun hlt, hb] at hstorage
          cases hstorage
      exact ⟨⟨hs.begun, hs.follows.modifyBinding hnew fun _ => ⟨rfl, rfl, rfl, fun _ => rfl⟩, hs.inner⟩,
        trivial⟩

variable {n m : Nat}

theorem readType_stays {s : State} {d : TypeDef} (hd : d ∈ s.program.types.defs) (tok : Token) :
    StaysAt o s (readType d tok) (Own.expr n m) := by
  refine Stays.atBind (P := o.Nameable) (fun hs => ?_) fun b hb =>
    (slotFor_stays hb).bind fun _ _ => .pure trivial
  have hfollows := hs.follows.typeBinding hd tok
  have hglobal := typeBinding_isGlobal hfollows.tidy.types hd
  exact ⟨⟨hs.begun, hfollows, hs.inner⟩, hfollows.nameable hs.begun hglobal⟩

theorem readName_stays (tok : Token) (name : String) :
    Stays o (readName tok name) (Own.expr n m) := by
  refine (lookup_stays name).bind fun r hr => ?_
  cases r with
  | some b => exact .ofGet fun s => (slotFor_stays (hr b rfl)).bind (fun _ _ => .pure trivial) s
  | none =>
    refine .ofGet fun s => ?_
    split
    · exact Stays.reported trivial s
    · rename_i d hd
      exact readType_stays (mem_of_resolveTypeName hd) tok
    · exact Stays.reported trivial s

theorem assignName_stays (tok : Token) (name : String) :
    Stays o (assignName tok name) (Own.expr n m) := by
  refine (lookup_stays name).bind fun r hr => ?_
  cases r with
  | none => exact .reported trivial
  | some b =>
    refine .ofGet fun s => ?_
    dsimp only
    split
    · exact Stays.reported trivial s
    · exact (slotFor_stays (hr b rfl)).bind (fun _ _ => .pure trivial) s

theorem StaysAt.memberType {s : State} {left : Expr .parsed} {field : Name}
    {f : Option (TypeDef × Token) → Resolve α} {Q : α → Prop}
    (hf : ∀ x, (match x with | none => True | some x => x.1 ∈ s.program.types.defs) →
      StaysAt o s (f x) Q) : StaysAt o s (memberType? left field >>= f) Q := by
  refine hf (left.dotted?.bind fun x =>
    (s.program.type? (".".intercalate (x.2 ++ [field.text]))).map (·, x.1)) ?_
  split
  · trivial
  · rename_i x hx
    obtain ⟨y, -, hy⟩ := Option.bind_eq_some_iff.mp hx
    obtain ⟨d, hd, rfl⟩ := Option.map_eq_some_iff.mp hy
    exact TypeTable.mem_of_byName? hd

theorem bindFunction_stays {P : Phase} (d : FunDecl P) {b : BindingId} (hb : o.bindings.size ≤ b) :
    Stays o (bindFunction d b) (o.funs.size ≤ ·) := by
  refine (Stays.onProgram fun p hp => ⟨hp.addFun rfl, hp.longer.funs⟩).bind fun id hid =>
    .bind (.change fun p hp => ?_) fun _ _ => .pure hid
  exact hp.modifyBinding hb fun _ => ⟨rfl, rfl, rfl, fun h => h⟩

theorem declareNested_stays {P : Phase} (d : FunDecl P) :
    Stays o (declareNested d) fun x => o.funs.size ≤ x.1 ∧ o.bindings.size ≤ x.2 := by
  refine (declare_stays d.name.text d.name.token).bind fun b hb =>
    (bindFunction_stays d hb).bind fun id hid => .ofGet fun s => ?_
  dsimp only
  split
  · exact Stays.bind (.change fun p hp => hp.addPending b) (fun _ _ => .pure ⟨hid, hb⟩) s
  · exact Stays.pure ⟨hid, hb⟩ s

theorem declareParams_stays : (ps : List (Param .parsed)) →
    Stays o (declareParams ps) fun qs => ∀ b ∈ qs.map (·.decl), o.bindings.size ≤ b
  | [] => .pure (by simp)
  | q :: ps => (declare_stays q.name.text q.name.token).bind fun b hb =>
      (declareParams_stays ps).bind fun qs hqs => .pure (by simpa using ⟨hb, by simpa using hqs⟩)

theorem declareSelf_stays (t : Token) :
    Stays o (some <$> declare "self" t) fun r => ∀ b, r = some b → o.bindings.size ≤ b :=
  (declare_stays "self" t).bind fun _ hb => .pure fun _ hc => Option.some.inj hc ▸ hb

mutual

theorem expr_stays : (e : Expr .parsed) →
    Stays o (expr e) (Own.expr o.bindings.size o.funs.size)
  | .name _ t text _ => readName_stays t text
  | .int .. | .float .. | .string .. | .char .. | .bool .. => .pure trivial
  | .interpolated _ _ es | .array _ _ es => (exprs_stays es).bind fun _ h => .pure h
  | .unary _ _ _ e | .tryUnwrap _ _ e => (expr_stays e).bind fun _ h => .pure h
  | .binary _ _ _ l r | .index _ _ l r | .range _ _ l r =>
    (expr_stays l).bind fun _ hl => (expr_stays r).bind fun _ hr => .pure ⟨hl, hr⟩
  | .assign _ t target value => by
    rw [expr]
    refine (expr_stays value).bind fun v hv => ?_
    split
    · rename_i tok name _
      exact (assignName_stays tok name).bind fun _ h => .pure ⟨h, hv⟩
    · refine (expr_stays target).bind fun e he => ?_
      dsimp only
      split
      · exact Stays.report.bind fun _ _ => .pure ⟨he, hv⟩
      · exact .pure ⟨he, hv⟩
  | .call _ _ _ f es =>
    (expr_stays f).bind fun _ hf => (exprs_stays es).bind fun _ hes => .pure ⟨hf, hes⟩
  | .member _ t left field => by
    rw [expr]
    intro s
    refine StaysAt.memberType fun x hx => ?_
    cases x with
    | none => exact (expr_stays left).bind (fun _ h => .pure h) s
    | some x => exact readType_stays hx x.2
  | .new _ _ _ _ fs => (inits_stays fs).bind fun _ h => .pure h
  | .block b => (block_stays b).bind fun _ h => .pure h
  | .cond _ _ test body alt => (expr_stays test).bind fun _ ht => (block_stays body).bind fun _ hb =>
      (option_stays alt).bind fun _ ha => .pure ⟨ht, hb, ha⟩
  | .cases _ t subject _ as => (expr_stays subject).bind fun _ he =>
      (declareHidden_stays "$match" t).bind fun _ hb => (arms_stays as).bind fun _ ha =>
        .pure ⟨he, hb, ha⟩

theorem exprs_stays : (es : List (Expr .parsed)) →
    Stays o (exprs es) (Own.exprs o.bindings.size o.funs.size)
  | [] => .pure trivial
  | e :: es => (expr_stays e).bind fun _ he => (exprs_stays es).bind fun _ hes => .pure ⟨he, hes⟩

theorem option_stays : (e : Option (Expr .parsed)) →
    Stays o (option e) (Own.option o.bindings.size o.funs.size)
  | none => .pure trivial
  | some e => (expr_stays e).bind fun _ h => .pure h

theorem inits_stays : (fs : List (FieldInit .parsed)) →
    Stays o (inits fs) (Own.inits o.bindings.size o.funs.size)
  | [] => .pure trivial
  | .mk _ _ v :: fs => (expr_stays v).bind fun _ hv => (inits_stays fs).bind fun _ hfs =>
      .pure ⟨hv, hfs⟩

theorem arms_stays : (as : List (Arm .parsed)) →
    Stays o (arms as) (Own.arms o.bindings.size o.funs.size)
  | [] => .pure trivial
  | .mk t q body :: as => by
    have harm : Stays o (withScope .block do
        let q ← pattern q
        return (.mk t q (← expr body) : Arm .resolved)) fun a => match a with
          | .mk _ q e => Own.pattern o.bindings.size o.funs.size q ∧
              Own.expr o.bindings.size o.funs.size e :=
      .withScope ((pattern_stays q).bind fun _ hq => (expr_stays body).bind fun _ he =>
        .pure ⟨hq, he⟩)
    rw [arms]
    refine harm.bind fun a ha => (arms_stays as).bind fun _ has => .pure ?_
    obtain ⟨t, q, e⟩ := a
    exact ⟨ha.1, ha.2, has⟩

theorem pattern_stays : (q : Pattern .parsed) →
    Stays o (pattern q) (Own.pattern o.bindings.size o.funs.size)
  | .wildcard _ => .pure trivial
  | .literal _ v => (expr_stays v).bind fun _ h => .pure h
  | .bind name _ => (declare_stays name.text name.token).bind fun _ h => .pure h
  | .ctor _ _ _ qs => (patterns_stays qs).bind fun _ h => .pure h

theorem patterns_stays : (qs : List (Pattern .parsed)) →
    Stays o (patterns qs) (Own.patterns o.bindings.size o.funs.size)
  | [] => .pure trivial
  | q :: qs => (pattern_stays q).bind fun _ hq => (patterns_stays qs).bind fun _ hqs =>
      .pure ⟨hq, hqs⟩

theorem block_stays : (b : Block .parsed) →
    Stays o (block b) (Own.block o.bindings.size o.funs.size)
  | .mk _ _ ss _ => (Stays.withScope (stmts_stays ss)).bind fun _ h => .pure h

theorem func_stays {id : FunId} (hid : o.funs.size ≤ id) {binding : Option BindingId}
    (hb : ∀ b, binding = some b → o.bindings.size ≤ b) : (d : FunDecl .parsed) →
      Stays o (func id binding d) (Own.func o.bindings.size o.funs.size)
  | .mk t name _ hasSelf params result (.mk _ bt ss close) => by
    rw [func]
    refine Stays.bind (Stays.withFrame (Q := fun x => (∀ b, x.1 = some b → o.bindings.size ≤ b) ∧
      (∀ b ∈ x.2.1.map (·.decl), o.bindings.size ≤ b) ∧
        Own.stmts o.bindings.size o.funs.size x.2.2) ?_) fun x hx => ?_
    · dsimp only
      split
      · exact (declareSelf_stays t).bind fun _ hs => (declareParams_stays params).bind
          fun _ hp => (stmts_stays ss).bind fun _ hss => .pure ⟨hs, hp, hss⟩
      · exact Stays.bind (.pure (Q := (· = none)) rfl) fun _ hs => (declareParams_stays params).bind
          fun _ hp => (stmts_stays ss).bind fun _ hss => .pure ⟨by simp [hs], hp, hss⟩
    · refine .bind (.change fun p hp => hp.modifyFun hid fun _ => ⟨rfl, rfl⟩) fun _ _ => .pure ?_
      exact ⟨⟨hid, hb, hx.1, hx.2.1⟩, hx.2.2⟩

theorem funcs_stays : (ids : List FunId) → (∀ id ∈ ids, o.funs.size ≤ id) →
    (ds : List (FunDecl .parsed)) → Stays o (funcs ids ds) (Own.funcs o.bindings.size o.funs.size)
  | id :: ids, h, d :: ds => by
    refine (func_stays (h id (by simp)) ?_ d).bind fun _ hd =>
      (funcs_stays ids (fun i hi => h i (by simp [hi])) ds).bind fun _ hds => .pure ⟨hd, hds⟩
    exact nofun
  | [], _, ds => by
    rw [funcs.eq_def]
    exact .pure trivial
  | _ :: _, _, [] => .pure trivial

theorem stmts_stays : (ss : List (Stmt .parsed)) →
    Stays o (stmts ss) (Own.stmts o.bindings.size o.funs.size)
  | [] => .pure trivial
  | s :: ss => (stmt_stays s).bind fun _ hs => (stmts_stays ss).bind fun _ hss => .pure ⟨hs, hss⟩

theorem stmt_stays : (s : Stmt .parsed) →
    Stays o (stmt s) (Own.stmt o.bindings.size o.funs.size)
  | .expr _ v => (expr_stays v).bind fun _ h => .pure h
  | .block b => (block_stays b).bind fun _ h => .pure h
  | .bind _ name _ _ v => (expr_stays v).bind fun _ hv =>
      (declare_stays name.text name.token).bind fun _ hb => .pure ⟨hv, hb⟩
  | .ret _ v => (option_stays v).bind fun _ h => .pure h
  | .loop _ test body => (expr_stays test).bind fun _ ht => (block_stays body).bind fun _ hb =>
      .pure ⟨ht, hb⟩
  | .each t name _ series body => by
    rw [stmt]
    refine (expr_stays series).bind fun e he => .withScope ?_
    have hbody : ∀ i l : BindingId, o.bindings.size ≤ i → o.bindings.size ≤ l → Stays o (do
        let item ← declare name.text name.token
        return (.each t name ⟨l, i, item⟩ e (← block body) : Stmt .resolved))
        (Own.stmt o.bindings.size o.funs.size) := fun i l hi hl =>
      (declare_stays name.text name.token).bind fun _ hitem => (block_stays body).bind fun _ hb =>
        .pure ⟨he, ⟨hl, hi, hitem⟩, hb⟩
    dsimp only
    split
    · exact (declareHidden_stays _ t).bind fun i hi => (declareHidden_stays _ t).bind fun l hl =>
        hbody i l hi hl
    · exact (declareHidden_stays _ t).bind fun l hl => (declareHidden_stays _ t).bind fun i hi =>
        hbody i l hi hl
  | .leave _ | .next _ => .pure trivial
  | .func d => (declareNested_stays d).bind fun x hx =>
      (func_stays hx.1 (fun _ h => Option.some.inj h ▸ hx.2) d).bind fun _ h => .pure h
  | .impl .. | .record .. | .union .. | .use .. => .reported trivial

end

theorem useModule_stays {load : String → Except LoadError HostModule}
    (hload : Loading.BareLoader load) (tok : Token) (path : List String) :
    Stays o (useModule load tok path) fun _ => True := by
  refine (Stays.onProgram (Q := fun _ => True) fun p hp =>
    ⟨(Loading.useModule_stays hload _).follows hp, trivial⟩).bind fun r _ => ?_
  cases r with
  | ok u => exact .pure trivial
  | error e => exact .report

theorem declareType_stays (name : Name) (kind : TypeDef.Kind) :
    Stays o (declareType name kind) fun r => ∀ id, r = some id → o.nextType ≤ id := by
  refine .ofGet fun s => ?_
  split
  · exact Stays.reported nofun s
  · rename_i id q hq
    intro hs
    obtain ⟨hfollows, hid, -⟩ := hs.follows.addType ⟨⟨rfl, by simp⟩, rfl, rfl, rfl⟩ hq
    refine ⟨⟨hs.begun, hfollows, hs.inner⟩, fun i hi => ?_⟩
    obtain rfl : id = i := Option.some.inj hi
    exact hid

theorem fields_stays : (fs : List FieldDecl) → (seen : List String) →
    Stays o (fields seen fs) fun _ => True
  | [], _ => .pure trivial
  | f :: fs, seen => by
    rw [fields]
    split
    · exact Stays.report.bind fun _ _ => fields_stays fs seen
    · refine .ofGet fun s => ?_
      split
      · exact (fields_stays fs _).bind (fun _ _ => .pure trivial) s
      · exact Stays.failure.bind (fun _ _ => fields_stays fs _) s

theorem variants_stays (union : String) (vs : List VariantDecl) (seen : List String) :
    Stays o (variants union seen vs) fun r => ∀ ws, r = some ws → ∀ w ∈ ws, w.binding = none := by
  induction vs generalizing seen with
  | nil => exact .pure fun _ h => Option.some.inj h ▸ by simp
  | cons v vs ih =>
    rw [variants]
    split
    · refine .reported fun ws h => ?_
      cases h
    · refine (fields_stays v.fields []).bind fun fs _ => (ih _).bind
        fun r hr => .pure fun ws hws => ?_
      obtain ⟨us, hus, rfl⟩ := Option.map_eq_some_iff.mp hws
      intro w hw
      rcases List.mem_cons.mp hw with rfl | hw
      · rfl
      · exact hr us hus w hw

theorem defineRecord_stays {id : TypeId} (hid : o.nextType ≤ id) (decls : List FieldDecl) :
    Stays o (defineRecord id decls) fun _ => True := by
  refine (fields_stays decls []).bind fun fs _ => .change fun p hp => ?_
  exact hp.modifyType hid (fun _ => rfl) (fun _ => rfl) (fun _ => rfl) (fun _ => rfl)
    ((modifyType_loads p id (fun d => { d with fields := fs }) (fun _ => ⟨rfl, rfl⟩) (fun _ => rfl)
      fun _ => rfl).rooted
      hp.tidy.toRooted)

theorem defineUnion_stays {id : TypeId} (hid : o.nextType ≤ id) (name : Name)
    (decls : List VariantDecl) : Stays o (defineUnion id name decls) fun _ => True := by
  refine (variants_stays name.text decls []).bind fun r hr => ?_
  cases r with
  | none => exact .pure trivial
  | some vs =>
    refine .change fun p hp => bindVariants_follows ?_ hid name.token
    refine hp.modifyType hid (fun _ => rfl) (fun _ => rfl) (fun _ => rfl) (fun _ => rfl)
      (modifyType_rooted hp.tidy.toRooted id _ hp.tidy.types fun d _ v hv b hb => ?_)
    exact absurd ((hr vs rfl v hv).symm.trans hb) (by simp)

theorem addMethod_stays (d : TypeDef) (f : FunDecl .parsed) :
    Stays o (addMethod d f) (o.funs.size ≤ ·) := by
  -- The number is taken and put into the type's list in two steps, which are looked at as one.
  intro s hs
  exact ⟨⟨hs.begun, hs.follows.addMethod d.id rfl, hs.inner⟩, hs.follows.longer.funs⟩

/-- What was made in advance for a statement is new. -/
def Hoisted.New (o : Program) : Hoisted → Prop
  | .nothing => True
  | .func id b => o.funs.size ≤ id ∧ o.bindings.size ≤ b
  | .impl ids => ∀ id ∈ ids, o.funs.size ≤ id

theorem declareImpl_stays (name : Name) (ds : List (FunDecl .parsed)) :
    Stays o (declareImpl name ds) (Hoisted.New o) := by
  refine .ofGet fun s => ?_
  split
  · exact Stays.reported trivial s
  · exact Stays.reported trivial s
  · rename_i d _
    split
    · refine (Stays.mapM (Q := fun _ id => o.funs.size ≤ id) fun f _ =>
        addMethod_stays d f).bind (fun ids hids => .pure ?_) s
      exact List.forall₂_iff_get.mp hids |>.elim fun hlen hget id hmem => by
        obtain ⟨i, hi, rfl⟩ := List.mem_iff_getElem.mp hmem
        exact hget i (hlen ▸ hi) hi
    · exact Stays.reported trivial s

theorem declareFunction_stays (d : FunDecl .parsed) :
    Stays o (declareFunction d) (Hoisted.New o) := by
  refine (Stays.onProgram (Q := (o.bindings.size ≤ ·)) fun p hp => ⟨hp.declareGlobal _ _,
    hp.longer.bindings⟩).bind fun b hb => (bindFunction_stays d hb).bind fun id hid =>
      .bind (.change fun p hp => ?_) fun _ _ => .pure ⟨hid, hb⟩
  exact (hp.addFunction d.name.text id).addPending b

theorem uses_stays {load : String → Except LoadError HostModule} (hload : Loading.BareLoader load)
    (ss : List (Stmt .parsed)) : Stays o (ss.forM fun
      | .use tok path => useModule load tok path
      | _ => return) fun _ => True := by
  refine .forM fun s _ => ?_
  split
  · exact useModule_stays hload _ _
  · exact .pure trivial

def NewTypes (o : Program) : List (Stmt .parsed) → List (Option TypeId) → Prop :=
  List.Forall₂ fun _ r => ∀ id, r = some id → o.nextType ≤ id

theorem declareTypes_stays (ss : List (Stmt .parsed)) : Stays o (ss.mapM fun
      | .record _ name _ => declareType name .record
      | .union _ name _ => declareType name .union
      | _ => return none) (NewTypes o ss) := by
  refine .mapM fun s _ => ?_
  split
  · exact declareType_stays _ _
  · exact declareType_stays _ _
  · refine .pure fun id h => ?_
    cases h

theorem defineTypes_stays {ss : List (Stmt .parsed)} {types : List (Option TypeId)}
    (hall : NewTypes o ss types) : Stays o ((ss.zip types).forM fun
      | (.record _ _ decls, some id) => defineRecord id decls
      | (.union _ name decls, some id) => defineUnion id name decls
      | _ => return) fun _ => True := by
  refine .forM fun x hx => ?_
  split
  · exact defineRecord_stays (List.forall₂_zip hall hx _ rfl) _
  · exact defineUnion_stays (List.forall₂_zip hall hx _ rfl) _ _
  · exact .pure trivial

theorem hoist_stays {load : String → Except LoadError HostModule} (hload : Loading.BareLoader load)
    (ss : List (Stmt .parsed)) :
    Stays o (hoist load ss) fun hs => ∀ h ∈ hs, h.New o := by
  refine (uses_stays hload ss).bind fun _ _ => (declareTypes_stays ss).bind fun types hall =>
    (defineTypes_stays hall).bind fun _ _ => ?_
  refine (Stays.mapM (Q := fun _ h => h.New o) fun s _ => ?_).mono fun hs hall h hmem => ?_
  · split
    · exact declareImpl_stays _ _
    · exact declareFunction_stays _
    · exact .pure trivial
  · obtain ⟨hlen, hget⟩ := List.forall₂_iff_get.mp hall
    obtain ⟨i, hi, rfl⟩ := List.mem_iff_getElem.mp hmem
    exact hget i (hlen ▸ hi) hi

theorem topStmt_stays {h : Hoisted} (hh : h.New o) (s : Stmt .parsed) :
    Stays o (topStmt h s) (Own.stmt o.bindings.size o.funs.size) := by
  rw [topStmt.eq_def]
  split
  · exact (func_stays hh.1 (fun _ hb => Option.some.inj hb ▸ hh.2) _).bind fun _ h => .pure h
  · exact (funcs_stays _ hh _).bind fun _ h => .pure h
  · exact .pure trivial
  · exact .pure trivial
  · exact .pure trivial
  · exact stmt_stays s

theorem topStmts_stays : (xs : List (Hoisted × Stmt .parsed)) → (∀ x ∈ xs, x.1.New o) →
    Stays o (xs.mapM fun (h, s) => topStmt h s) (Own.stmts o.bindings.size o.funs.size)
  | [], _ => .pure trivial
  | x :: xs, h => by
    rw [List.mapM_cons]
    exact (topStmt_stays (h x (by simp)) x.2).bind fun _ hs =>
      (topStmts_stays xs fun y hy => h y (by simp [hy])).bind fun _ hss => .pure ⟨hs, hss⟩

theorem batch_stays {load : String → Except LoadError HostModule} (hload : Loading.BareLoader load)
    (ss : List (Stmt .parsed)) :
    Stays o (batch load ss) (Own.stmts o.bindings.size o.funs.size) := by
  refine (hoist_stays hload ss).bind fun hs hall => .ofGet fun s => ?_
  split
  · exact topStmts_stays _ (fun x hx => hall x.1 (List.of_mem_zip hx).1) s
  · exact Stays.pure trivial s

end Resolve

theorem Source.resolve_follows {load : String → Except LoadError HostModule}
    (hload : Loading.BareLoader load) {o : Program} (ho : o.Tidy) (src : Source .parsed) :
    Program.Follows o.begin (src.resolve load o.begin).2 ∧
      ∀ out, (src.resolve load o.begin).1 = .ok out →
        Own.stmts o.bindings.size o.funs.size out.stmts := by
  have hstart : Resolve.State.Within o.begin { program := o.begin } :=
    ⟨rfl, .begin ho, by simp⟩
  obtain ⟨hend, hown⟩ := Resolve.batch_stays hload src.stmts _ hstart
  refine ⟨hend.follows, fun out hout => ?_⟩
  have hrun : (src.resolve load o.begin).1
      = if ((Resolve.batch load src.stmts).run { program := o.begin }).2.errors.isEmpty then
          .ok { file := src.file, stmts := ((Resolve.batch load src.stmts).run { program := o.begin }).1 }
        else .error ((Resolve.batch load src.stmts).run { program := o.begin }).2.errors.toList := rfl
  rw [hrun] at hout
  split at hout
  · obtain rfl := Except.ok.inj hout
    exact hown
  · cases hout

end Scripting
