import Scripting.Proofs.Script.Emitted

/-!
# The script of a batch

A batch compiles to a script whose code is that of the globals with known values and of the top-level
statements. The functions of the batch get their code on the way.
-/

namespace Scripting

/-- Whether a value is one that a global has before the program runs. -/
def Program.Initially (p : Program) (b : BindingId) (v : Value) : Prop :=
  if (p.binding b).typeValue.isUnknown then (p.binding b).callable.map p.object = some v
  else ∃ i, v = .type i (p.binding b).typeValue

theorem Program.Initially.constant {p : Program} {b : BindingId} {v : Value} (h : p.Initially b v) :
    p.Constant v := by
  rw [Initially] at h
  split at h
  · obtain ⟨c, -, rfl⟩ := Option.map_eq_some_iff.mp h
    exact .object c
  · obtain ⟨i, rfl⟩ := h
    exact .plain rfl

def Program.Known (p : Program) (bs : List BindingId) (known : List (Nat × Value)) : Prop :=
  List.Forall₂ (fun b x => x.1 = (p.binding b).index ∧ p.Initially b x.2) bs known

/-- Whether the objects that globals hold are told apart by what identifies them, also from types. -/
structure Program.Sharp (p : Program) : Prop where
  apart : ∀ b b' c c', (p.binding b).callable = some c → (p.binding b').callable = some c' →
    (p.object c).constKey = (p.object c').constKey → p.object c = p.object c'
  untyped : ∀ b c, (p.binding b).callable = some c → ∀ i t, (p.object c).constKey ≠ (Value.type i t).constKey

/-- Code that stores constants into global slots; the values are those in the pool. -/
def Lowers.stored (pool : Array Value) (line : Int) : List (Nat × Value) → Assembly → Prop
  | [], c => c = []
  | (i, v) :: rest, c => i ≤ Emit.maxWord ∧ ∃ k b, pool[k]? = some v ∧ k ≤ Emit.maxWord ∧
      stored pool line rest b ∧ c = Lowering.word .const k line ++ Lowering.word .setGlobal i line ++ b

theorem Lowers.stored.initials {K : Lowering} {line : Int} : {known : List (Nat × Value)} →
    {c : Assembly} → Lowers.stored K.pool line known c → Lowers.initials K line known c
  | [], _, h => h
  | (_, v) :: _, _, ⟨hi, k, b, hk, hmax, hb, hc⟩ =>
    ⟨hi, _, b, ⟨k, ⟨v, hk, rfl⟩, hmax, rfl⟩, hb.initials, hc⟩

theorem Pool.Indexed.add_self {p : Pool} (hp : p.Indexed) {v : Value}
    (hv : ∀ w ∈ p.values, w.constKey = v.constKey → w = v) :
    (p.add v).2.values[(p.add v).1]? = some v := by
  rw [Pool.add]
  split
  · rename_i i hi
    obtain ⟨w, hw, hkey⟩ := hp _ i hi
    dsimp only
    rw [hw, hv w (Array.mem_of_getElem? hw) hkey]
  · exact Array.getElem?_push_size

namespace Emit

variable {p : Program} {D : FunDecl .typed → Prop} {α : Type}

theorem Gives.replaced {s t u : State} {a : α} {m : Emit α} {Q : Lowering → α → Prop}
    (hm : Gives p D m Q) (ht : t.Sound p) (hg : s.Grows t) (hf : t.heap.funcs = s.heap.funcs)
    (hrun : m.run t = .ok (a, u)) : u.Sound p ∧ s.Grows u ∧ ∃ ds, (∀ d ∈ ds, D d) ∧
      ∀ K : Lowering, K.program = p → K.Covers u → (∀ d ∈ ds, K.compiled d) →
        Q K a ∧ K.Compiled ds s.heap u.heap := by
  obtain ⟨hu, hg', ds, hD, hK⟩ := hm t a u ht hrun
  refine ⟨hu, hg.trans hg', ds, hD, fun K hp hc hds => ?_⟩
  obtain ⟨hq, hcompiled⟩ := hK K hp hc hds
  refine ⟨hq, fun r x hx => ?_⟩
  rw [← hf]
  exact hcompiled r x hx

/-- Stores a global and goes on. -/
def initial (line : Int) (i : Nat) (v : Value) (bs : List BindingId) : Emit Assembly := do
  let value ← constant v line
  let code := value ++ (← word .setGlobal i line)
  return code ++ (← initials line bs)

theorem initials_cons (line : Int) (b : BindingId) (bs : List BindingId) (s : State) :
    (initials line (b :: bs)).run s
      = match s.program.initialValue? s.heap (s.program.binding b) with
        | none => .error (.report .unsupported (s.program.binding b).token
            (Program.noInitialValue (s.program.binding b)))
        | some (v, heap) =>
          (initial line (s.program.binding b).index v bs).run { s with heap } := by
  rw [initials]
  change StateT.run (match s.program.initialValue? s.heap (s.program.binding b) with
    | none => _
    | some (v, heap) => _) s = _
  split <;> rfl

theorem initials_gives (line : Int) : (bs : List BindingId) →
    Gives p D (initials line bs) fun K c =>
      ∃ known, p.Known bs known ∧ Lowers.initials K line known c
  | [] => .pure fun _ _ => ⟨[], .nil, rfl⟩
  | b :: bs => by
    intro s c u hs hrun
    rw [initials_cons, hs.program.binding] at hrun
    have hrest : ∀ v, p.Initially b v → Gives p D (initial line (p.binding b).index v bs) fun K c =>
        ∃ known, p.Known (b :: bs) known ∧ Lowers.initials K line known c := by
      intro v hv
      refine ((constant_gives v hv.constant line).bind fun a => (word_gives .setGlobal _ line).bind fun w =>
        (initials_gives line bs).bind fun r => .ret (a ++ w ++ r)).mono ?_
      rintro K _ - ⟨a, ha, w, ⟨hn, rfl⟩, r, ⟨known, hknown, hr⟩, rfl⟩
      exact ⟨((p.binding b).index, v) :: known, .cons ⟨rfl, hv⟩ hknown, hn, a, r, ha, hr, rfl⟩
    cases hinit : s.program.initialValue? s.heap (p.binding b) with
    | none =>
      rw [hinit] at hrun
      cases hrun
    | some r =>
      obtain ⟨v, heap⟩ := r
      rw [hinit] at hrun
      rw [Program.initialValue?] at hinit
      split at hinit
      · rename_i hty
        obtain ⟨f, hf, hv⟩ := Option.map_eq_some_iff.mp hinit
        obtain ⟨rfl, rfl⟩ := Prod.mk.inj hv
        refine (hrest _ ?_).replaced hs (.refl s) rfl hrun
        rw [Program.Initially, if_pos hty, hf, Option.map_some, hs.program.object]
      · rename_i hty
        obtain ⟨rfl, rfl⟩ := Prod.mk.inj (Option.some.inj hinit)
        have hnext : State.Sound p { s with heap := (s.heap.newId).2 } :=
          ⟨hs.program, hs.pool, hs.templates, hs.constants⟩
        refine (hrest _ ?_).replaced hnext (.newId s) rfl hrun
        rw [Program.Initially, if_neg hty]
        exact ⟨_, rfl⟩

/-- Whether all constants so far are what globals hold before the program runs. -/
def State.Initial (p : Program) (s : State) : Prop :=
  ∀ w ∈ s.pool.values, (∃ b c, (p.binding b).callable = some c ∧ w = p.object c) ∨
    ∃ i t, w = .type i t ∧ i < s.heap.nextId

theorem word_run (c : Opcode) (n : Nat) (line : Int) (s : State) : ∃ t : State,
    (word c n line).run s = .ok (Lowering.word c n line, t) ∧ t.pool = s.pool ∧ t.heap = s.heap := by
  have hrun : (word c n line).run s = .ok (Lowering.word c n line,
      if maxWord < n && s.overflow.isNone then
        { s with overflow := some (.report .unsupported { s.stmt with line := line }
          (c.name ++ " operand " ++ toString n ++ " exceeds the limit of " ++ toString maxWord)) }
      else s) := rfl
  refine ⟨_, hrun, ?_, ?_⟩
  · split <;> rfl
  · split <;> rfl

theorem constant_run (v : Value) (line : Int) (s : State) : ∃ t : State,
    (constant v line).run s = .ok (Lowering.word .const (s.pool.add v).1 line, t) ∧
      t.pool = (s.pool.add v).2 ∧ t.heap = s.heap :=
  word_run .const (s.pool.add v).1 line { s with pool := (s.pool.add v).2 }

theorem initial_stored {s u : State} {line : Int} {i : Nat} {v : Value} {bs : List BindingId}
    {code : Assembly} (hs : s.Sound p) (hconstant : p.Constant v)
    (hv : ∀ w ∈ s.pool.values, w.constKey = v.constKey → w = v)
    (hrun : (initial line i v bs).run s = .ok (code, u)) : ∃ (t : State) (r : Assembly), t.Sound p ∧
      s.Grows t ∧ t.heap = s.heap ∧ (∀ w ∈ t.pool.values, w ∈ s.pool.values ∨ w = v) ∧
        (initials line bs).run t = .ok (r, u) ∧ ∀ K : Lowering, K.program = p → K.Covers t →
          i ≤ maxWord ∧ ∃ k, K.pool[k]? = some v ∧ k ≤ maxWord ∧
            code = Lowering.word .const k line ++ Lowering.word .setGlobal i line ++ r := by
  obtain ⟨t, ht, hpool, hheap⟩ := constant_run v line s
  obtain ⟨t', ht', hpool', hheap'⟩ := word_run .setGlobal i line t
  have hsplit : (initial line i v bs).run s = (initials line bs).run t' >>= fun x =>
      .ok (Lowering.word .const (s.pool.add v).1 line ++ Lowering.word .setGlobal i line ++ x.1, x.2) := by
    rw [initial, StateT.run_bind, ht]
    change StateT.run (word .setGlobal i line >>= fun w => initials line bs >>= fun r =>
      pure (Lowering.word .const (s.pool.add v).1 line ++ w ++ r)) t = _
    rw [StateT.run_bind, ht']
    rfl
  rw [hsplit] at hrun
  obtain ⟨⟨r, u'⟩, hrest, hret⟩ := Loading.exists_of_bind_ok hrun
  obtain ⟨rfl, rfl⟩ := Prod.mk.inj (Except.ok.inj hret)
  obtain ⟨hsound, hgrows, _, hD, hconst⟩ :=
    constant_gives (p := p) (D := fun _ => True) v hconstant line s _ t hs ht
  obtain ⟨hsound', hgrows', _, hD', hword⟩ :=
    word_gives (p := p) (D := fun _ => True) .setGlobal i line t _ t' hsound ht'
  have hself := hs.pool.add_self hv
  refine ⟨t', r, hsound', hgrows.trans hgrows', hheap'.trans hheap, fun w hw => ?_, hrest,
    fun K hp hc => ?_⟩
  · rw [hpool', hpool] at hw
    exact Pool.mem_add hw
  · let K' : Lowering := { K with compiled := fun _ => True }
    have hc' : K'.Covers t' := ⟨hc.pool, hc.template, hc.fits⟩
    obtain ⟨⟨hi, -⟩, -⟩ := hword K' hp hc' fun _ _ => trivial
    obtain ⟨⟨k, -, hk, hcode⟩, -⟩ := hconst K' hp (hc'.of_grows hgrows') fun _ _ => trivial
    obtain ⟨hline, -⟩ := List.cons.inj hcode
    obtain rfl : (s.pool.add v).1 = k := by
      have hop := congrArg Asm.Line.asm hline
      exact (List.cons.inj (Asm.op.inj hop).2).1
    refine ⟨hi, _, hc.pool _ v ?_, hk, rfl⟩
    rw [hpool', hpool]
    exact hself

theorem initials_stored (hp : p.Sharp) (line : Int) : (bs : List BindingId) → {s u : State} →
    {code : Assembly} → s.Sound p → s.Initial p → (initials line bs).run s = .ok (code, u) →
      u.Sound p ∧ s.Grows u ∧ u.heap.funcs = s.heap.funcs ∧ ∀ K : Lowering, K.program = p →
        K.Covers u → ∃ known, p.Known bs known ∧ Lowers.stored K.pool line known code
  | [], s, _, _, hs, _, hrun => by
    obtain ⟨rfl, rfl⟩ := Prod.mk.inj (Except.ok.inj hrun)
    exact ⟨hs, .refl s, rfl, fun K _ _ => ⟨[], .nil, rfl⟩⟩
  | b :: bs, s, u, code, hs, hinitial, hrun => by
    rw [initials_cons, hs.program.binding] at hrun
    have hrest : ∀ (v : Value) (s' : State), s'.Sound p → s.Grows s' → s'.heap.funcs = s.heap.funcs →
        p.Initially b v → (∀ w ∈ s'.pool.values, w.constKey = v.constKey → w = v) →
          (∀ t : State, t.heap = s'.heap → (∀ w ∈ t.pool.values, w ∈ s'.pool.values ∨ w = v) →
            t.Initial p) → (initial line (p.binding b).index v bs).run s' = .ok (code, u) →
              u.Sound p ∧ s.Grows u ∧ u.heap.funcs = s.heap.funcs ∧ ∀ K : Lowering, K.program = p →
                K.Covers u → ∃ known, p.Known (b :: bs) known ∧
                  Lowers.stored K.pool line known code := by
      intro v s' hs' hgrows hfuncs hv hself hnext hrun
      obtain ⟨t, r, ht, hgrows', hheap, hpool, hrun', hcode⟩ := initial_stored hs' hv.constant hself hrun
      obtain ⟨hu, hgrows'', hfuncs', hknown⟩ := initials_stored hp line bs ht (hnext t hheap hpool) hrun'
      refine ⟨hu, hgrows.trans (hgrows'.trans hgrows''), by rw [hfuncs', hheap, hfuncs], fun K hK hc => ?_⟩
      obtain ⟨known, hall, hstored⟩ := hknown K hK hc
      obtain ⟨hi, k, hk, hmax, hcode⟩ := hcode K hK (hc.of_grows hgrows'')
      exact ⟨((p.binding b).index, v) :: known, .cons ⟨rfl, hv⟩ hall, hi, k, r, hk, hmax, hstored, hcode⟩
    cases hinit : s.program.initialValue? s.heap (p.binding b) with
    | none =>
      rw [hinit] at hrun
      cases hrun
    | some r =>
      obtain ⟨v, heap⟩ := r
      rw [hinit] at hrun
      rw [Program.initialValue?] at hinit
      split at hinit
      · rename_i hty
        obtain ⟨f, hf, hv⟩ := Option.map_eq_some_iff.mp hinit
        obtain ⟨rfl, rfl⟩ := Prod.mk.inj hv
        rw [hs.program.object] at hrun
        refine hrest _ _ hs (.refl s) rfl ?_ (fun w hw hkey => ?_) (fun t hheap hpool w hw => ?_) hrun
        · rw [Program.Initially, if_pos hty, hf, Option.map_some]
        · rcases hinitial w hw with ⟨b', c', hc', rfl⟩ | ⟨i, t, rfl, -⟩
          · exact hp.apart b' b c' f hc' hf hkey
          · exact absurd hkey.symm (hp.untyped b f hf i t)
        · rw [hheap]
          rcases hpool w hw with hw | rfl
          · exact hinitial w hw
          · exact .inl ⟨b, f, hf, rfl⟩
      · rename_i hty
        obtain ⟨rfl, rfl⟩ := Prod.mk.inj (Option.some.inj hinit)
        have hs' : State.Sound p { s with heap := (s.heap.newId).2 } :=
          ⟨hs.program, hs.pool, hs.templates, hs.constants⟩
        refine hrest _ _ hs' (.newId s) rfl ?_ (fun w hw hkey => ?_)
          (fun t hheap hpool w hw => ?_) hrun
        · rw [Program.Initially, if_neg hty]
          exact ⟨_, rfl⟩
        · rcases hinitial w hw with ⟨b', c', hc', rfl⟩ | ⟨i, t, rfl, hi⟩
          · exact absurd hkey (hp.untyped b' c' hc' _ _)
          · have hid : i = s.heap.nextId := (ConstKey.object.inj hkey).2
            exact absurd hid (Nat.ne_of_lt hi)
        · rw [hheap]
          rcases hpool w hw with hw | rfl
          · rcases hinitial w hw with hobject | ⟨i, t, rfl, hi⟩
            · exact .inl hobject
            · exact .inr ⟨i, t, rfl, Nat.lt_succ_of_lt hi⟩
          · exact .inr ⟨_, _, rfl, Nat.lt_succ_self _⟩

theorem checkOverflow_gives : Gives p D checkOverflow fun _ _ => True := by
  refine .ofGet fun s hs => ?_
  split
  · exact .throw
  · exact .pure fun _ _ => trivial

theorem topStmts_cons_gives {line : Int} {s : Stmt .typed} {ss : List (Stmt .typed)}
    (h : ∀ tok e, s = .expr tok e → ss ≠ [])
    (hs : Gives p D (stmt false s) fun K c => Lowers.stmt K false s c)
    (hss : Gives p D (topStmts s.token.line ss) fun K c => Lowers.topStmts K s.token.line ss c) :
    Gives p D (topStmts line (s :: ss)) fun K c => Lowers.topStmts K line (s :: ss) c := by
  have hne : ∀ tok e, s = .expr tok e → ss = [] → False := h
  rw [topStmts.eq_3 _ _ _ hne]
  refine (hs.bind fun a => checkOverflow_gives.andThen fun _ => hss.bind fun b =>
    .ret (a ++ b)).mono ?_
  rintro K c - ⟨a, ha, b, hb, rfl⟩
  rw [Lowers.topStmts.eq_3 _ _ _ _ _ hne]
  exact ⟨a, b, ha, hb, rfl⟩

theorem topStmts_gives (line : Int) (ss : List (Stmt .typed)) (hf : Formed.stmts p ss)
    (hd : Listed D (Decls.stmts ss)) :
    Gives p D (topStmts line ss) fun K c => Lowers.topStmts K line ss c := by
  induction ss generalizing line with
  | nil => exact .ret _
  | cons s ss ih =>
    have hs := stmt_gives false s hf.1 hd.left
    have hss := ih s.token.line hf.2 hd.right
    cases s with
    | expr tok e =>
      cases ss with
      | nil =>
        refine ((expr_gives false e hf.1 hd.left).bind fun a =>
          .ret (a ++ Assembly.op .ret tok.line)).mono ?_
        rintro K c - ⟨a, ha, rfl⟩
        exact ⟨a, ha, rfl⟩
      | cons => exact topStmts_cons_gives (by simp) hs hss
    | _ => exact topStmts_cons_gives (by simp) hs hss

def batchCode (src : Source .typed) : Emit Assembly := do
  let pending := (← get).program.pending.toList
  let start ← initials src.token.line pending
  let code ← topStmts 0 src.stmts
  checkOverflow
  return start ++ code

theorem batchCode_gives {src : Source .typed} (hf : Formed.stmts p src.stmts)
    (hd : Listed D (Decls.stmts src.stmts)) :
    Gives p D (batchCode src) fun K c => ∃ known a b, p.Known p.pending.toList known ∧
      Lowers.initials K src.token.line known a ∧ Lowers.topStmts K 0 src.stmts b ∧ c = a ++ b := by
  refine .ofGet fun s hs => ?_
  have hpending : s.program.pending = p.pending := by rw [hs.program.rest]
  rw [hpending]
  refine ((initials_gives src.token.line p.pending.toList).bind fun a =>
    (topStmts_gives 0 src.stmts hf hd).bind fun b => checkOverflow_gives.andThen fun _ =>
      .ret (a ++ b)).mono ?_
  rintro K c - ⟨a, ⟨known, hknown, ha⟩, b, hb, rfl⟩
  exact ⟨known, a, b, hknown, ha, hb, rfl⟩

theorem batchCode_stores {src : Source .typed} (hf : Formed.stmts p src.stmts)
    (hd : Listed D (Decls.stmts src.stmts)) {s u : State} {code : Assembly} (hs : s.Sound p)
    (hinitial : s.Initial p) (hrun : (batchCode src).run s = .ok (code, u)) :
    u.Sound p ∧ s.Grows u ∧ ∃ ds : List (FunDecl .typed), (∀ d ∈ ds, D d) ∧
      ∀ K : Lowering, K.program = p → K.Covers u → (∀ d ∈ ds, K.compiled d) →
        (∃ known a b, p.Known p.pending.toList known ∧ Lowers.initials K src.token.line known a ∧
          Lowers.topStmts K 0 src.stmts b ∧ code = a ++ b ∧
            (p.Sharp → Lowers.stored K.pool src.token.line known a)) ∧
          K.Compiled ds s.heap u.heap := by
  by_cases hp : p.Sharp
  · have hpending : s.program.pending = p.pending := by rw [hs.program.rest]
    have hsplit : (batchCode src).run s = (initials src.token.line s.program.pending.toList).run s >>=
        fun x => (do
          let code ← topStmts 0 src.stmts
          checkOverflow
          return x.1 ++ code : Emit Assembly).run x.2 := rfl
    rw [hsplit, hpending] at hrun
    obtain ⟨⟨a, t⟩, hfirst, hrest⟩ := Loading.exists_of_bind_ok hrun
    obtain ⟨ht, hgrows, hfuncs, hstored⟩ := initials_stored hp src.token.line _ hs hinitial hfirst
    have hgives : Gives p D (do
        let code ← topStmts 0 src.stmts
        checkOverflow
        return a ++ code : Emit Assembly) fun K c => ∃ b, Lowers.topStmts K 0 src.stmts b ∧
          c = a ++ b := by
      refine ((topStmts_gives 0 src.stmts hf hd).bind fun b => checkOverflow_gives.andThen fun _ =>
        .ret (a ++ b)).mono ?_
      rintro K c - ⟨b, hb, rfl⟩
      exact ⟨b, hb, rfl⟩
    obtain ⟨hu, hgrows', ds, hD, hK⟩ := hgives t code u ht hrest
    refine ⟨hu, hgrows.trans hgrows', ds, hD, fun K hKp hc hds => ?_⟩
    obtain ⟨known, hknown, ha⟩ := hstored K hKp (hc.of_grows hgrows')
    obtain ⟨⟨b, hb, hcode⟩, hcompiled⟩ := hK K hKp hc hds
    refine ⟨⟨known, a, b, hknown, ha.initials, hb, hcode, fun _ => ha⟩, fun r x hx => ?_⟩
    rw [← hfuncs]
    exact hcompiled r x hx
  · obtain ⟨hu, hgrows, ds, hD, hK⟩ := batchCode_gives hf hd s code u hs hrun
    refine ⟨hu, hgrows, ds, hD, fun K hKp hc hds => ?_⟩
    obtain ⟨⟨known, a, b, hknown, ha, hb, hcode⟩, hcompiled⟩ := hK K hKp hc hds
    exact ⟨⟨known, a, b, hknown, ha, hb, hcode, fun h => absurd h hp⟩, hcompiled⟩

theorem batch_run (src : Source .typed) (s : State) :
    (batch src).run s = (batchCode src).run s >>= fun x =>
      let y := x.2.heap.newFunc
        { name := scriptName, chunk := some (x.1.chunk x.2.pool.values src.file) }
      .ok (y.1, { x.2 with heap := y.2 }) := by
  have hsplit : batch src = (do
      let code ← batchCode src
      modifyGet fun s =>
        let x := s.heap.newFunc
          { name := scriptName, chunk := some (code.chunk s.pool.values src.file) }
        (x.1, { s with heap := x.2 })) := by
    simp only [batch, batchCode, bind_assoc, pure_bind]
  rw [hsplit, StateT.run_bind]
  rfl

theorem checked_run (code : Assembly) (s : State) :
    StateT.run (do checkOverflow; return code) s = match s.overflow with
      | some d => .error d
      | none => .ok (code, s) := by
  change StateT.run ((match s.overflow with
    | some d => throw d
    | none => pure () : Emit Unit) >>= fun _ => pure code) s = _
  split <;> rfl

theorem batchCode_fits {src : Source .typed} {s t : State} {code : Assembly}
    (h : (batchCode src).run s = .ok (code, t)) : t.overflow = none := by
  have hsplit : batchCode src = (do
      let pending := (← get).program.pending.toList
      let start ← initials src.token.line pending
      let code ← topStmts 0 src.stmts
      return start ++ code) >>= fun code => do
        checkOverflow
        return code := by
    simp only [batchCode, bind_assoc, pure_bind]
  rw [hsplit, StateT.run_bind] at h
  obtain ⟨⟨a, u⟩, -, h⟩ := Loading.exists_of_bind_ok h
  rw [checked_run] at h
  split at h
  · cases h
  · rename_i hnone
    obtain ⟨-, rfl⟩ := Prod.mk.inj (Except.ok.inj h)
    exact hnone

end Emit

/-- What the heap `h'` holds once a batch is compiled to the script `r`, and the heap was `h`. -/
structure Source.Compiled (src : Source .typed) (K : Lowering) (h h' : Heap) (r : Ref) : Prop where
  listed : ∀ d, K.compiled d → d ∈ Decls.stmts src.stmts
  template : ∀ (t : Template) (v : Value), K.template t v →
    ∃ i fields, v = .ctor i ⟨t.typeName, "", fields⟩ ∧ K.program.HasRecord ⟨t.typeName, fields⟩
  script : ∃ known a b, K.program.Known K.program.pending.toList known ∧
    Lowers.initials K src.token.line known a ∧ Lowers.topStmts K 0 src.stmts b ∧
      h'.funcs[r]? = some
        { name := Emit.scriptName, chunk := some ((a ++ b).chunk K.pool src.file) } ∧
      (K.program.Sharp → Lowers.stored K.pool src.token.line known a)
  constants : ∀ v ∈ K.pool, K.program.Constant v
  fresh : r = h.funcs.size
  count : h'.funcs.size = h.funcs.size + 1
  heads : ∀ i < r, (h'.funcs[i]?).map Emit.head = (h.funcs[i]?).map Emit.head
  functions : ∀ i < r, ∀ x, h'.funcs[i]? = some x →
    (∃ d, K.compiled d ∧ ∃ f, K.Owns d f i ∧ K.Object f d x) ∨
      (h.funcs[i]? = some x ∧ ∀ d, K.compiled d → ∀ f, ¬ K.Owns d f i)
  objects : ∃ g : Heap, h' = { h with funcs := g.funcs, nextId := g.nextId } ∧ h.nextId ≤ g.nextId

theorem Source.compile_compiled {p q : Program} {h h' : Heap} {src : Source .typed} {r : Ref}
    (hf : Formed.stmts (p.makeObjects.run h).1 src.stmts) (hrun : src.compile p h = .ok (r, q, h')) :
    ∃ K : Lowering, K.program = (p.makeObjects.run h).1 ∧ K.program.Compiles q ∧
      src.Compiled K (p.makeObjects.run h).2 h' r := by
  rw [Source.compile] at hrun
  generalize p.makeObjects.run h = objects at hf hrun ⊢
  obtain ⟨p, h⟩ := objects
  obtain ⟨⟨r', s⟩, hbatch, hret⟩ := Loading.exists_of_bind_ok hrun
  obtain ⟨rfl, hret'⟩ := Prod.mk.inj (Except.ok.inj hret)
  obtain ⟨rfl, rfl⟩ := Prod.mk.inj hret'
  rw [Emit.batch_run] at hbatch
  obtain ⟨⟨code, t⟩, hcode, hret⟩ := Loading.exists_of_bind_ok hbatch
  obtain ⟨rfl, rfl⟩ := Prod.mk.inj (Except.ok.inj hret)
  obtain ⟨ht, hg, ds, hD, hK⟩ := Emit.batchCode_stores (D := (· ∈ Decls.stmts src.stmts)) hf
    (fun _ h => h) ⟨.refl p, .empty, by simp, by simp⟩ (fun w hw => absurd hw (by simp)) hcode
  let K : Lowering := ⟨p, t.pool.values, fun x v => t.templates[x.typeName]? = some v, (· ∈ ds)⟩
  obtain ⟨⟨known, a, b, hknown, ha, hb, rfl, hstored⟩, hcompiled⟩ := hK K rfl
    ⟨fun _ _ h => h, fun _ _ h => h, Emit.batchCode_fits hcode⟩ fun _ h => h
  have hsize : t.heap.funcs.size = h.funcs.size := hg.count
  have hold : ∀ i < t.heap.funcs.size, ∀ x : Function,
      (t.heap.funcs.push x)[i]? = t.heap.funcs[i]? :=
    fun i hi x => by rw [Array.getElem?_push_lt hi, Array.getElem?_eq_getElem hi]
  refine ⟨K, rfl, ht.program, hD, ?_, ⟨known, a, b, hknown, ha, hb, ?_, hstored⟩, ht.constants, hsize, ?_,
    ?_, ?_, ?_⟩
  · intro x v hv
    exact ht.templates x.typeName v hv
  · simp [Heap.newFunc, K]
  · simp [Heap.newFunc, hsize]
  · intro i hi
    rw [Heap.newFunc, hold i hi]
    exact hg.heads i
  · intro i hi x hx
    rw [Heap.newFunc, hold i hi] at hx
    exact hcompiled i x hx
  · obtain ⟨g, hgt, hle⟩ := hg.objects
    refine ⟨(t.heap.newFunc
      { name := Emit.scriptName, chunk := some ((a ++ b).chunk t.pool.values src.file) }).2, ?_, ?_⟩
    · dsimp only [Heap.newFunc]
      rw [hgt]
    · dsimp only [Heap.newFunc]
      rw [hgt]
      exact hle

end Scripting
