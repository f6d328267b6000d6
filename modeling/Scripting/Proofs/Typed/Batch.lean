import Scripting.Proofs.Typed.Checked

/-!
# Typed batches

`Source.check_keeps` says what type checking keeps of a whole batch.
-/

namespace Scripting

namespace Typing

variable {p : Program} {table : Table}

theorem checkSites_ensures (f : UserFunction) (sites : List (Token × Ty)) :
    Ensures p table (checkSites f sites) fun _ => True := by
  refine Ensures.forM sites fun x _ => (Ensures.assignable _ _).andThen fun b => ?_
  split
  · exact .report _ _ _
  · exact .pure trivial

theorem joinSites_ensures (f : UserFunction) : (sites : List (Token × Ty)) → (t : Option Ty) →
    Ensures p table (joinSites f t sites) fun _ => True
  | [], t => by
    rw [joinSites.eq_def]
    exact .pure trivial
  | (_, t) :: sites, none => joinSites_ensures f sites (some t)
  | (tok, t) :: sites, some r => by
    rw [joinSites]
    split
    · exact joinSites_ensures f sites _
    · exact .reported trivial

theorem settleSites_ensures {info : FunSlots} {bs : List BindingId}
    (ho : info.Own p.oldBindings p.oldFuns bs) (sites : List (Token × Ty)) :
    Ensures p table (settleSites info sites) fun _ => True := by
  refine (Ensures.function info.id).andThen fun f => ?_
  split
  · split
    · exact checkSites_ensures f sites
    · exact .pure trivial
  · refine (joinSites_ensures f sites none).andThen fun t => .andThen (.modifyFun ho.id ?_) fun _ => ?_
    · exact fun _ => ⟨rfl, rfl⟩
    · exact publish_ensures ho

section

variable {analyze : FunId → Typing Unit} (ha : ∀ id, Ensures p table (analyze id) fun _ => True)
  (hp : p.Rooted)
include ha hp

theorem analyzeBody_ensures {d : FunDecl .resolved} (hd : table[d.info.id]? = some d)
    (hknown : Known table (Decls.block d.body)) (ho : Own.func p.oldBindings p.oldFuns d) :
    Ensures p table (analyzeBody analyze d) fun _ => True := by
  refine .ofGet fun s => ?_
  dsimp only
  split
  · exact .pure trivial
  · intro s' hs'
    have henter : (State.Sound p table
        { s' with underWay := d.info.id :: s'.underWay, current := some { func := d.info.id } }) :=
      ⟨hs'.program, hs'.decls, hs'.done⟩
    obtain ⟨hsound, hbody⟩ := inferBlock_ensures ha hp d.body hknown (own_body ho) _ henter
    obtain ⟨hsound', hsites⟩ := settleSites_ensures (own_info ho) _ _ hsound
    refine ⟨⟨hsound'.program, hsound'.decls, ?_⟩, fun he => ⟨(hbody (hsites he).1).1, trivial⟩⟩
    intro he id t ht
    have hkeeps := KeepsFunc.of_block (hbody (hsites he).1).2
    change (Std.TreeMap.insert _ _ _)[id]? = some t at ht
    rw [Std.TreeMap.getElem?_insert] at ht
    split at ht
    · rename_i hid
      obtain rfl : d.info.id = id := by simpa using hid
      obtain rfl := Option.some.inj ht
      exact ⟨d, hd, hkeeps⟩
    · exact hsound'.done he id t ht

end

theorem analyzeUpTo_run (n : Nat) (id : FunId) (s : State) :
    (analyzeUpTo (n + 1) id).run s = StateT.run (match s.decls[id]? with
      | none => return
      | some d => do
        if 1 < d.info.depth then header d
        analyzeBody (analyzeUpTo n) d) s := rfl

theorem analyzeUpTo_ensures (hp : p.Rooted) (htable : ∀ (id : FunId) (d : FunDecl .resolved),
    table[id]? = some d → table[d.info.id]? = some d ∧ Known table (Decls.block d.body) ∧
      Own.func p.oldBindings p.oldFuns d) :
    (n : Nat) → (id : FunId) → Ensures p table (analyzeUpTo n id) fun _ => True
  | 0, _ => .pure trivial
  | n + 1, id => by
    intro s hs
    have ha := analyzeUpTo_ensures hp htable n
    rw [analyzeUpTo_run]
    split
    · exact ⟨hs, fun he => ⟨he, trivial⟩⟩
    · rename_i d hd
      rw [hs.decls] at hd
      obtain ⟨hsame, hknown, ho⟩ := htable id d hd
      have hbody := analyzeBody_ensures ha hp hsame hknown ho
      split
      · exact ((header_ensures (own_info ho)).andThen fun _ => hbody) s hs
      · exact hbody s hs

theorem mem_funcs {d : FunDecl .resolved} : {ds : List (FunDecl .resolved)} → d ∈ ds →
    d ∈ Decls.funcs ds
  | e :: ds, h => by
    rw [Decls.funcs, Decls.func_eq, List.mem_append, List.mem_cons]
    rcases List.mem_cons.mp h with rfl | h
    · exact .inl (.inl rfl)
    · exact .inr (mem_funcs h)

theorem headers_ensures : (ss : List (Stmt .resolved)) → Own.stmts p.oldBindings p.oldFuns ss →
    Ensures p table (headers ss) fun _ => True
  | [], _ => .pure trivial
  | s :: ss, ho => by
    have hrest := headers_ensures ss ho.2
    cases s with
    | func d => exact (header_ensures (own_info ho.1)).andThen fun _ => hrest
    | impl t nm ds =>
      refine (Ensures.forM ds fun d hd => header_ensures (own_info ?_)).andThen fun _ => hrest
      exact Own.funcs_all ds ho.1 d (mem_funcs hd)
    | _ => exact hrest

theorem finishedAll_ensures : (ds : List (FunDecl .resolved)) →
    (∀ d ∈ ds, table[d.info.id]? = some d) →
      Ensures p table (ds.mapM finished) (List.Forall₂ (KeepsFunc p) ds)
  | [], _ => .pure .nil
  | d :: ds, h => by
    rw [List.mapM_cons]
    refine ((finished_ensures (h d (by simp))).bind fun t => (finishedAll_ensures ds fun e he =>
      h e (by simp [he])).bind fun ts => .ret (t :: ts)).mono ?_
    rintro _ ⟨t, ht, ts, hts, rfl⟩
    exact .cons ht hts

theorem KeepsFunc.all {ds : List (FunDecl .resolved)} {ts : List (FunDecl .typed)}
    (h : List.Forall₂ (KeepsFunc p) ds ts) :
    Keeps p (fun q _ _ => Scoped.funcs q) (fun q _ _ => Scoped.funcs q) Formed.funcs Decls.funcs
      Decls.funcs (fun _ => []) (fun _ => []) ds ts := by
  induction h with
  | nil => exact ⟨fun _ _ _ _ h => h, trivial, .refl _, .refl _, .nil⟩
  | cons hd _ ih =>
    refine ⟨fun q R σ hq h => ⟨⟨?_, hd.keeps.inScope q R σ hq h.1.2⟩, ih.inScope q R σ hq h.2⟩,
      ⟨hd.keeps.formed, ih.formed⟩, ?_, .refl _, hd.keeps.inner.append ih.inner⟩
    · rw [hd.info]
      exact h.1.1
    · rw [Decls.funcs, Decls.funcs, List.map_append, List.map_append]
      exact hd.keeps.ids.append ih.ids

section

variable {analyze : FunId → Typing Unit} (ha : ∀ id, Ensures p table (analyze id) fun _ => True)
  (hp : p.Rooted)
include ha hp

theorem topStmt_ensures (s : Stmt .resolved) (h : Known table (Decls.stmt s))
    (ho : Own.stmt p.oldBindings p.oldFuns s) :
    Ensures p table (topStmt analyze s) (KeepsStmt p s) := by
  rw [topStmt.eq_def]
  split
  · rename_i d
    refine ((ha d.info.id).bind fun _ => (finished_ensures ?_).bind fun t =>
      .ret (Stmt.func t : Stmt .typed)).mono ?_
    · exact h d (by rw [Decls.stmt, Decls.func_eq]; exact List.mem_cons_self)
    · rintro _ ⟨_, -, t, ht, rfl⟩
      exact ht.stmt
  · rename_i tok nm ds
    refine ((Ensures.forM ds fun d _ => ha d.info.id).bind fun _ => (finishedAll_ensures ds ?_).bind
      fun ts => .ret (Stmt.impl tok nm ts : Stmt .typed)).mono ?_
    · exact fun d hd => h d (mem_funcs hd)
    · rintro _ ⟨_, -, ts, hts, rfl⟩
      have hall := KeepsFunc.all hts
      exact ⟨⟨hall.inScope, hall.formed, hall.ids, hall.stores, hall.inner⟩, fun _ _ => rfl⟩
  · exact inferStmt_ensures ha hp s h ho

theorem topStmts_ensures (ss : List (Stmt .resolved)) (h : Known table (Decls.stmts ss))
    (ho : Own.stmts p.oldBindings p.oldFuns ss) :
    Ensures p table (ss.mapM (topStmt analyze)) (KeepsStmts p ss) := by
  induction ss with
  | nil => exact .pure .nil
  | cons s ss ih =>
    rw [List.mapM_cons]
    refine ((topStmt_ensures ha hp s h.left ho.1).bind fun t => (ih h.right ho.2).bind
      fun ts => .ret (t :: ts)).mono ?_
    rintro _ ⟨t, ht, ts, hts, rfl⟩
    exact .cons ht hts

end

theorem batch_ensures (hp : p.Rooted) {n : Nat}
    (ha : ∀ id, Ensures p table (analyzeUpTo (n + 1) id) fun _ => True) (ss : List (Stmt .resolved))
    (h : Known table (Decls.stmts ss)) (ho : Own.stmts p.oldBindings p.oldFuns ss) :
    Ensures p table (batch n ss) (KeepsStmts p ss) := by
  refine (headers_ensures ss ho).andThen fun _ => ?_
  intro s hs
  have hrun : StateT.run (do
      if (← get).errors.isEmpty then ss.mapM (topStmt (analyzeUpTo (n + 1))) else return []) s
      = StateT.run (if s.errors.isEmpty then ss.mapM (topStmt (analyzeUpTo (n + 1)))
        else return []) s := rfl
  rw [hrun]
  split
  · exact topStmts_ensures ha hp ss h ho s hs
  · rename_i herr
    exact ⟨hs, fun he => absurd (Array.isEmpty_iff.mpr he) herr⟩

theorem getElem?_foldl_insert {id : FunId} : (ds : List (FunDecl .resolved)) → (m : Table) →
    id ∉ ds.map (·.info.id) → (ds.foldl (fun m d => m.insert d.info.id d) m)[id]? = m[id]?
  | [], _, _ => rfl
  | d :: ds, m, h => by
    rw [List.map_cons, List.mem_cons, not_or] at h
    rw [List.foldl_cons, getElem?_foldl_insert ds _ h.2, Std.TreeMap.getElem?_insert]
    rw [if_neg (by simpa using Ne.symm h.1)]

theorem known_foldl_insert : (ds : List (FunDecl .resolved)) → (m : Table) →
    (ds.map (·.info.id)).Nodup → Known (ds.foldl (fun m d => m.insert d.info.id d) m) ds
  | [], _, _ => by simp [Known]
  | d :: ds, m, h => by
    obtain ⟨hd, hds⟩ := List.nodup_cons.mp h
    intro e he
    rcases List.mem_cons.mp he with rfl | he
    · rw [List.foldl_cons, getElem?_foldl_insert ds _ hd, Std.TreeMap.getElem?_insert]
      simp
    · exact known_foldl_insert ds _ hds e he

theorem mem_of_foldl_insert {id : FunId} {e : FunDecl .resolved} : (ds : List (FunDecl .resolved)) →
    (m : Table) → (ds.foldl (fun m d => m.insert d.info.id d) m)[id]? = some e →
      e ∈ ds ∨ m[id]? = some e
  | [], _, h => .inr h
  | d :: ds, m, h => by
    rcases mem_of_foldl_insert ds _ h with h | h
    · exact .inl (by simp [h])
    · rw [Std.TreeMap.getElem?_insert] at h
      split at h
      · obtain rfl := Option.some.inj h
        exact .inl (by simp)
      · exact .inr h

end Typing

theorem Source.check_keeps {p : Program} (hp : p.Rooted) {src : Source .resolved}
    (hids : ((Decls.stmts src.stmts).map (·.info.id)).Nodup)
    (ho : Own.stmts p.oldBindings p.oldFuns src.stmts) :
    p.Settles (src.check p).2 ∧
      ∀ out, (src.check p).1 = .ok out → Typing.KeepsStmts p src.stmts out.stmts := by
  generalize htable : (Typing.declsOf src).foldl (fun m d => m.insert d.info.id d)
    ({} : Typing.Table) = table
  have hdecls := Typing.declsOf_eq src
  have hknown : Typing.Known table (Decls.stmts src.stmts) := by
    rw [← htable, hdecls]
    exact Typing.known_foldl_insert _ {} hids
  have hinside : ∀ (id : FunId) (d : FunDecl .resolved), table[id]? = some d →
      table[d.info.id]? = some d ∧ Typing.Known table (Decls.block d.body) ∧
        Own.func p.oldBindings p.oldFuns d := by
    intro id d hd
    have hmem : d ∈ Decls.stmts src.stmts := by
      rw [← hdecls]
      rw [← htable] at hd
      exact (Typing.mem_of_foldl_insert _ _ hd).resolve_right (by simp)
    exact ⟨hknown d hmem, fun x hx => hknown x (Decls.stmts_closed src.stmts d hmem x hx),
      Own.stmts_all src.stmts ho d hmem⟩
  have ha := Typing.analyzeUpTo_ensures hp hinside ((Typing.declsOf src).length + 1)
  obtain ⟨hsound, hkeeps⟩ := Typing.batch_ensures hp ha src.stmts hknown ho
    { program := p, decls := table } ⟨.refl p, rfl, by simp⟩
  rw [Source.check, htable]
  generalize StateT.run _ _ = r at hsound hkeeps
  obtain ⟨stmts, s⟩ := r
  refine ⟨hsound.program, fun out hout => ?_⟩
  dsimp only at hout
  split at hout
  case isFalse => cases hout
  case isTrue herr =>
    obtain rfl := Except.ok.inj hout
    exact (hkeeps (Array.isEmpty_iff.mp herr)).2

end Scripting
