import Scripting.Proofs.Typed.Ensures

/-!
# Steps of type checking

Each step settles types or reports failures; those that build a node of the typed tree say which.
-/

namespace Scripting.Typing

variable {p : Program} {table : Table}

theorem publish_ensures {info : FunSlots} {bs : List BindingId}
    (ho : info.Own p.oldBindings p.oldFuns bs) : Ensures p table (publish info) fun _ => True := by
  refine (Ensures.function info.id).andThen fun f => ?_
  split
  · refine .andThen (.modifyFun ho.id ?_) fun _ => ?_
    · exact fun _ => ⟨rfl, rfl⟩
    · split
      · rename_i b hb
        exact .setType (ho.binding b hb) _
      · exact .pure trivial
  · exact .pure trivial

theorem paramType_ensures (type : Option TypeExpr) :
    Ensures p table (paramType type) fun _ => True := by
  rw [paramType.eq_def]
  split
  · exact .pure trivial
  · refine .ofProgram fun q _ => ?_
    split
    · exact .pure trivial
    · exact .failedWith trivial

theorem headerParams_ensures : (ps : List (Param .resolved)) →
    (∀ b ∈ ps.map (·.decl), p.oldBindings ≤ b) → Ensures p table (headerParams ps) fun _ => True
  | [], _ => .pure trivial
  | q :: ps, h => (paramType_ensures q.type).andThen fun t =>
      (Ensures.setType (h q.decl (by simp)) t).andThen fun _ =>
        (headerParams_ensures ps fun b hb => h b (by simp [hb])).andThen fun _ => .pure trivial

theorem headerResult_ensures {info : FunSlots} {bs : List BindingId}
    (ho : info.Own p.oldBindings p.oldFuns bs) (r : Option TypeExpr) : Ensures p table (do
      if let some e := r then
        let t ← paramType (some e)
        onProgram fun p => p.modifyFun info.id fun f => { f with result := t, declared := true }
      publish info) fun _ => True := by
  cases r with
  | none => exact publish_ensures ho
  | some e =>
    refine (paramType_ensures (some e)).andThen fun t => .andThen (.modifyFun ho.id ?_) fun _ => ?_
    · exact fun _ => ⟨rfl, rfl⟩
    · exact publish_ensures ho

theorem header_ensures {d : FunDecl .resolved}
    (ho : d.info.Own p.oldBindings p.oldFuns (d.params.map (·.decl))) :
    Ensures p table (header d) fun _ => True := by
  have hresult : Ensures p table _ fun _ => True := headerResult_ensures ho d.result
  refine (headerParams_ensures d.params ho.params).andThen fun ts => .andThen (.modifyFun ho.id ?_)
    fun _ => (Ensures.function d.info.id).andThen fun f => ?_
  · exact fun _ => ⟨rfl, rfl⟩
  · cases hself : d.info.self with
    | none => exact hresult
    | some b =>
      cases f.owner with
      | none => exact hresult
      | some t => exact (Ensures.setType (ho.self b hself) t).andThen fun _ => hresult

theorem settleResult_ensures {analyze : FunId → Typing Unit}
    (ha : ∀ id, Ensures p table (analyze id) fun _ => True) (id : FunId) (tok : Token) :
    Ensures p table (settleResult analyze id tok) fun _ => True := by
  refine (Ensures.function id).andThen fun f => ?_
  split
  · refine .ofGet fun s => ?_
    split
    · exact .report _ _ _
    · exact ha id
  · exact .pure trivial

section

variable {analyze : FunId → Typing Unit} (ha : ∀ id, Ensures p table (analyze id) fun _ => True)
include ha

omit ha in
theorem settledSig_ensures (c : Callable) : Ensures p table (do
    let p ← program
    let sig := p.callableSig c
    match c with
    | .ctor t i => return (sig, ((p.variant? t i).map fun x => x.1.typeParams).getD [])
    | .host h => return (complete sig, (p.hosts[h]?.map HostFunction.typeParams).getD [])
    | _ => return (complete sig, [])) fun _ => True := by
  refine .ofProgram fun q _ => ?_
  cases c <;> exact .pure trivial

theorem signatureOf_ensures (tok : Token) (c : Callable) :
    Ensures p table (signatureOf analyze tok c) fun _ => True := by
  have hsig : Ensures p table _ fun _ => True := settledSig_ensures c
  cases c with
  | user f => exact (settleResult_ensures ha f tok).andThen fun _ => hsig
  | native name => exact hsig
  | host h => exact hsig
  | ctor t i => exact hsig

theorem select_ensures (tok : Token) (args : List Ty) : (cs : List Callable) → (best : Selection) →
    Ensures p table (select analyze tok args best cs) fun _ => True
  | [], _ => .pure trivial
  | c :: cs, best => by
    refine (signatureOf_ensures ha tok c).andThen fun x => .ofProgram fun q _ => ?_
    split
    · exact select_ensures tok args cs _
    · exact select_ensures tok args cs best

theorem selectGroup_ensures (tok : Token) (args : List Ty) : (gs : List (List Callable)) →
    Ensures p table (selectGroup analyze tok args gs) fun _ => True
  | [] => .pure trivial
  | g :: gs => by
    refine (select_ensures ha tok args g none).andThen fun x => ?_
    cases x with
    | some s => exact .pure trivial
    | none => exact selectGroup_ensures tok args gs

theorem callCallable_ensures (tok : Token) (c : Callable) (args : List Ty) :
    Ensures p table (callCallable analyze tok c args) fun _ => True := by
  refine .ofProgram fun q _ => ?_
  dsimp only
  split
  · exact .reported trivial
  · refine (signatureOf_ensures ha tok c).andThen fun x => .ofProgram fun q _ => ?_
    split
    · exact .pure trivial
    · exact .reported trivial

end

theorem callValue_ensures (tok : Token) (sig : Signature) (args : List Ty) :
    Ensures p table (callValue tok sig args) fun _ => True := by
  refine .ofProgram fun q _ => ?_
  split
  · exact .pure trivial
  · exact .reported trivial

theorem fieldType?_ensures (t : Ty) (name : String) :
    Ensures p table (fieldType? t name) fun _ => True := by
  rw [fieldType?]
  split
  · exact .pure trivial
  · exact .ofProgram fun q _ => .pure trivial

def Callee.Is : Callee → Expr .typed → Prop
  | .plain f, g => g = f
  | .member tok left field, g => ∃ n, g = .member n tok left field

/-- Whether an expression is a call of a callee; one through a receiver calls a member. -/
def IsCall (c : Callee) (args : List (Expr .typed)) (e : Expr .typed) : Prop :=
  ∃ n tok info f, e = .call n tok info f args ∧ c.Is f ∧ (info.viaReceiver = true → f.IsMember)

section

variable {analyze : FunId → Typing Unit} (ha : ∀ id, Ensures p table (analyze id) fun _ => True)
include ha

theorem callPlain_ensures (tok : Token) (f : Expr .typed) (args : List (Expr .typed)) :
    Ensures p table (callPlain analyze tok f args) (IsCall (.plain f) args) := by
  refine .ofProgram fun q _ => ?_
  dsimp only
  split
  · refine (callCallable_ensures ha tok _ _).andThen fun x => .pure ?_
    refine ⟨_, _, _, _, rfl, rfl, ?_⟩
    split <;> exact nofun
  · split
    · exact (callValue_ensures tok _ _).andThen fun t => .pure ⟨_, _, _, _, rfl, rfl, nofun⟩
    · split
      · exact .reported ⟨_, _, _, _, rfl, rfl, nofun⟩
      · exact .pure ⟨_, _, _, _, rfl, rfl, nofun⟩

theorem callStatic_ensures (tok : Token) {callee : Expr .typed} {c : Callee} (hc : c.Is callee)
    (name : String) (t : Ty) (args : List (Expr .typed)) :
    Ensures p table (callStatic analyze tok callee name t args) (IsCall c args) := by
  refine .ofProgram fun q _ => ?_
  dsimp only
  split
  · exact .reported ⟨_, _, _, _, rfl, hc, nofun⟩
  · split
    · refine (callCallable_ensures ha tok _ _).andThen fun x => .pure ?_
      refine ⟨_, _, _, _, rfl, hc, ?_⟩
      split <;> exact nofun
    · refine (select_ensures ha tok _ _ none).andThen fun x => ?_
      split
      · exact .reported ⟨_, _, _, _, rfl, hc, nofun⟩
      · exact .pure ⟨_, _, _, _, rfl, hc, nofun⟩
      · exact .reported ⟨_, _, _, _, rfl, hc, nofun⟩

theorem callMember_ensures (tok mtok : Token) (left : Expr .typed) (field : Name)
    (args : List (Expr .typed)) : Ensures p table (callMember analyze tok mtok left field args)
      (IsCall (.member mtok left field) args) := by
  have hcall : ∀ (n m : Option Ty) (info : CallInfo), IsCall (.member mtok left field) args
      (.call n tok info (.member m mtok left field) args) :=
    fun n m info => ⟨_, _, _, _, rfl, ⟨m, rfl⟩, fun _ => trivial⟩
  refine .ofProgram fun q _ => ?_
  dsimp only
  refine (selectGroup_ensures ha tok _ _).andThen fun x => ?_
  split
  · exact .reported (hcall _ _ _)
  · exact .pure (hcall _ _ _)
  · have hunsettled : ∀ msg : String, Ensures p table (do
        report .noOverload tok msg
        return (Expr.call (some .any) tok {} (.member none mtok left field) args : Expr .typed))
        (IsCall (.member mtok left field) args) := fun msg =>
      .reported (hcall _ _ _)
    split
    · exact hunsettled _
    · refine (fieldType?_ensures _ _).andThen fun held => ?_
      split
      · exact hunsettled _
      · split
        · exact (callValue_ensures tok _ _).andThen fun r => .pure (hcall _ _ _)
        · split
          · exact .pure (hcall _ _ _)
          · exact hunsettled _

theorem call_ensures (tok : Token) (c : Callee) (args : List (Expr .typed)) :
    Ensures p table (call analyze tok c args) (IsCall c args) := by
  cases c with
  | plain f => exact callPlain_ensures ha tok f args
  | member mtok left field =>
    rw [call]
    split
    · exact callStatic_ensures ha tok (c := .member mtok left field) ⟨none, rfl⟩ _ _ args
    · exact callMember_ensures ha tok mtok left field args

end

theorem binary_ensures (tok : Token) (op : BinaryOp) (l r : Expr .typed) :
    Ensures p table (binary tok op l r) fun e => ∃ n, e = .binary n tok op l r := by
  rw [binary]
  split
  · exact .pure ⟨_, rfl⟩
  · exact .reported ⟨_, rfl⟩

theorem unary_ensures (tok : Token) (op : UnaryOp) (r : Expr .typed) :
    Ensures p table (unary tok op r) fun e => ∃ n, e = .unary n tok op r := by
  rw [unary.eq_def]
  cases op with
  | neg =>
    dsimp only
    split
    · exact .pure ⟨_, rfl⟩
    · exact .reported ⟨_, rfl⟩
  | not =>
    dsimp only
    split
    · exact .reported ⟨_, rfl⟩
    · exact .pure ⟨_, rfl⟩

theorem isGlobalFunction_ensures (e : Expr .resolved) :
    Ensures p table (isGlobalFunction e) fun _ => True := by
  refine .ofProgram fun q _ => ?_
  split
  · split
    · exact .pure trivial
    · split <;> exact .pure trivial
  · exact .pure trivial

theorem slotType_ensures {analyze : FunId → Typing Unit}
    (ha : ∀ id, Ensures p table (analyze id) fun _ => True) (tok : Token) (slot : Slot) :
    Ensures p table (slotType analyze tok slot) fun _ => True := by
  refine .ofProgram fun q _ => ?_
  dsimp only
  split
  · exact (settleResult_ensures ha _ tok).andThen fun _ => (Ensures.function _).andThen
      fun f => .pure trivial
  · exact .pure trivial
  · exact .pure trivial

theorem mem_of_defOf? {q : Program} {t : Ty} {d : TypeDef} (h : q.defOf? t = some d) :
    d ∈ q.types.defs := by
  rw [Program.defOf?] at h
  obtain ⟨c, -, h⟩ := Option.bind_eq_some_iff.mp h
  split at h
  · rename_i hd
    split at hd
    · cases hd
    · obtain rfl := Option.some.inj h
      exact TypeTable.mem_of_byId? hd
  · exact TypeTable.mem_of_byName? h

theorem member_ensures (hp : p.Rooted) (tok : Token) (left : Expr .typed) (field : Name) :
    Ensures p table (member tok left field) fun e => (∃ n, e = .member n tok left field) ∨
      ∃ n t text b, p.IsGlobal b ∧ e = .name n t text ⟨b, .global, (p.binding b).index⟩ := by
  refine .ofProgram fun q hq => ?_
  split
  · dsimp only
    split
    · rename_i tag b hread
      refine .pure (.inr ?_)
      obtain ⟨d, hd, hread⟩ := Option.bind_eq_some_iff.mp hread
      split at hread
      · obtain ⟨v, hv, hread⟩ := Option.bind_eq_some_iff.mp hread
        obtain ⟨b', hb, hread⟩ := Option.bind_eq_some_iff.mp hread
        obtain ⟨-, rfl⟩ := Prod.mk.inj (Option.some.inj hread)
        have hmem : d ∈ p.types.defs := hq.types ▸ mem_of_defOf? hd
        have hglobal := hp.variants d hmem v (List.mem_of_find?_eq_some hv) b' hb
        exact ⟨_, _, _, b', hglobal, by rw [hq.grows.index b' hglobal.1]⟩
      · cases hread
    · exact .reported (.inl ⟨_, rfl⟩)
  · refine (fieldType?_ensures _ _).andThen fun ft => ?_
    split
    · exact .pure (.inl ⟨_, rfl⟩)
    · exact .reported (.inl ⟨_, rfl⟩)

theorem assignedField_ensures (left : Ty) (field : Name) (tok : Token) (t : Ty) :
    Ensures p table (assignedField left field tok t) fun _ => True := by
  refine (fieldType?_ensures _ _).andThen fun ft => ?_
  split
  · exact .reported trivial
  · refine (Ensures.assignable _ _).andThen fun b => ?_
    split
    · exact .reported trivial
    · exact .pure trivial

theorem assignedSlot_ensures (name : String) (slot : Slot) (tok : Token) (t : Ty) :
    Ensures p table (assignedSlot name slot tok t) fun _ => True := by
  refine .ofProgram fun q _ => ?_
  dsimp only
  split
  · exact .pure trivial
  · refine (Ensures.assignable _ _).andThen fun b => ?_
    split
    · exact .reported trivial
    · exact .pure trivial

theorem elementType_ensures : (es : List (Expr .typed)) → (t : Option Ty) →
    Ensures p table (elementType t es) fun _ => True
  | [], _ => by
    rw [elementType.eq_def]
    exact .pure trivial
  | e :: es, none => elementType_ensures es _
  | e :: es, some t => by
    rw [elementType]
    split
    · exact elementType_ensures es _
    · exact .andThen (.report _ _ _ (Q := fun _ => True)) fun _ => elementType_ensures es _

theorem index_ensures (tok : Token) (l i : Expr .typed) :
    Ensures p table (index tok l i) fun e => ∃ n, e = .index n tok l i := by
  rw [index.eq_def]
  split
  · exact .pure ⟨_, rfl⟩
  · exact .reported ⟨_, rfl⟩

theorem givenFields_ensures (t : Ty) (d : TypeDef) : (fs : List (FieldInit .typed)) →
    (given : List String) → Ensures p table (givenFields t d given fs) fun names =>
      ∀ n ∈ names, n ∈ given ∨ n ∈ fs.map FieldInit.name
  | [], given => .pure fun n hn => .inl hn
  | f :: fs, given => by
    have hskip : Ensures p table (givenFields t d given fs) fun names =>
        ∀ n ∈ names, n ∈ given ∨ n ∈ (f :: fs).map FieldInit.name :=
      (givenFields_ensures t d fs given).mono fun names h n hn =>
        (h n hn).imp_right fun h => by simp only [List.map_cons, List.mem_cons, h, or_true]
    have htake : Ensures p table (givenFields t d (f.name :: given) fs) fun names =>
        ∀ n ∈ names, n ∈ given ∨ n ∈ (f :: fs).map FieldInit.name := by
      refine (givenFields_ensures t d fs (f.name :: given)).mono fun names h n hn => ?_
      rcases h n hn with h | h
      · rcases List.mem_cons.mp h with rfl | h
        · exact .inr (by simp)
        · exact .inl h
      · exact .inr (by simp only [List.map_cons, List.mem_cons, h, or_true])
    rw [givenFields]
    split
    · exact .andThen (.report _ _ _ (Q := fun _ => True)) fun _ => hskip
    · refine .ofProgram fun q _ => ?_
      split
      · exact .andThen (.report _ _ _ (Q := fun _ => True)) fun _ => hskip
      · refine (Ensures.assignable _ _).andThen fun b => ?_
        split
        · exact .andThen (.report _ _ _ (Q := fun _ => True)) fun _ => htake
        · exact htake

theorem missing_ensures (given : List String) {report : String → Typing Unit}
    (hr : ∀ name, Ensures p table (report name) fun _ => False) : (names : List String) →
    Ensures p table (names.forM fun name => if given.contains name then pure () else report name)
      fun _ => ∀ name ∈ names, name ∈ given
  | [] => .pure (by simp)
  | name :: names => by
    have hone : Ensures p table (if given.contains name then pure () else report name)
        fun _ => name ∈ given := by
      split
      case isTrue h => exact .pure (by simpa using h)
      case isFalse => exact (hr name).mono fun _ h => h.elim
    refine (hone.bind fun _ => missing_ensures given hr names).mono ?_
    rintro _ ⟨_, hname, hnames⟩ n hn
    rcases List.mem_cons.mp hn with rfl | hn
    · exact hname
    · exact hnames n hn

theorem instantiation_ensures (tok : Token) (path : List String) (fs : List (FieldInit .typed)) :
    Ensures p table (instantiation tok path fs) fun e => ∃ n t, e = .new n tok t path fs ∧
      p.HasRecord t ∧ ∀ f ∈ t.fields, f ∈ fs.map FieldInit.name := by
  refine .ofProgram fun q hq => ?_
  split
  · exact .failed (.addError _) (.pure trivial)
  · split
    · exact .failed (.report _ _ _) (.pure trivial)
    · rename_i t _ _ d hd
      obtain ⟨hdef, hkind⟩ := Option.filter_eq_some_iff.mp hd
      have hmem : d ∈ p.types.defs := hq.types ▸ mem_of_defOf? hdef
      refine ((givenFields_ensures _ d fs []).bind fun given => (missing_ensures given
        (fun name => .report _ _ _) d.fieldNames).bind fun _ =>
          .ret (Expr.new (some t) tok ⟨d.name, d.fieldNames⟩ path fs : Expr .typed)).mono ?_
      rintro e ⟨given, hgiven, _, hall, rfl⟩
      refine ⟨_, _, rfl, ⟨d, hmem, by simpa using hkind, rfl, rfl⟩, ?_⟩
      intro f hf
      exact (hgiven f (hall f hf)).resolve_left (by simp)

theorem tryUnwrap_ensures (tok : Token) (v : Expr .typed) :
    Ensures p table (tryUnwrap tok v) fun e => ∃ n, e = .tryUnwrap n tok v := by
  rw [tryUnwrap]
  dsimp only
  split
  · exact .pure ⟨_, rfl⟩
  · split
    · exact .reported ⟨_, rfl⟩
    · refine .ofGet fun s => ?_
      split
      · refine (Ensures.function _).andThen fun f => ?_
        split
        · split
          · exact .reported ⟨_, rfl⟩
          · exact .pure ⟨_, rfl⟩
        · exact (Ensures.addSite _ _).andThen fun _ => .pure ⟨_, rfl⟩
      · exact .pure ⟨_, rfl⟩

theorem expectCondition_ensures (e : Expr .typed) :
    Ensures p table (expectCondition e) fun _ => True := by
  rw [expectCondition]
  split
  · exact .report _ _ _
  · exact .pure trivial

theorem expectBound_ensures (e : Expr .typed) :
    Ensures p table (expectBound e) fun _ => True := by
  rw [expectBound]
  split
  · exact .report _ _ _
  · exact .pure trivial

theorem joinArm_ensures (t : Option Ty) (e : Expr .typed) :
    Ensures p table (joinArm t e) fun _ => True := by
  rw [joinArm.eq_def]
  split
  · exact .pure trivial
  · split
    · exact .pure trivial
    · split
      · exact .pure trivial
      · exact .reported trivial

theorem variantTest_ensures (tok : Token) (d : TypeDef) (v : Variant) (count : Nat) (t : Ty) :
    Ensures p table (variantTest tok d v count t) fun x => x ≠ none := by
  rw [variantTest]
  dsimp only
  split
  · exact .failed (.report _ _ _) (.pure trivial)
  · split
    · exact .failed (.report _ _ _) (.pure trivial)
    · exact .pure nofun

theorem typeTest_ensures (tok : Token) (path : List String) (count : Nat) :
    Ensures p table (typeTest tok path count) fun x => x ≠ none := by
  refine .ofProgram fun q _ => ?_
  split
  · exact .failed (.report _ _ _) (.pure trivial)
  · exact .failed (.report _ _ _) (.pure trivial)
  · split
    · exact .pure nofun
    · split
      · exact .failed (.report _ _ _) (.pure trivial)
      · exact .pure nofun

theorem ctorTest_ensures (tok : Token) (path : List String) (count : Nat) (t : Ty) :
    Ensures p table (ctorTest tok path count t) fun x => x ≠ none := by
  refine .ofProgram fun q _ => ?_
  split
  · exact variantTest_ensures _ _ _ _ _
  · exact typeTest_ensures _ _ _

theorem itemType_ensures (e : Expr .typed) : Ensures p table (itemType e) fun _ => True := by
  rw [itemType]
  split
  · exact .pure trivial
  · split
    · exact .reported trivial
    · exact .pure trivial

theorem boundType_ensures (name : String) (type : Option TypeExpr) (v : Expr .typed) :
    Ensures p table (boundType name type v) fun _ => True := by
  rw [boundType.eq_def]
  split
  · exact .pure trivial
  · refine .ofProgram fun q _ => ?_
    split
    · exact .failedWith trivial
    · refine (Ensures.assignable _ _).andThen fun b => ?_
      split
      · exact .reported trivial
      · exact .pure trivial

end Scripting.Typing
