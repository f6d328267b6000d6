import Scripting.Proofs.Script.Steps

/-!
# Code generation gives the code of the tree
-/

namespace Scripting.Emit

variable {p : Program} {D : FunDecl .typed → Prop}

theorem ordered_gives {inits : List (String × Emit Assembly)}
    {I : Lowering → List (String × (Assembly → Prop))}
    (h : ∀ f, Gives p D ((inits.lookup f).getD (return [])) fun K c =>
      (((I K).lookup f).getD (· = [])) c) : (fs : List String) →
    Gives p D (ordered inits fs) fun K c => Lowering.Ordered (I K) fs c
  | [] => .pure fun _ _ => rfl
  | f :: fs => ((h f).bind fun a => (ordered_gives h fs).bind fun b => .ret (a ++ b)).mono
      fun _ _ _ ⟨a, ha, b, hb, hc⟩ => ⟨a, b, ha, hb, hc⟩

theorem build_gives {t : Template} (ht : p.HasRecord t) (tok : Token) :
    Gives p D (build t tok) fun K c => K.Build t tok.line c := by
  rw [build]
  split
  · exact .refused
  · rename_i hlen
    refine ((template_gives ht).bindOf (R := p.Constant) (fun s v u hs => template_constant hs) fun v hv =>
      (intern_gives v hv).bind fun k =>
      (checkWord_gives .new k tok.line).bind fun _ =>
        .ret [(⟨tok.line, .op .new [k, t.fields.length]⟩ : Asm.Line)]).mono ?_
    rintro K c - ⟨v, hv, k, hk, _, hn, rfl⟩
    exact ⟨Nat.le_of_not_lt hlen, k, v, hv, hk, hn, rfl⟩

theorem joinParts_gives (count : Nat) (tok : Token) :
    Gives p D (joinParts count tok) fun K c => count ≤ maxByte ∧
      ∃ f, K.Const ((Native.object? "concat").getD .absent) tok.line f ∧
        c = f ++ Lowering.call count tok.line := by
  refine ((constant_gives _ (.object (.native "concat")) tok.line).bind fun f => (call_gives count tok).bind fun c =>
    .ret (f ++ c)).mono ?_
  rintro K _ - ⟨f, hf, c, ⟨hn, rfl⟩, rfl⟩
  exact ⟨hn, f, hf, rfl⟩

section Loops

variable (slots : LoopSlots) (line : Int)

theorem walkRange_gives {start stop : Emit Assembly} {S T : Lowering → Assembly → Prop}
    (hs : Gives p D start S) (ht : Gives p D stop T) :
    Gives p D (walkRange slots start stop line) fun K c => K.Addressed slots.index ∧
      K.Addressed slots.limit ∧ ∃ x y, S K x ∧ T K y ∧
        c = x ++ K.declare slots.index line ++ y ++ K.declare slots.limit line := by
  refine (hs.bind fun x => (declare_gives slots.index line).bind fun i => ht.bind fun y =>
    (declare_gives slots.limit line).bind fun l => .ret (x ++ i ++ y ++ l)).mono ?_
  rintro K c - ⟨x, hx, i, ⟨hi, rfl⟩, y, hy, l, ⟨hl, rfl⟩, rfl⟩
  exact ⟨hi, hl, x, y, hx, hy, rfl⟩

theorem walkArray_gives {items : Emit Assembly} {S : Lowering → Assembly → Prop}
    (hs : Gives p D items S) :
    Gives p D (walkArray slots items line) fun K c => K.Addressed slots.index ∧
      K.Addressed slots.limit ∧ ∃ x z, S K x ∧ K.Const (.int 0) line z ∧
        c = x ++ K.declare slots.limit line ++ z ++ K.declare slots.index line := by
  refine (hs.bind fun x => (declare_gives slots.limit line).bind fun l =>
    (constant_gives (.int 0) (.plain rfl) line).bind fun z => (declare_gives slots.index line).bind fun i =>
      .ret (x ++ l ++ z ++ i)).mono ?_
  rintro K c - ⟨x, hx, l, ⟨hl, rfl⟩, z, hz, i, ⟨hi, rfl⟩, rfl⟩
  exact ⟨hi, hl, x, z, hx, hz, rfl⟩

theorem loopItem_gives (isRange : Bool) :
    Gives p D (loopItem slots isRange line) fun K c => c = if isRange then K.load slots.index line
      else K.load slots.limit line ++ K.load slots.index line ++ Assembly.op .getElem line := by
  cases isRange with
  | true => exact (load_gives slots.index line).mono fun _ _ _ h => h.2
  | false =>
    refine ((load_gives slots.limit line).bind fun a => (load_gives slots.index line).bind fun b =>
      .ret (a ++ b ++ Assembly.op .getElem line)).mono ?_
    rintro K c - ⟨a, ⟨-, rfl⟩, b, ⟨-, rfl⟩, rfl⟩
    rfl

theorem eachLoop_gives (isRange : Bool) {body : Emit Assembly} {B : Lowering → Assembly → Prop}
    (hb : Gives p D body B) :
    Gives p D (eachLoop slots isRange body line) fun K c =>
      ∃ a, B K a ∧ K.EachLoop slots isRange a line c := by
  refine ((load_gives slots.index line).bind fun i => (load_gives slots.limit line).bind fun l =>
    (loopItem_gives slots line isRange).bind fun item => (declare_gives slots.item line).bind fun d =>
    hb.bind fun a => (load_gives slots.index line).bind fun j =>
    (constant_gives (.int 1) (.plain rfl) line).bind fun one => (assign_gives slots.index line).bind fun s =>
    .ret (Assembly.countLoop (i ++ l ++ (if isRange then [] else Assembly.op .len line)
      ++ Assembly.op .lt line) (item ++ d) a (j ++ one ++ Assembly.op .add line ++ s) line)).mono ?_
  rintro K c - ⟨i, ⟨hi, rfl⟩, l, ⟨hl, rfl⟩, item, rfl, d, ⟨hd, rfl⟩, a, ha, j, ⟨-, rfl⟩, one,
    ⟨k, hk, hn, rfl⟩, s, ⟨-, rfl⟩, rfl⟩
  exact ⟨a, ha, hi, hl, hd, k, hk, hn, rfl⟩

end Loops

theorem binary_gives {left right : Emit Assembly} {L R : Lowering → Assembly → Prop} (o : BinaryOp)
    (tok : Token) (hl : Gives p D left L) (hr : Gives p D right R) :
    Gives p D (match o with
      | .and => return shortCircuit false (← left) (← right) tok.line
      | .or => return shortCircuit true (← left) (← right) tok.line
      | o =>
        match instruction? o with
        | none => unsupported tok ("operator " ++ o.symbol ++ " has no lowering")
        | some c => do
          let code ← left
          return code ++ ((← right) ++ Assembly.op c tok.line)) fun K c =>
      ∃ a b, L K a ∧ R K b ∧ Lowering.Binary o a b tok.line c := by
  have hboth : ∀ f : Assembly → Assembly → Assembly, Gives p D
      (do let a ← left; let b ← right; return f a b) fun K c => ∃ a b, L K a ∧ R K b ∧ c = f a b :=
    fun f => (hl.bind fun a => hr.bind fun b => .ret (f a b)).mono
      fun _ _ _ ⟨a, ha, b, hb, hc⟩ => ⟨a, b, ha, hb, hc⟩
  have hplain : ∀ i, Gives p D (do let a ← left; let b ← right; return a ++ (b ++ Assembly.op i tok.line))
      fun K c => ∃ a b, L K a ∧ R K b ∧ ∃ j, some i = some j ∧ c = a ++ (b ++ Assembly.op j tok.line) :=
    fun i => (hboth fun a b => a ++ (b ++ Assembly.op i tok.line)).mono
      fun _ _ _ ⟨a, b, ha, hb, hc⟩ => ⟨a, b, ha, hb, i, rfl, hc⟩
  cases o with
  | and => exact hboth fun a b => shortCircuit false a b tok.line
  | or => exact hboth fun a b => shortCircuit true a b tok.line
  | _ => first | exact hplain _ | exact .unsupported

theorem target_gives {info : CallInfo} {tok : Token} {callee : Emit Assembly}
    {k : Assembly → Emit Assembly} {C : Lowering → Assembly → Prop}
    {Q : Assembly → Lowering → Assembly → Prop} (hc : Gives p D callee C)
    (hk : ∀ t, Gives p D (k t) (Q t)) :
    Gives p D (match info.isStatic, info.target with
      | true, some c => do k (← constant ((← get).program.object c) tok.line)
      | true, none => do k (← unsupported tok "call has no resolved target")
      | false, _ => do k (← callee)) fun K c => ∃ t, K.Target info tok.line (C K) t ∧ Q t K c := by
  unfold Lowering.Target
  cases info.isStatic with
  | false => exact hc.bind hk
  | true =>
    cases info.target with
    | none => exact .refused
    | some c =>
      refine .ofGet fun s hs => ((constant_gives _ (hs.program.object c ▸ .object c) tok.line).bind hk).mono ?_
      rintro K a hp ⟨t, ht, hq⟩
      rw [hs.program.object] at ht
      exact ⟨t, hp ▸ ht, hq⟩

theorem part_gives {e : Expr .typed} {line : Int} {value : Emit Assembly}
    {k : Assembly → Emit Assembly} {V : Lowering → Assembly → Prop}
    {Q : Assembly → Lowering → Assembly → Prop} (hv : Gives p D value V)
    (hk : ∀ t, Gives p D (k t) (Q t)) :
    Gives p D (match e.stringValue? with
      | some s => do k (← constant (.str s) line)
      | none => do k (← (· ++ Assembly.op .toText line) <$> value)) fun K c =>
        ∃ a, (match e.stringValue? with
          | some s => K.Const (.str s) line a
          | none => ∃ v, V K v ∧ a = v ++ Assembly.op .toText line) ∧ Q a K c := by
  cases e.stringValue? with
  | some s => exact (constant_gives (.str s) (.plain rfl) line).bind hk
  | none =>
    rw [map_eq_pure_bind]
    exact (hv.bind fun v => .ret (v ++ Assembly.op .toText line)).bind hk

def Listed (D : FunDecl .typed → Prop) (ds : List (FunDecl .typed)) : Prop := ∀ d ∈ ds, D d

theorem Listed.left {ds es : List (FunDecl .typed)} (h : Listed D (ds ++ es)) : Listed D ds :=
  fun d hd => h d (List.mem_append_left es hd)

theorem Listed.right {ds es : List (FunDecl .typed)} (h : Listed D (ds ++ es)) : Listed D es :=
  fun d hd => h d (List.mem_append_right ds hd)

theorem Listed.head {d : FunDecl .typed} {ds : List (FunDecl .typed)} (h : Listed D (d :: ds)) :
    D d := h d List.mem_cons_self

theorem Listed.tail {d : FunDecl .typed} {ds : List (FunDecl .typed)} (h : Listed D (d :: ds)) :
    Listed D ds := fun e he => h e (List.mem_cons_of_mem d he)

theorem stmtsValue_cons_gives {l : Bool} {line : Int} {s : Stmt .typed} {ss : List (Stmt .typed)}
    (h : ∀ tok e, s = .expr tok e → ss ≠ [])
    (hs : Gives p D (stmt l s) fun K c => Lowers.stmt K l s c)
    (hss : Gives p D (stmtsValue l line ss) fun K c => Lowers.stmtsValue K l line ss c) :
    Gives p D (stmtsValue l line (s :: ss)) fun K c => Lowers.stmtsValue K l line (s :: ss) c := by
  have hne : ∀ tok e, s = .expr tok e → ss = [] → False := h
  rw [stmtsValue.eq_3 _ _ _ _ hne]
  refine (hs.bind fun a => hss.bind fun b => .ret (a ++ b)).mono ?_
  rintro K c - ⟨a, ha, b, hb, rfl⟩
  rw [Lowers.stmtsValue.eq_3 _ _ _ _ _ _ hne]
  exact ⟨a, b, ha, hb, rfl⟩

theorem body_cons_gives {isUnit : Bool} {line : Int} {s : Stmt .typed} {ss : List (Stmt .typed)}
    (h : ∀ tok e, s = .expr tok e → ss ≠ []) (h' : ∀ tok e, s = .ret tok e → ss ≠ [])
    (hs : Gives p D (stmt false s) fun K c => Lowers.stmt K false s c)
    (hss : Gives p D (body isUnit line ss) fun K c => Lowers.body K isUnit line ss c) :
    Gives p D (body isUnit line (s :: ss)) fun K c => Lowers.body K isUnit line (s :: ss) c := by
  have hne : ∀ tok e, s = .expr tok e → ss = [] → False := h
  have hne' : ∀ tok e, s = .ret tok e → ss = [] → False := h'
  rw [body.eq_4 _ _ _ _ hne' hne]
  refine (hs.bind fun a => hss.bind fun b => .ret (a ++ b)).mono ?_
  rintro K c - ⟨a, ha, b, hb, rfl⟩
  rw [Lowers.body.eq_4 _ _ _ _ _ _ hne' hne]
  exact ⟨a, b, ha, hb, rfl⟩

mutual

theorem expr_gives (l : Bool) : (e : Expr .typed) → Formed.expr p e → Listed D (Decls.expr e) →
    Gives p D (expr l e) fun K c => Lowers.expr K l e c
  | .name _ tok _ slot, _, _ => loadSlot_gives slot tok.line
  | .int _ tok n, _, _ => constant_gives (.int n) (.plain rfl) tok.line
  | .float _ tok x, _, _ => constant_gives (.float (.ofFloat x)) (.plain rfl) tok.line
  | .string _ tok s, _, _ => constant_gives (.str s) (.plain rfl) tok.line
  | .char _ tok c, _, _ => constant_gives (.char (Int32.ofNat c.toNat)) (.plain rfl) tok.line
  | .bool _ tok b, _, _ => constant_gives (.bool b) (.plain rfl) tok.line
  | .interpolated _ tok ps, hf, hd => by
    rw [expr]
    simp only [Lowers.expr]
    split
    · exact constant_gives (.str "") (.plain rfl) tok.line
    · refine ((parts_gives l tok.line ps hf hd).bind fun a => (joinParts_gives ps.length tok).bind
        fun b => .ret (a ++ b)).mono ?_
      rintro K c - ⟨a, ha, b, ⟨hn, f, hf, rfl⟩, rfl⟩
      exact ⟨hn, a, f, ha, hf, rfl⟩
  | .array _ tok es, hf, hd => by
    rw [expr]
    refine ((exprs_gives l es hf hd).bind fun a => (word_gives .makeArray es.length tok.line).bind
      fun b => .ret (a ++ b)).mono ?_
    rintro K c - ⟨a, ha, b, ⟨hn, rfl⟩, rfl⟩
    exact ⟨hn, a, ha, rfl⟩
  | .unary _ tok o right, hf, hd => by
    refine ((expr_gives l right hf hd).bind fun a =>
      .ret (a ++ Assembly.op (Lowering.unaryOp o) tok.line)).mono ?_
    rintro K c - ⟨a, ha, rfl⟩
    exact ⟨a, ha, rfl⟩
  | .binary _ tok o left right, hf, hd => by
    exact binary_gives o tok (expr_gives l left hf.1 hd.left) (expr_gives l right hf.2 hd.right)
  | .assign _ tok target value, hf, hd => by
    have hv := expr_gives l value hf.2 hd.right
    exact (store_gives l tok hv target hf.1 hd.left)
  | .call _ tok info callee args, hf, hd => by
    rw [expr]
    have hcallee := expr_gives l callee hf.2.1 hd.left
    have hfirst : Gives p D (if info.viaReceiver then (receiver l callee).getD (return [])
        else return []) fun K a =>
        if info.viaReceiver then Lowers.receiver K l callee a else a = [] := by
      split
      · exact receiver_gives l callee hf.2.1 hd.left
      · exact .ret []
    refine (hfirst.bind fun a => (exprs_gives l args hf.2.2 hd.right).bind fun b =>
      target_gives hcallee fun t =>
        (call_gives (args.length + if info.viaReceiver then 1 else 0) tok).bind fun c =>
          .ret (a ++ b ++ t ++ c)).mono ?_
    rintro K _ - ⟨a, ha, b, hb, t, ht, c, ⟨hn, rfl⟩, rfl⟩
    exact ⟨hn, a, b, t, ha, hb, ht, rfl⟩
  | .member _ _ left field, hf, hd => by
    refine ((expr_gives l left hf hd).bind fun a =>
      (named_gives .getField field.text field.token.line).bind fun b => .ret (a ++ b)).mono ?_
    rintro K c - ⟨a, ha, b, hb, rfl⟩
    exact ⟨a, b, ha, hb, rfl⟩
  | .index _ tok left index, hf, hd => by
    refine ((expr_gives l left hf.1 hd.left).bind fun a => (expr_gives l index hf.2 hd.right).bind
      fun b => .ret (a ++ b ++ Assembly.op .getIndex tok.line)).mono ?_
    rintro K c - ⟨a, ha, b, hb, rfl⟩
    exact ⟨a, b, ha, hb, rfl⟩
  | .new _ tok t _ fields, hf, hd => by
    refine ((ordered_gives (inits_gives l fields hf.2.2 hd) t.fields).bind fun a =>
      (build_gives hf.1 tok).bind fun b => .ret (a ++ b)).mono ?_
    rintro K c - ⟨a, ha, b, hb, rfl⟩
    exact ⟨a, b, ha, hb, rfl⟩
  | .tryUnwrap _ tok value, hf, hd => by
    refine ((expr_gives l value hf hd).bind fun a =>
      .ret (a ++ Assembly.op .unwrapOrReturn tok.line)).mono ?_
    rintro K c - ⟨a, ha, rfl⟩
    exact ⟨a, ha, rfl⟩
  | .range .., _, _ => .unsupported
  | .block b, hf, hd => blockValue_gives l b hf hd
  | .cond _ tok test body none, hf, hd => by
    refine ((expr_gives l test hf.1 hd.left).bind fun t =>
      (block_gives l body hf.2.1 hd.right.left).bind fun y =>
        .ret (t ++ Assembly.guarded y tok.line ++ Assembly.op .unit tok.line)).mono ?_
    rintro K c - ⟨t, ht, y, hy, rfl⟩
    exact ⟨t, ht, y, hy, rfl⟩
  | .cond _ tok test body (some alt), hf, hd => by
    refine ((expr_gives l test hf.1 hd.left).bind fun t =>
      (blockValue_gives l body hf.2.1 hd.right.left).bind fun y =>
        (optional_gives l (some alt) hf.2.2 hd.right.right alt rfl).bind fun n =>
          .ret (t ++ Assembly.choice y n tok.line)).mono ?_
    rintro K c - ⟨t, ht, y, hy, n, hn, rfl⟩
    exact ⟨t, ht, y, n, hy, hn, rfl⟩
  | .cases _ tok subject decl as, hf, hd => by
    refine ((expr_gives l subject hf.1 hd.left).bind fun s =>
      (declare_gives decl tok.line).bind fun d =>
        (arms_gives l tok.line ((load_gives decl tok.line).mono
          fun _ _ _ h => h.2) as hf.2 hd.right).bind fun a =>
          .ret (s ++ d ++ a)).mono ?_
    rintro K c - ⟨s, hs, d, ⟨hn, rfl⟩, a, ha, rfl⟩
    exact ⟨hn, s, a, hs, ha, rfl⟩

theorem exprs_gives (l : Bool) : (es : List (Expr .typed)) → Formed.exprs p es →
    Listed D (Decls.exprs es) → Gives p D (exprs l es) fun K c => Lowers.exprs K l es c
  | [], _, _ => .ret []
  | e :: es, hf, hd => by
    refine ((expr_gives l e hf.1 hd.left).bind fun a => (exprs_gives l es hf.2 hd.right).bind
      fun b => .ret (a ++ b)).mono ?_
    rintro K c - ⟨a, ha, b, hb, rfl⟩
    exact ⟨a, b, ha, hb, rfl⟩

theorem optional_gives (l : Bool) : (alt : Option (Expr .typed)) → Formed.option p alt →
    Listed D (Decls.option alt) → ∀ e, alt = some e →
      Gives p D (expr l e) fun K c => Lowers.expr K l e c
  | none, _, _, _, h => nomatch h
  | some e, hf, hd, _, h => Option.some.inj h ▸ expr_gives l e hf hd

theorem receiver_gives (l : Bool) (e : Expr .typed) (hf : Formed.expr p e)
    (hd : Listed D (Decls.expr e)) :
    Gives p D ((receiver l e).getD (return [])) fun K c => Lowers.receiver K l e c := by
  cases e with
  | member _ _ left _ => exact expr_gives l left hf hd
  | _ => exact .ret []

theorem store_gives (l : Bool) (tok : Token) {value : Emit Assembly} {V : Lowering → Assembly → Prop}
    (hv : Gives p D value V) (e : Expr .typed) (hf : Formed.expr p e)
    (hd : Listed D (Decls.expr e)) :
    Gives p D (store l tok value e) fun K c => ∃ v, V K v ∧ Lowers.store K l tok v e c := by
  cases e with
  | name _ t _ slot =>
    refine (hv.bind fun v => (storeSlot_gives slot t.line).bind fun s =>
      .ret (v ++ Assembly.op .dup tok.line ++ s)).mono ?_
    rintro K c - ⟨v, hv, s, ⟨hn, rfl⟩, rfl⟩
    exact ⟨v, hv, hn, rfl⟩
  | member _ _ left field =>
    refine ((expr_gives l left hf hd).bind fun o => hv.bind fun v =>
      (named_gives .setField field.text tok.line).bind fun s =>
        .ret (o ++ Assembly.op .dup tok.line ++ v ++ s ++ Assembly.op .popBelow tok.line)).mono ?_
    rintro K c - ⟨o, ho, v, hv, s, hs, rfl⟩
    exact ⟨v, hv, o, s, ho, hs, rfl⟩
  | _ => exact .unsupported

theorem parts_gives (l : Bool) (line : Int) : (es : List (Expr .typed)) → Formed.exprs p es →
    Listed D (Decls.exprs es) → Gives p D (parts l line es) fun K c => Lowers.parts K l line es c
  | [], _, _ => .ret []
  | e :: es, hf, hd => by
    rw [parts]
    refine (part_gives (expr_gives l e hf.1 hd.left) fun a =>
      (parts_gives l line es hf.2 hd.right).bind fun b => .ret (a ++ b)).mono ?_
    rintro K c - ⟨a, ha, b, hb, rfl⟩
    exact ⟨a, b, ha, hb, rfl⟩

theorem inits_gives (l : Bool) : (fs : List (FieldInit .typed)) → Formed.inits p fs →
    Listed D (Decls.inits fs) → ∀ f, Gives p D (((inits l fs).lookup f).getD (return [])) fun K c =>
      (((Lowers.inits K l fs).lookup f).getD (· = [])) c
  | [], _, _, _ => .ret []
  | .mk _ name value :: fs, hf, hd, f => by
    have hfirst := expr_gives l value hf.1 hd.left
    have hrest := inits_gives l fs hf.2 hd.right f
    simp only [inits, Lowers.inits, List.lookup_cons]
    cases f == name with
    | true => exact hfirst
    | false => exact hrest

theorem arms_gives (l : Bool) (line : Int) {subject : Emit Assembly}
    {S : Lowering → Assembly → Prop} (hs : Gives p D subject S) : (as : List (Arm .typed)) →
    Formed.arms p as → Listed D (Decls.arms as) →
      Gives p D (arms l subject line as) fun K c => Lowers.arms K l (S K) line as c
  | [], _, _ => .ret _
  | .mk tok pat body :: as, hf, hd => by
    refine ((pattern_gives l hs pat hf.1 hd.left).bind fun t =>
      (expr_gives l body hf.2.1 hd.right.left).bind fun b =>
        (arms_gives l line hs as hf.2.2 hd.right.right).bind fun r =>
          .ret (Assembly.arm t b r tok.line)).mono ?_
    rintro K c - ⟨t, ht, b, hb, r, hr, rfl⟩
    exact ⟨t, b, r, ht, hb, hr, rfl⟩

theorem pattern_gives (l : Bool) {subject : Emit Assembly} {S : Lowering → Assembly → Prop}
    (hs : Gives p D subject S) : (q : Pattern .typed) → Formed.pattern p q →
    Listed D (Decls.pattern q) →
      Gives p D (pattern l subject q) fun K c => Lowers.pattern K l (S K) q c
  | .wildcard _, _, _ => .ret []
  | .bind name decl, _, _ => by
    refine (hs.bind fun s => (declare_gives decl name.token.line).bind fun d =>
      .ret (s ++ d)).mono ?_
    rintro K c - ⟨s, hs, d, ⟨hn, rfl⟩, rfl⟩
    exact ⟨hn, s, hs, rfl⟩
  | .literal tok value, hf, hd => by
    refine (hs.bind fun s => (expr_gives l value hf hd).bind fun v =>
      .ret (s ++ v ++ Assembly.op .eq tok.line ++ [⟨tok.line, .exit .miss⟩])).mono ?_
    rintro K c - ⟨s, hs, v, hv, rfl⟩
    exact ⟨s, v, hs, hv, rfl⟩
  | .ctor tok test _ args, hf, hd => by
    rw [pattern]
    refine (hs.bind fun s => (named_gives .checkType test.tag tok.line).bind (Q := fun t K c =>
      args.length ≤ test.fields.length ∧ ∃ r, Lowers.patterns K l (S K) tok.line test.fields args r ∧
        c = s ++ t ++ [⟨tok.line, .exit .miss⟩] ++ r) fun t => ?_).mono ?_
    · dsimp only
      split
      · exact .refused
      · rename_i hcount
        refine ((patterns_gives l tok.line hs test.fields args hf hd).bind fun r =>
          .ret (s ++ t ++ [⟨tok.line, .exit .miss⟩] ++ r)).mono ?_
        rintro K c - hc
        exact ⟨Nat.le_of_not_lt hcount, hc⟩
    · rintro K c - ⟨s, hs, t, ht, hcount, r, hr, rfl⟩
      exact ⟨hcount, s, t, r, hs, ht, hr, rfl⟩

theorem patterns_gives (l : Bool) (line : Int) {subject : Emit Assembly}
    {S : Lowering → Assembly → Prop} (hs : Gives p D subject S) : (fs : List String) →
    (qs : List (Pattern .typed)) → Formed.patterns p qs → Listed D (Decls.patterns qs) →
      Gives p D (patterns l subject line fs qs) fun K c => Lowers.patterns K l (S K) line fs qs c
  | [], [], _, _ | [], _ :: _, _, _ | _ :: _, [], _, _ => .ret []
  | f :: fs, q :: qs, hf, hd => by
    have hfield : Gives p D (do let code ← subject; return code ++ (← named .getField f line))
        fun K x => ∃ s n, S K s ∧ K.Named .getField f line n ∧ x = s ++ n := by
      refine (hs.bind fun s => (named_gives .getField f line).bind fun n => .ret (s ++ n)).mono ?_
      rintro K c - ⟨s, hs, n, hn, rfl⟩
      exact ⟨s, n, hs, hn, rfl⟩
    refine ((pattern_gives l hfield q hf.1 hd.left).bind fun a =>
      (patterns_gives l line hs fs qs hf.2 hd.right).bind fun b => .ret (a ++ b)).mono ?_
    rintro K c - ⟨a, ha, b, hb, rfl⟩
    exact ⟨a, b, ha, hb, rfl⟩

theorem block_gives (l : Bool) : (b : Block .typed) → Formed.block p b → Listed D (Decls.block b) →
    Gives p D (block l b) fun K c => Lowers.block K l b c
  | .mk _ _ ss _, hf, hd => stmts_gives l ss hf hd

theorem blockValue_gives (l : Bool) : (b : Block .typed) → Formed.block p b →
    Listed D (Decls.block b) → Gives p D (blockValue l b) fun K c => Lowers.blockValue K l b c
  | .mk _ _ ss close, hf, hd => stmtsValue_gives l close.line ss hf hd

theorem stmts_gives (l : Bool) : (ss : List (Stmt .typed)) → Formed.stmts p ss →
    Listed D (Decls.stmts ss) → Gives p D (stmts l ss) fun K c => Lowers.stmts K l ss c
  | [], _, _ => .ret []
  | s :: ss, hf, hd => by
    refine ((stmt_gives l s hf.1 hd.left).bind fun a => (stmts_gives l ss hf.2 hd.right).bind
      fun b => .ret (a ++ b)).mono ?_
    rintro K c - ⟨a, ha, b, hb, rfl⟩
    exact ⟨a, b, ha, hb, rfl⟩

theorem stmtsValue_gives (l : Bool) (line : Int) : (ss : List (Stmt .typed)) → Formed.stmts p ss →
    Listed D (Decls.stmts ss) →
      Gives p D (stmtsValue l line ss) fun K c => Lowers.stmtsValue K l line ss c
  | [], _, _ => .ret _
  | s :: ss, hf, hd => by
    have hs := stmt_gives l s hf.1 hd.left
    have hss := stmtsValue_gives l line ss hf.2 hd.right
    cases s with
    | expr tok e =>
      cases ss with
      | nil => exact expr_gives l e hf.1 hd.left
      | cons => exact stmtsValue_cons_gives (by simp) hs hss
    | _ => exact stmtsValue_cons_gives (by simp) hs hss

theorem body_gives (isUnit : Bool) (line : Int) : (ss : List (Stmt .typed)) → Formed.stmts p ss →
    Listed D (Decls.stmts ss) →
      Gives p D (body isUnit line ss) fun K c => Lowers.body K isUnit line ss c
  | [], _, _ => .ret _
  | s :: ss, hf, hd => by
    have hs := stmt_gives false s hf.1 hd.left
    have hss := body_gives isUnit line ss hf.2 hd.right
    cases s with
    | expr tok e =>
      cases ss with
      | nil =>
        have he := expr_gives false e hf.1 hd.left
        cases isUnit with
        | true =>
          refine (enter_gives tok).andThen fun _ => (he.bind fun a => .ret (a
            ++ Assembly.op .pop tok.line ++ Assembly.op .unit line ++ Assembly.op .ret line)).mono ?_
          rintro K c - ⟨a, ha, rfl⟩
          exact ⟨a, ha, rfl⟩
        | false =>
          refine (he.bind fun a => .ret (a ++ Assembly.op .ret tok.line)).mono ?_
          rintro K c - ⟨a, ha, rfl⟩
          exact ⟨a, ha, rfl⟩
      | cons => exact body_cons_gives (by simp) (by simp) hs hss
    | ret tok value =>
      cases ss with
      | nil => exact returned_gives false tok value hf.1 hd.left
      | cons => exact body_cons_gives (by simp) (by simp) hs hss
    | _ => exact body_cons_gives (by simp) (by simp) hs hss

theorem returned_gives (l : Bool) (tok : Token) : (e : Option (Expr .typed)) → Formed.option p e →
    Listed D (Decls.option e) → Gives p D (returned l tok e) fun K c => Lowers.returned K l tok e c
  | none, _, _ => .ret _
  | some e, hf, hd => by
    refine ((expr_gives l e hf hd).bind fun a => .ret (a ++ Assembly.op .ret tok.line)).mono ?_
    rintro K c - ⟨a, ha, rfl⟩
    exact ⟨a, ha, rfl⟩

theorem func_gives : (d : FunDecl .typed) → Formed.func p d → Listed D (Decls.func d) →
    Gives p D (func d) fun K _ => K.compiled d
  | .mk tok nm info self params r (.mk n bt ss close), hf, hd => by
    refine withBody_gives (d := .mk tok nm info self params r (.mk n bt ss close)) hd.head ?_
    intro f g hg hbare
    have hresult : f.result = g.result :=
      (congrArg UserFunction.result hbare : f.bare.result = g.bare.result)
    have hbody := body_gives (f.result.isUnknown || f.result.isUnit) close.line ss hf hd.tail
    have hcells := paramCells_gives (p := p) (D := D) tok.line Param.decl params
    -- the receiver's cell, if there is one, comes first
    cases hself : info.self with
    | none =>
      refine (hcells.bind fun cs => hbody.bind fun a => .ret ([] ++ cs.flatten ++ a)).mono ?_
      rintro K c - ⟨cs, ⟨haddr, hcs⟩, a, ha, rfl⟩
      rw [hresult] at ha
      rw [Lowers.func, hself]
      exact ⟨haddr, a, ha, by rw [hcs]; rfl⟩
    | some b =>
      refine ((paramCell_gives b tok.line).bind fun s => hcells.bind fun cs => hbody.bind fun a =>
        .ret (s ++ cs.flatten ++ a)).mono ?_
      rintro K c - ⟨s, ⟨hb, rfl⟩, cs, ⟨haddr, hcs⟩, a, ha, rfl⟩
      rw [hresult] at ha
      rw [Lowers.func, hself]
      refine ⟨?_, a, ha, by rw [hcs]; rfl⟩
      intro x hx
      rcases List.mem_cons.mp hx with rfl | hx
      · exact hb
      · exact haddr x hx

theorem funcs_gives : (ds : List (FunDecl .typed)) → Formed.funcs p ds → Listed D (Decls.funcs ds) →
    Gives p D (funcs ds) fun K _ => ∀ d ∈ ds, K.compiled d
  | [], _, _ => .pure fun _ _ => by simp
  | d :: ds, hf, hd => by
    refine ((func_gives d hf.1 hd.left).bind fun _ => funcs_gives ds hf.2 hd.right).mono ?_
    rintro K _ - ⟨_, h, hs⟩
    simpa using ⟨h, hs⟩

theorem bounds_gives (l : Bool) (e : Expr .typed) (hf : Formed.expr p e)
    (hd : Listed D (Decls.expr e)) : match bounds l e with
    | none => ∀ K, Lowers.bounds K l e = none
    | some (lo, hi) => ∃ L H : Lowering → Assembly → Prop,
        (∀ K, Lowers.bounds K l e = some (L K, H K)) ∧ Gives p D lo L ∧ Gives p D hi H := by
  cases e with
  | range _ _ start stop =>
    exact ⟨_, _, fun _ => rfl, expr_gives l start hf.1 hd.left, expr_gives l stop hf.2 hd.right⟩
  | _ => exact fun _ => rfl

theorem stmt_gives (l : Bool) : (s : Stmt .typed) → Formed.stmt p s → Listed D (Decls.stmt s) →
    Gives p D (stmt l s) fun K c => Lowers.stmt K l s c
  | .expr tok e, hf, hd => by
    refine (enter_gives tok).andThen fun _ => ((expr_gives l e hf hd).bind fun a =>
      .ret (a ++ Assembly.op .pop tok.line)).mono ?_
    rintro K c - ⟨a, ha, rfl⟩
    exact ⟨a, ha, rfl⟩
  | .bind tok _ decl _ value, hf, hd => by
    refine (enter_gives tok).andThen fun _ => ((expr_gives l value hf hd).bind fun a =>
      (declare_gives decl tok.line).bind fun d => .ret (a ++ d)).mono ?_
    rintro K c - ⟨a, ha, d, ⟨hn, rfl⟩, rfl⟩
    exact ⟨hn, a, ha, rfl⟩
  | .block b, hf, hd => (enter_gives b.token).andThen fun _ => block_gives l b hf hd
  | .ret tok value, hf, hd => (enter_gives tok).andThen fun _ => returned_gives l tok value hf hd
  | .loop tok test b, hf, hd => by
    refine (enter_gives tok).andThen fun _ => ((expr_gives l test hf.1 hd.left).bind fun t =>
      (block_gives true b hf.2 hd.right).bind fun a =>
        .ret (Assembly.whileLoop t a tok.line)).mono ?_
    rintro K c - ⟨t, ht, a, ha, rfl⟩
    exact ⟨t, a, ht, ha, rfl⟩
  | .each tok _ slots series b, hf, hd => by
    have hloop := fun isRange => eachLoop_gives slots tok.line isRange
      (block_gives true b hf.2 hd.right)
    have hseries := expr_gives l series hf.1 hd.left
    have hbounds := bounds_gives l series hf.1 hd.left
    rw [stmt]
    refine (enter_gives tok).andThen fun _ => ?_
    dsimp only
    cases hrange : bounds l series with
    | none =>
      rw [hrange] at hbounds
      refine ((walkArray_gives slots tok.line hseries).bind fun start => (hloop false).bind fun c =>
        .ret (start ++ c)).mono ?_
      rintro K _ - ⟨start, ⟨hi, hl, x, z, hx, hz, rfl⟩, c, ⟨a, ha, hc⟩, rfl⟩
      rw [Lowers.stmt, hbounds K]
      exact ⟨hi, hl, _, a, c, ha, hc, rfl, x, z, hx, hz, rfl⟩
    | some range =>
      obtain ⟨lo, hi⟩ := range
      rw [hrange] at hbounds
      obtain ⟨L, H, hlowers, hlo, hhi⟩ := hbounds
      refine ((walkRange_gives slots tok.line hlo hhi).bind fun start => (hloop true).bind fun c =>
        .ret (start ++ c)).mono ?_
      rintro K _ - ⟨start, ⟨hi, hl, x, y, hx, hy, rfl⟩, c, ⟨a, ha, hc⟩, rfl⟩
      rw [Lowers.stmt, hlowers K]
      exact ⟨hi, hl, _, a, c, ha, hc, rfl, x, y, hx, hy, rfl⟩
  | .leave tok, _, _ => by
    refine (enter_gives tok).andThen fun _ => ?_
    cases l with
    | true => exact .pure fun _ _ => ⟨rfl, rfl⟩
    | false => exact .unsupported
  | .next tok, _, _ => by
    refine (enter_gives tok).andThen fun _ => ?_
    cases l with
    | true => exact .pure fun _ _ => ⟨rfl, rfl⟩
    | false => exact .unsupported
  | .func d, hf, hd => by
    refine (enter_gives d.token).andThen fun _ => ((func_gives d hf hd).bind fun _ =>
      nested_gives d.info d.token).mono ?_
    rintro K c - ⟨_, hcompiled, hc⟩
    exact ⟨hcompiled, hc⟩
  | .impl tok _ ds, hf, hd => by
    refine (enter_gives tok).andThen fun _ => ((funcs_gives ds hf hd).bind fun _ => .ret []).mono ?_
    rintro K c - ⟨_, hcompiled, hc⟩
    exact ⟨hcompiled, hc⟩
  | .record tok _ _, _, _ | .union tok _ _, _, _ | .use tok _, _, _ =>
    (enter_gives tok).andThen fun _ => .ret []

end

end Scripting.Emit
