import Scripting.Proofs.Scope.Touches
import Scripting.Proofs.Script.Lowers

/-!
# What code does with variables

`Lowering.Does` says of one instruction that it touches nothing but what a tree touches, and in which
way. The code of a tree is made of such instructions.
-/

namespace Scripting

def Opcode.touches : Opcode → Bool
  | .getLocal | .setLocal | .getGlobal | .setGlobal | .makeCell | .getCell | .setCell
  | .getUpvalue | .setUpvalue => true
  | _ => false

def Asm.Quiet : Asm → Prop
  | .op c _ => c.touches = false
  | .closure .. => False
  | .skip _ | .skipIfFalse _ | .back _ | .exit _ => True

/-- What an instruction does with the variables that code touches. The name of a function is stored
only if it is a variable of a frame. -/
inductive Lowering.Does (K : Lowering) (u : Touches) : Asm → Prop
  | quiet {a : Asm} (touches : a.Quiet) : Does K u a
  | reads {s : Slot} (used : .uses s ∈ u.items) : Does K u (.op (K.loadSlotOp s) [s.index])
  | writes {s : Slot} (used : .uses s ∈ u.items) (stored : .assigns s ∈ u.stores) :
      Does K u (.op (K.storeSlotOp s) [s.index])
  | loads {b : BindingId} (declared : .declares b ∈ u.stores) :
      Does K u (.op (loadOp (K.program.binding b)) [(K.program.binding b).index])
  | declares {b : BindingId} (declared : .declares b ∈ u.stores) :
      Does K u (.op (declareOp (K.program.binding b)) [(K.program.binding b).index])
  | assigns {b : BindingId} (declared : .declares b ∈ u.stores) :
      Does K u (.op (assignOp (K.program.binding b)) [(K.program.binding b).index])
  /-- Reads a parameter that has no cell yet. -/
  | takes {b : BindingId} (declared : .declares b ∈ u.stores) :
      Does K u (.op .getLocal [(K.program.binding b).index])
  | names {b : BindingId} {c : Opcode} (named : .names b ∈ u.stores)
      (frame : (K.program.binding b).storage = .frame)
      (stores : c = declareOp (K.program.binding b) ∨ c = assignOp (K.program.binding b)) :
      Does K u (.op c [(K.program.binding b).index])
  | makes {info : FunSlots} {f : UserFunction} {k : Nat} (made : .makes info ∈ u.items)
      (listed : K.program.funs[info.id]? = some f)
      (held : K.Holds k ((f.ref.map Value.func).getD .absent)) :
      Does K u (.closure k (info.free.map fun v => ⟨v.fromFrame, v.index⟩))

def Lowering.DoesAll (K : Lowering) (u : Touches) (c : Assembly) : Prop :=
  ∀ l ∈ c, K.Does u l.asm

namespace Lowering

open Assembly (op)

variable {K : Lowering} {u : Touches} {a b c : Assembly}

namespace DoesAll

theorem nil : K.DoesAll u [] := fun _ h => nomatch h

theorem append (ha : K.DoesAll u a) (hb : K.DoesAll u b) : K.DoesAll u (a ++ b) :=
  List.forall_mem_append.mpr ⟨ha, hb⟩

theorem single {line : Int} {x : Asm} (h : K.Does u x) : K.DoesAll u [⟨line, x⟩] :=
  List.forall_mem_singleton.mpr h

theorem still {line : Int} {x : Asm} (h : x.Quiet) : K.DoesAll u [⟨line, x⟩] := single (.quiet h)

theorem const {v : Value} {line : Int} (h : K.Const v line c) : K.DoesAll u c := by
  obtain ⟨k, -, -, rfl⟩ := h
  exact still (by rfl)

theorem named {o : Opcode} {name : String} {line : Int} (ho : (Asm.op o []).Quiet)
    (h : K.Named o name line c) : K.DoesAll u c := by
  obtain ⟨k, -, -, rfl⟩ := h
  exact still ho

theorem load {d : BindingId} {line : Int} (hd : .declares d ∈ u.stores) :
    K.DoesAll u (K.load d line) := single (.loads hd)

theorem declare {d : BindingId} {line : Int} (hd : .declares d ∈ u.stores) :
    K.DoesAll u (K.declare d line) := single (.declares hd)

theorem settle (k : Exit) {j : Nat → Nat → Asm} (hjump : ∀ before behind, (j before behind).Quiet)
    (h : K.DoesAll u c) : K.DoesAll u (c.settle k j) := by
  intro l hl
  obtain ⟨i, hi, rfl⟩ := List.mem_mapIdx.mp hl
  have hold := h _ (List.getElem_mem hi)
  split
  · split
    · exact .quiet (hjump _ _)
    · exact hold
  · exact hold

theorem guarded {line : Int} (h : K.DoesAll u c) : K.DoesAll u (Assembly.guarded c line) :=
  (still (x := .skipIfFalse _) trivial).append h

theorem choice {line : Int} (ha : K.DoesAll u a) (hb : K.DoesAll u b) :
    K.DoesAll u (Assembly.choice a b line) :=
  (((still (x := .skipIfFalse _) trivial).append ha).append (still (x := .skip _) trivial)).append hb

theorem arm {line : Int} (ha : K.DoesAll u a) (hb : K.DoesAll u b) (hc : K.DoesAll u c) :
    K.DoesAll u (Assembly.arm a b c line) :=
  (((ha.settle .miss (j := fun _ behind => .skipIfFalse (behind + b.length + 1))
    fun _ _ => trivial).append hb).append (still (x := .skip _) trivial)).append hc

theorem whileLoop {line : Int} (ha : K.DoesAll u a) (hb : K.DoesAll u b) :
    K.DoesAll u (Assembly.whileLoop a b line) := by
  have hbody := (hb.settle .leave (j := fun _ behind => .skip (behind + 1))
    fun _ _ => trivial).settle .next (j := fun before _ => .back (a.length + 1 + before))
      fun _ _ => trivial
  exact ((ha.append (still (x := .skipIfFalse _) trivial)).append hbody).append
    (still (x := .back _) trivial)

theorem countLoop {line : Int} {step : Assembly} (ha : K.DoesAll u a) (hb : K.DoesAll u b)
    (hc : K.DoesAll u c) (hstep : K.DoesAll u step) :
    K.DoesAll u (Assembly.countLoop a b c step line) := by
  have hbody := (hc.settle .leave (j := fun _ behind => .skip (behind + step.length + 1))
    fun _ _ => trivial).settle .next (j := fun _ behind => .skip behind) fun _ _ => trivial
  exact ((ha.append (still (x := .skipIfFalse _) trivial)).append ((hb.append hbody).append hstep)).append
    (still (x := .back _) trivial)

theorem binary {o : BinaryOp} {line : Int} (ha : K.DoesAll u a) (hb : K.DoesAll u b)
    (h : Binary o a b line c) : K.DoesAll u c := by
  have hshort : ∀ isOr, K.DoesAll u (Emit.shortCircuit isOr a b line) := fun isOr => by
    refine ((ha.append (still (by rfl))).append ?_).append
      (guarded ((still (by rfl)).append hb))
    split
    · exact still (by rfl)
    · exact nil
  have hplain : (∃ i, Emit.instruction? o = some i ∧ c = a ++ (b ++ op i line)) → K.DoesAll u c := by
    rintro ⟨i, hi, rfl⟩
    refine ha.append (hb.append (still ?_))
    cases o <;> cases hi <;> rfl
  cases o with
  | and => exact h ▸ hshort false
  | or => exact h ▸ hshort true
  | _ => exact hplain h

theorem ordered {inits : List (String × (Assembly → Prop))}
    (hinits : ∀ x ∈ inits, ∀ c, x.2 c → K.DoesAll u c) : {fs : List String} → {c : Assembly} →
      Ordered inits fs c → K.DoesAll u c
  | [], _, h => by
    obtain rfl := h
    exact nil
  | f :: fs, _, h => by
    obtain ⟨a, b, ha, hb, rfl⟩ := h
    refine append ?_ (ordered hinits hb)
    cases hf : inits.lookup f with
    | none =>
      rw [hf] at ha
      obtain rfl : a = [] := ha
      exact nil
    | some P =>
      rw [hf] at ha
      obtain ⟨l₁, l₂, rfl, -⟩ := List.lookup_eq_some_iff.mp hf
      exact hinits (f, P) (by simp) a ha

theorem build {t : Template} {line : Int} (h : K.Build t line c) : K.DoesAll u c := by
  obtain ⟨-, k, v, -, -, -, rfl⟩ := h
  exact still (by rfl)

theorem nested {info : FunSlots} {line : Int} (h : K.Nested info line c)
    (hmade : .makes info ∈ u.items) (hnamed : ∀ d, info.binding = some d → .names d ∈ u.stores) :
    K.DoesAll u c := by
  have hclosure : ∀ f, K.Closure info line f → K.DoesAll u f := by
    intro f hf
    rw [Closure] at hf
    split at hf
    · exact hf ▸ nil
    · rename_i g hg
      obtain ⟨-, -, k, hk, -, rfl⟩ := hf
      exact single (.makes hmade hg hk)
  rw [Nested] at h
  split at h
  · exact h ▸ nil
  · rename_i d hd
    have hd := hnamed d hd
    split at h
    · exact h ▸ nil
    · rename_i hstorage hcaptured
      obtain ⟨-, f, hf, rfl⟩ := h
      have hmake : K.Does u (.op .makeCell [(K.program.binding d).index]) :=
        .names hd hstorage (.inl (by rw [declareOp, hstorage, hcaptured]))
      have hset : K.Does u (.op .setCell [(K.program.binding d).index]) :=
        .names hd hstorage (.inr (by rw [assignOp, hstorage, hcaptured]))
      exact (((still (by rfl)).append (single hmake)).append (hclosure f hf)).append (single hset)
    · rename_i hstorage hcaptured
      obtain ⟨-, f, hf, rfl⟩ := h
      have hset : K.Does u (.op .setLocal [(K.program.binding d).index]) :=
        .names hd hstorage (.inl (by rw [declareOp, hstorage, hcaptured]))
      exact (hclosure f hf).append (single hset)

end DoesAll

end Lowering

namespace Lowers

open Lowering (DoesAll)

variable {K : Lowering} {u : Touches}

theorem store_does {tok : Token} {v c : Assembly} {b : Bool} (e : Expr .typed)
    (hv : K.DoesAll u v) (hleft : ∀ c, receiver K b e c → K.DoesAll u c)
    (hname : ∀ {n tok text s}, e = .name n tok text s → .uses s ∈ u.items ∧ .assigns s ∈ u.stores)
    (h : store K b tok v e c) : K.DoesAll u c := by
  cases e with
  | name n t text s =>
    obtain ⟨-, rfl⟩ := h
    exact (hv.append (.still (by rfl))).append
      (.single (.writes (hname rfl).1 (hname rfl).2))
  | member n t left field =>
    obtain ⟨o, f, ho, hf, rfl⟩ := h
    exact ((((hleft o ho).append (.still (by rfl))).append hv).append
      (.named (by rfl) hf)).append (.still (by rfl))
  | _ => exact h.elim

mutual

theorem expr_does : (e : Expr .typed) → ∀ ⦃b : Bool⦄ ⦃c : Assembly⦄, expr K b e c →
    (Touches.expr e).Within u → K.DoesAll u c
  | .name _ _ _ s => by
    intro _ _ h hin
    obtain ⟨-, rfl⟩ := h
    exact .single (.reads (hin.items List.mem_cons_self))
  | .int .. | .float .. | .string .. | .char .. | .bool .. => fun _ _ h _ => .const h
  | .interpolated _ _ ps => by
    intro _ _ h hin
    rw [expr] at h
    split at h
    · exact .const h
    · obtain ⟨-, a, f, ha, hf, rfl⟩ := h
      exact (parts_does ps ha hin).append ((DoesAll.const hf).append (.still (by rfl)))
  | .array _ _ es => by
    intro _ _ h hin
    obtain ⟨-, a, ha, rfl⟩ := h
    exact (exprs_does es ha hin).append (.still (by rfl))
  | .unary _ _ o e => by
    intro _ _ h hin
    obtain ⟨a, ha, rfl⟩ := h
    refine (expr_does e ha hin).append (.still ?_)
    cases o <;> rfl
  | .binary _ _ _ l r => by
    intro _ _ h hin
    obtain ⟨a, b, ha, hb, h⟩ := h
    exact .binary (expr_does l ha hin.left) (expr_does r hb hin.right) h
  | .assign _ _ l r => by
    intro _ _ h hin
    obtain ⟨v, hv, h⟩ := h
    have hparts : Touches.Within ⟨Items.expr l ++ Items.expr r, Stores.expr l ++ Stores.expr r⟩ u :=
      ⟨hin.items, (List.append_subset.mp hin.stores).2⟩
    refine store_does l (expr_does r hv hparts.right) (fun c hc => receiver_does l hc hparts.left)
      ?_ h
    rintro n tok text s rfl
    exact ⟨hin.items List.mem_cons_self, hin.stores List.mem_cons_self⟩
  | .call _ _ info f es => by
    intro _ _ h hin
    obtain ⟨-, a, b, t, ha, hb, ht, rfl⟩ := h
    refine ((DoesAll.append ?_ (exprs_does es hb hin.right)).append ?_).append
      (.still (by rfl))
    · split at ha
      · exact receiver_does f ha hin.left
      · exact ha ▸ .nil
    · rw [Lowering.Target] at ht
      split at ht
      · exact .const ht
      · exact ht.elim
      · exact expr_does f ht hin.left
  | .member _ _ left _ => by
    intro _ _ h hin
    obtain ⟨a, b, ha, hb, rfl⟩ := h
    exact (expr_does left ha hin).append (.named (by rfl) hb)
  | .index _ _ l i => by
    intro _ _ h hin
    obtain ⟨a, b, ha, hb, rfl⟩ := h
    exact ((expr_does l ha hin.left).append (expr_does i hb hin.right)).append
      (.still (by rfl))
  | .new _ _ _ _ fs => by
    intro _ _ h hin
    obtain ⟨a, b, ha, hb, rfl⟩ := h
    exact (DoesAll.ordered (inits_does fs hin) ha).append (.build hb)
  | .tryUnwrap _ _ e => by
    intro _ _ h hin
    obtain ⟨a, ha, rfl⟩ := h
    exact (expr_does e ha hin).append (.still (by rfl))
  | .range .. => fun _ _ h _ => h.elim
  | .block b => fun _ _ h hin => blockValue_does b h hin
  | .cond _ _ test body alt => by
    rintro _ _ ⟨t, ht, h⟩ hin
    have htest := expr_does test ht hin.left
    cases alt with
    | none =>
      obtain ⟨y, hy, rfl⟩ := h
      exact (htest.append (.guarded (block_does body hy hin.right.left))).append (.still (by rfl))
    | some alt =>
      obtain ⟨y, n, hy, hn, rfl⟩ := h
      exact htest.append
        (.choice (blockValue_does body hy hin.right.left) (expr_does alt hn hin.right.right))
  | .cases _ _ subject b as => by
    intro _ _ h hin
    obtain ⟨-, s, a, hs, ha, rfl⟩ := h
    have hdeclared : Store.declares b ∈ u.stores := hin.right.stores List.mem_cons_self
    refine ((expr_does subject hs hin.left).append
      (.declare hdeclared)).append
        (arms_does as ?_ ha hin.right.tail)
    rintro c rfl
    exact .load hdeclared

theorem exprs_does : (es : List (Expr .typed)) → ∀ ⦃b : Bool⦄ ⦃c : Assembly⦄, exprs K b es c →
    (Touches.exprs es).Within u → K.DoesAll u c
  | [] => fun _ _ h _ => h ▸ .nil
  | e :: es => by
    rintro _ _ ⟨a, b, ha, hb, rfl⟩ hin
    exact (expr_does e ha hin.left).append (exprs_does es hb hin.right)

theorem receiver_does : (e : Expr .typed) → ∀ ⦃b : Bool⦄ ⦃c : Assembly⦄, receiver K b e c →
    (Touches.expr e).Within u → K.DoesAll u c
  | .member _ _ left _ => fun _ _ h hin => expr_does left h hin
  | .name .. | .int .. | .float .. | .string .. | .char .. | .bool .. | .interpolated .. | .array ..
  | .unary .. | .binary .. | .assign .. | .call .. | .index .. | .new .. | .tryUnwrap .. | .range ..
  | .block _ | .cond .. | .cases .. => fun _ _ h _ => h ▸ .nil

theorem parts_does : (ps : List (Expr .typed)) → ∀ ⦃b : Bool⦄ ⦃line : Int⦄ ⦃c : Assembly⦄,
    parts K b line ps c → (Touches.exprs ps).Within u → K.DoesAll u c
  | [] => fun _ _ _ h _ => h ▸ .nil
  | e :: es => by
    rintro _ _ _ ⟨a, b, ha, hb, rfl⟩ hin
    refine DoesAll.append ?_ (parts_does es hb hin.right)
    split at ha
    · exact .const ha
    · obtain ⟨v, hv, rfl⟩ := ha
      exact (expr_does e hv hin.left).append (.still (by rfl))

theorem inits_does : (fs : List (FieldInit .typed)) → ∀ ⦃b : Bool⦄,
    (Touches.inits fs).Within u →
      ∀ x ∈ inits K b fs, ∀ c, x.2 c → K.DoesAll u c
  | [] => fun _ _ _ h => nomatch h
  | .mk _ nm e :: fs => by
    intro b hin x hx c hc
    rcases List.mem_cons.mp hx with rfl | hx
    · exact expr_does e hc hin.left
    · exact inits_does fs hin.right x hx c hc

theorem arms_does : (as : List (Arm .typed)) → ∀ ⦃b : Bool⦄ ⦃subject : Assembly → Prop⦄ ⦃line : Int⦄
    ⦃c : Assembly⦄, (∀ s, subject s → K.DoesAll u s) → arms K b subject line as c →
      (Touches.arms as).Within u → K.DoesAll u c
  | [] => by
    rintro _ _ _ _ _ rfl _
    exact .still (by rfl)
  | .mk _ q e :: as => by
    rintro _ _ _ _ hsubject ⟨t, b, r, ht, hb, hr, rfl⟩ hin
    exact .arm (pattern_does q hsubject ht hin.left) (expr_does e hb hin.right.left)
      (arms_does as hsubject hr hin.right.right)

theorem pattern_does : (q : Pattern .typed) → ∀ ⦃b : Bool⦄ ⦃subject : Assembly → Prop⦄ ⦃c : Assembly⦄,
    (∀ s, subject s → K.DoesAll u s) → pattern K b subject q c →
      (Touches.pattern q).Within u → K.DoesAll u c
  | .wildcard _ => fun _ _ _ _ h _ => h ▸ .nil
  | .bind _ d => by
    rintro _ _ _ hsubject ⟨-, s, hs, rfl⟩ hin
    exact (hsubject s hs).append
      (.declare (hin.stores List.mem_cons_self))
  | .literal _ e => by
    rintro _ _ _ hsubject ⟨s, v, hs, hv, rfl⟩ hin
    exact (((hsubject s hs).append (expr_does e hv hin)).append (.still (by rfl))).append
      (.still trivial)
  | .ctor _ _ _ qs => by
    rintro _ _ _ hsubject ⟨-, s, t, r, hs, ht, hr, rfl⟩ hin
    exact (((hsubject s hs).append (.named (by rfl) ht)).append
      (.still (x := .exit .miss) trivial)).append (patterns_does qs hsubject hr hin)

theorem patterns_does : (qs : List (Pattern .typed)) → ∀ ⦃b : Bool⦄ ⦃subject : Assembly → Prop⦄
    ⦃line : Int⦄ ⦃fs : List String⦄ ⦃c : Assembly⦄, (∀ s, subject s → K.DoesAll u s) →
      patterns K b subject line fs qs c → (Touches.patterns qs).Within u →
        K.DoesAll u c
  | [] => by
    intro _ _ _ fs _ _ h _
    cases fs <;> exact h ▸ .nil
  | q :: qs => by
    intro _ _ _ fs _ hsubject h hin
    cases fs with
    | nil => exact h ▸ .nil
    | cons f fs =>
      obtain ⟨a, b, ha, hb, rfl⟩ := h
      refine (pattern_does q ?_ ha hin.left).append (patterns_does qs hsubject hb hin.right)
      rintro x ⟨s, n, hs, hn, rfl⟩
      exact (hsubject s hs).append (.named (by rfl) hn)

theorem block_does : (b : Block .typed) → ∀ ⦃l : Bool⦄ ⦃c : Assembly⦄, block K l b c →
    (Touches.block b).Within u → K.DoesAll u c
  | .mk _ _ ts _ => fun _ _ h hin => stmts_does ts h hin

theorem blockValue_does : (b : Block .typed) → ∀ ⦃l : Bool⦄ ⦃c : Assembly⦄, blockValue K l b c →
    (Touches.block b).Within u → K.DoesAll u c
  | .mk _ _ ts _ => fun _ _ h hin => stmtsValue_does ts h hin

theorem stmts_does : (ts : List (Stmt .typed)) → ∀ ⦃l : Bool⦄ ⦃c : Assembly⦄, stmts K l ts c →
    (Touches.stmts ts).Within u → K.DoesAll u c
  | [] => fun _ _ h _ => h ▸ .nil
  | t :: ts => by
    rintro _ _ ⟨a, b, ha, hb, rfl⟩ hin
    exact (stmt_does t ha hin.left).append (stmts_does ts hb hin.right)

theorem stmtsValue_does : (ts : List (Stmt .typed)) → ∀ ⦃l : Bool⦄ ⦃line : Int⦄ ⦃c : Assembly⦄,
    stmtsValue K l line ts c → (Touches.stmts ts).Within u → K.DoesAll u c
  | [] => by
    rintro _ _ _ rfl _
    exact .still (by rfl)
  | t :: ts => by
    intro l line c h hin
    have hcons : (∃ a b, stmt K l t a ∧ stmtsValue K l line ts b ∧ c = a ++ b) →
        K.DoesAll u c := by
      rintro ⟨a, b, ha, hb, rfl⟩
      exact (stmt_does t ha hin.left).append (stmtsValue_does ts hb hin.right)
    cases ts with
    | cons => exact hcons (by cases t <;> exact h)
    | nil =>
      cases t with
      | expr tok e => exact expr_does e h hin.left
      | _ => exact hcons h

theorem bounds_does : (e : Expr .typed) → ∀ ⦃b : Bool⦄ ⦃lo hi : Assembly → Prop⦄,
    bounds K b e = some (lo, hi) → (Touches.expr e).Within u →
      (∀ c, lo c → K.DoesAll u c) ∧ ∀ c, hi c → K.DoesAll u c
  | .range _ _ start stop => by
    intro _ _ _ h hin
    obtain ⟨rfl, rfl⟩ := Prod.mk.inj (Option.some.inj h)
    exact ⟨fun _ hc => expr_does start hc hin.left, fun _ hc => expr_does stop hc hin.right⟩
  | .name .. | .int .. | .float .. | .string .. | .char .. | .bool .. | .interpolated .. | .array ..
  | .unary .. | .binary .. | .assign .. | .call .. | .member .. | .index .. | .new .. | .tryUnwrap ..
  | .block _ | .cond .. | .cases .. => fun _ _ _ h _ => nomatch h

theorem stmt_does : (t : Stmt .typed) → ∀ ⦃l : Bool⦄ ⦃c : Assembly⦄, stmt K l t c →
    (Touches.stmt t).Within u → K.DoesAll u c
  | .expr _ e => by
    rintro _ _ ⟨a, ha, rfl⟩ hin
    exact (expr_does e ha hin).append (.still (by rfl))
  | .bind _ _ _ _ e => by
    rintro _ _ ⟨-, a, ha, rfl⟩ hin
    exact (expr_does e ha hin.left).append (.declare
      (hin.right.stores List.mem_cons_self))
  | .block b => fun _ _ h hin => block_does b h hin
  | .ret _ value => by
    intro _ _ h hin
    cases value with
    | none => exact h ▸ .append (.still (by rfl)) (.still (by rfl))
    | some e =>
      obtain ⟨a, ha, rfl⟩ := h
      exact (expr_does e ha hin).append (.still (by rfl))
  | .loop _ test b => by
    rintro _ _ ⟨t, a, ht, ha, rfl⟩ hin
    exact .whileLoop (expr_does test ht hin.left) (block_does b ha hin.right)
  | .each _ _ slots series b => by
    rintro _ _ ⟨-, -, start, a, loop, ha, ⟨-, -, -, k, -, -, rfl⟩, rfl, hstart⟩ hin
    have hdecls := hin.right.skip
    have hindex : Store.declares slots.index ∈ u.stores := hdecls.stores (by simp)
    have hlimit : Store.declares slots.limit ∈ u.stores := hdecls.stores (by simp)
    have hitem : Store.declares slots.item ∈ u.stores := hdecls.stores (by simp)
    refine DoesAll.append ?_ (.countLoop ?_ ?_ (block_does b ha hdecls.tail.tail.tail) ?_)
    · split at hstart
      · rename_i lo hi hbounds
        obtain ⟨x, y, hx, hy, rfl⟩ := hstart
        obtain ⟨hlo, hhi⟩ := bounds_does series hbounds hin.left
        exact (((hlo x hx).append (.declare hindex)).append (hhi y hy)).append
          (.declare hlimit)
      · obtain ⟨x, z, hx, hz, rfl⟩ := hstart
        exact (((expr_does series hx hin.left).append (.declare hlimit)).append
          (.const hz)).append (.declare hindex)
    · refine (((DoesAll.load hindex).append (.load hlimit)).append ?_).append
        (.still (by rfl))
      split
      · exact .nil
      · exact .still (by rfl)
    · refine DoesAll.append ?_ (.declare hitem)
      split
      · exact .load hindex
      · exact ((DoesAll.load hlimit).append (.load hindex)).append (.still (by rfl))
    · exact (((DoesAll.load hindex).append (.still (by rfl))).append
        (.still (by rfl))).append (.single (.assigns hindex))
  | .leave _ | .next _ => by
    rintro _ _ ⟨-, rfl⟩ _
    exact .still trivial
  | .func d => by
    intro _ _ h hin
    refine .nested h.2 (hin.items (by simp [Items.stmt])) fun b hb => hin.stores ?_
    simp [Stores.stmt, hb]
  | .impl .. => fun _ _ h _ => h.2 ▸ .nil
  | .record .. | .union .. | .use .. => fun _ _ h _ => h ▸ .nil

end

theorem body_does {isUnit : Bool} {line : Int} : (ts : List (Stmt .typed)) → {c : Assembly} →
    body K isUnit line ts c → (Touches.stmts ts).Within u → K.DoesAll u c
  | [], _, h, _ => h ▸ .append (.still (by rfl)) (.still (by rfl))
  | t :: ts, c, h, hin => by
    have hcons : (∃ a b, stmt K false t a ∧ body K isUnit line ts b ∧ c = a ++ b) →
        K.DoesAll u c := by
      rintro ⟨a, b, ha, hb, rfl⟩
      exact (stmt_does t ha hin.left).append (body_does ts hb hin.right)
    cases ts with
    | cons => exact hcons (by cases t <;> exact h)
    | nil =>
      cases t with
      | ret tok value => exact stmt_does (.ret tok value) h hin.left
      | expr tok e =>
        obtain ⟨a, ha, rfl⟩ := h
        have hvalue := expr_does e ha hin.left
        split
        · exact ((hvalue.append (.still (by rfl))).append (.still (by rfl))).append (.still (by rfl))
        · exact hvalue.append (.still (by rfl))
      | _ => exact hcons h

theorem topStmts_does : (ts : List (Stmt .typed)) → {line : Int} → {c : Assembly} →
    topStmts K line ts c → (Touches.stmts ts).Within u → K.DoesAll u c
  | [], _, _, h, _ => h ▸ .append (.still (by rfl)) (.still (by rfl))
  | t :: ts, line, c, h, hin => by
    have hcons : (∃ a b, stmt K false t a ∧ topStmts K t.token.line ts b ∧ c = a ++ b) →
        K.DoesAll u c := by
      rintro ⟨a, b, ha, hb, rfl⟩
      exact (stmt_does t ha hin.left).append (topStmts_does ts hb hin.right)
    cases ts with
    | cons => exact hcons (by cases t <;> exact h)
    | nil =>
      cases t with
      | expr tok e =>
        obtain ⟨a, ha, rfl⟩ := h
        exact (expr_does e ha hin.left).append (.still (by rfl))
      | _ => exact hcons h

theorem func_does {f : UserFunction} {d : FunDecl .typed} {c : Assembly} (h : func K f d c)
    (hd : d.Framed K.program) : K.DoesAll (Touches.func d) c := by
  obtain ⟨tok, nm, info, self, params, r, n, bt, ts, close⟩ := d
  obtain ⟨-, a, ha, rfl⟩ := h
  refine DoesAll.append ?_ (body_does ts ha ⟨List.Subset.refl _, List.subset_append_right _ _⟩)
  intro l hl
  obtain ⟨b, hb, hl⟩ := List.mem_flatMap.mp hl
  obtain ⟨j, hj⟩ := List.mem_iff_getElem?.mp hb
  have hstorage := (hd.params j b hj).1
  have hdeclared : Store.declares b ∈
      (Touches.func (.mk tok nm info self params r (.mk n bt ts close) : FunDecl .typed)).stores :=
    List.mem_append_left _ (List.mem_map_of_mem hb)
  rw [Lowering.paramCell] at hl
  split at hl
  · rename_i hcaptured
    rcases List.mem_append.mp hl with hl | hl
    · obtain rfl := List.mem_singleton.mp hl
      exact .takes hdeclared
    · obtain rfl := List.mem_singleton.mp hl
      have hmake := Lowering.Does.declares (K := K) hdeclared
      rwa [Lowering.declareOp, hstorage, hcaptured] at hmake
  · cases hl

end Lowers

end Scripting
