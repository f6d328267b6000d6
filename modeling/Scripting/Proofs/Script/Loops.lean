import Scripting.Proofs.Code.Pieces
import Scripting.Proofs.Script.Lowers

/-!
# Loops in code

Every loop over a range or an array stands in the code of its tree as one piece: what it goes over, then
the loop itself, whose body is left by `break`, by `continue` and at its end only. `Loops` lists the
loops of a tree for which there is code, and `Pieces` says how code is put together.
-/

namespace Scripting

namespace Loops

mutual

/-- The loops over ranges and arrays in the code of an expression. What a static call calls is known and
has no code, nor has a field that is no field of the record. -/
def expr : Expr .typed → List (Stmt .typed)
  | .name .. | .int .. | .float .. | .string .. | .char .. | .bool .. => []
  | .interpolated _ _ es | .array _ _ es => exprs es
  | .unary _ _ _ e | .tryUnwrap _ _ e | .member _ _ e _ => expr e
  | .binary _ _ _ l r | .index _ _ l r | .range _ _ l r => expr l ++ expr r
  | .assign _ _ l r => target l ++ expr r
  | .call _ _ info f es => (if info.viaReceiver then target f else []) ++ exprs es
      ++ if info.isStatic then [] else expr f
  | .new _ _ t _ fs => t.fields.flatMap fun f => ((inits fs).lookup f).getD []
  | .block b => block b
  | .cond _ _ test body alt => expr test ++ (block body ++ option alt)
  | .cases _ _ subject _ as => expr subject ++ arms as

def exprs : List (Expr .typed) → List (Stmt .typed)
  | [] => []
  | e :: es => expr e ++ exprs es

def target : Expr .typed → List (Stmt .typed)
  | .member _ _ left _ => expr left
  | .name .. | .int .. | .float .. | .string .. | .char .. | .bool .. | .interpolated .. | .array ..
  | .unary .. | .binary .. | .assign .. | .call .. | .index .. | .new .. | .tryUnwrap .. | .range ..
  | .block _ | .cond .. | .cases .. => []

def option : Option (Expr .typed) → List (Stmt .typed)
  | none => []
  | some e => expr e

def inits : List (FieldInit .typed) → List (String × List (Stmt .typed))
  | [] => []
  | .mk _ name e :: fs => (name, expr e) :: inits fs

def arms : List (Arm .typed) → List (Stmt .typed)
  | [] => []
  | .mk _ q e :: as => pattern q ++ (expr e ++ arms as)

def pattern : Pattern .typed → List (Stmt .typed)
  | .wildcard _ | .bind .. => []
  | .literal _ e => expr e
  | .ctor _ test _ qs => patterns test.fields qs

def patterns : List String → List (Pattern .typed) → List (Stmt .typed)
  | _ :: fs, q :: qs => pattern q ++ patterns fs qs
  | _, _ => []

def block : Block .typed → List (Stmt .typed)
  | .mk _ _ ss _ => stmts ss

def stmts : List (Stmt .typed) → List (Stmt .typed)
  | [] => []
  | s :: ss => stmt s ++ stmts ss

def stmt : Stmt .typed → List (Stmt .typed)
  | .expr _ e | .bind _ _ _ _ e => expr e
  | .block b => block b
  | .ret _ e => option e
  | .loop _ e b => expr e ++ block b
  | .each tok x slots e b => .each tok x slots e b :: (expr e ++ block b)
  | .func _ | .impl .. | .leave _ | .next _ | .record .. | .union .. | .use .. => []

end

end Loops

/-- The parts of the code of a loop over a range or an array. -/
structure EachParts where
  slots : LoopSlots
  isRange : Bool
  line : Int
  /-- The place of 1 among the constants. -/
  one : Nat
  /-- Code of the first bound, or of the array. -/
  lead : Assembly
  /-- Code of the second bound, or of the first index. -/
  between : Assembly
  body : Assembly

namespace EachParts

variable (r : EachParts) (K : Lowering)

def first : BindingId := if r.isRange then r.slots.index else r.slots.limit

def second : BindingId := if r.isRange then r.slots.limit else r.slots.index

def start : Assembly := r.lead ++ K.declare r.first r.line ++ r.between ++ K.declare r.second r.line

def loop : Assembly := Assembly.countLoop (K.eachTest r.slots r.isRange r.line)
  (K.eachHead r.slots r.isRange r.line) r.body (K.eachStep r.slots r.one r.line) r.line

def code : Assembly := r.start K ++ r.loop K

/-- Whether the parts are left by exits and at their ends only, the body by exits from a loop. -/
structure Whole : Prop where
  lead : r.lead.Closed
  between : r.between.Closed
  body : r.body.Closed
  exits : r.body.Lacks .miss

end EachParts

def Lowers.Each (K : Lowering) : Stmt .typed → EachParts → Prop
  | .each tok _ slots series b, r => r.slots = slots ∧
      r.isRange = (bounds K true series).isSome ∧ r.line = tok.line ∧ block K true b r.body ∧
      (∀ b ∈ [slots.index, slots.limit, slots.item], K.Addressed b) ∧
      K.Holds r.one (.int 1) ∧ r.one ≤ Emit.maxWord ∧ ∃ inLoop, match bounds K inLoop series with
        | some (lo, hi) => lo r.lead ∧ hi r.between
        | none => expr K inLoop series r.lead ∧ K.Const (.int 0) tok.line r.between
  | _, _ => False

/-- An instruction that is no settled jump; exits to the next arm of a match stand in tests only. -/
def Asm.Straight (tests : Bool) : Asm → Prop
  | op .. | closure .. | exit .leave | exit .next => True
  | exit .miss => tests = true
  | skip _ | skipIfFalse _ | back _ => False

theorem Asm.Straight.hop? {tests : Bool} {a : Asm} (h : a.Straight tests) : a.hop? = none := by
  cases a <;> first | rfl | exact h.elim

/-- How code is put together, and the loops in it. -/
inductive Pieces (K : Lowering) : Bool → Assembly → List (Stmt .typed) → Prop
  | nil {tests : Bool} : Pieces K tests [] []
  | straight {tests : Bool} {line : Int} {a : Asm} (h : a.Straight tests) : Pieces K tests [⟨line, a⟩] []
  | append {tests : Bool} {c d : Assembly} {ss ts : List (Stmt .typed)} (left : Pieces K tests c ss)
      (right : Pieces K tests d ts) : Pieces K tests (c ++ d) (ss ++ ts)
  | guarded {tests : Bool} {c : Assembly} {line : Int} {ss : List (Stmt .typed)}
      (code : Pieces K tests c ss) : Pieces K tests (Assembly.guarded c line) ss
  | choice {tests : Bool} {c d : Assembly} {line : Int} {ss ts : List (Stmt .typed)}
      (yes : Pieces K tests c ss) (no : Pieces K tests d ts) :
      Pieces K tests (Assembly.choice c d line) (ss ++ ts)
  | arm {tests : Bool} {t c d : Assembly} {line : Int} {ss ts us : List (Stmt .typed)}
      (test : Pieces K true t ss) (body : Pieces K tests c ts) (rest : Pieces K tests d us) :
      Pieces K tests (Assembly.arm t c d line) (ss ++ (ts ++ us))
  | whileLoop {tests : Bool} {t c : Assembly} {line : Int} {ss ts : List (Stmt .typed)}
      (test : Pieces K tests t ss) (body : Pieces K tests c ts) :
      Pieces K tests (Assembly.whileLoop t c line) (ss ++ ts)
  | each {tests : Bool} {s : Stmt .typed} {r : EachParts} {ss ts us : List (Stmt .typed)}
      (parts : Lowers.Each K s r) (lead : Pieces K tests r.lead ss)
      (between : Pieces K tests r.between ts) (body : Pieces K false r.body us) :
      Pieces K tests (r.code K) (s :: (ss ++ ts ++ us))

namespace Pieces

open Assembly (op)
open Lowering (word)

variable {K : Lowering} {tests : Bool} {c d : Assembly} {ss ts : List (Stmt .typed)}

theorem closed_word (o : Opcode) (n : Nat) (line : Int) : (word o n line).Closed := .straight rfl

theorem closed_each (slots : LoopSlots) (isRange : Bool) (k : Nat) (line : Int) :
    (K.eachTest slots isRange line).Closed ∧ (K.eachHead slots isRange line).Closed ∧
      (K.eachStep slots k line).Closed := by
  have hword : ∀ o n, (word o n line).Closed := fun o n => closed_word o n line
  have hop : ∀ o, (op o line).Closed := fun o => .straight rfl
  refine ⟨(((hword _ _).append (hword _ _)).append ?_).append (hop _), Assembly.Closed.append ?_ (hword _ _),
    (((hword _ _).append (hword _ _)).append (hop _)).append (hword _ _)⟩
  · split
    · exact .nil
    · exact hop _
  · split
    · exact hword _ _
    · exact ((hword _ _).append (hword _ _)).append (hop _)

theorem closed_start {r : EachParts} (hl : r.lead.Closed) (hb : r.between.Closed) :
    (r.start K).Closed :=
  ((hl.append (closed_word _ _ _)).append hb).append (closed_word _ _ _)

theorem closed_loop {r : EachParts} (hb : r.body.Closed) : (r.loop K).Closed := by
  obtain ⟨htest, hhead, hstep⟩ := closed_each (K := K) r.slots r.isRange r.one r.line
  rw [EachParts.loop, Assembly.countLoop_eq]
  exact .loop .count htest hhead hb hstep

theorem closed (h : Pieces K tests c ss) : c.Closed := by
  induction h with
  | nil => exact .nil
  | straight ha => exact .straight ha.hop?
  | append _ _ hc hd => exact hc.append hd
  | guarded _ hc => exact hc.guarded
  | choice _ _ hc hd => exact hc.choice hd
  | arm _ _ _ ht hc hd => exact ht.arm hc hd
  | whileLoop _ _ ht hc =>
    rw [Assembly.whileLoop_eq]
    exact .loop .back ht .nil hc .nil
  | each _ _ _ _ hl hb hc => exact (closed_start hl hb).append (closed_loop hc)

theorem exits (h : Pieces K tests c ss) (ht : tests = false) : c.Lacks .miss := by
  induction h with
  | nil => exact .nil
  | @straight _ line a ha =>
    refine .single ?_
    rintro rfl
    exact absurd ha (by simp [Asm.Straight, ht])
  | append _ _ hc hd => exact (hc ht).append (hd ht)
  | guarded _ hc => exact (hc ht).guarded
  | choice _ _ hc hd => exact (hc ht).choice (hd ht)
  | arm _ _ _ _ hc hd => exact .arm (hc ht) (hd ht)
  | whileLoop _ _ htest hc =>
    rw [Assembly.whileLoop_eq]
    exact .loop .back (htest ht) .nil (hc ht) .nil
  | @each _ s r _ _ _ _ _ _ _ hl hb hc =>
    have hword : ∀ o n, (word o n r.line).Lacks .miss := fun o n => .single (by simp)
    have hop : ∀ o, (op o r.line).Lacks .miss := fun o => .single (by simp)
    refine ((((hl ht).append (hword _ _)).append (hb ht)).append (hword _ _)).append ?_
    rw [EachParts.loop, Assembly.countLoop_eq]
    refine .loop .count (((hword _ _).append (hword _ _)).append ?_ |>.append (hop _))
      (.append ?_ (hword _ _)) (hc rfl) ((((hword _ _).append (hword _ _)).append (hop _)).append (hword _ _))
    · split
      · exact .nil
      · exact hop _
    · split
      · exact hword _ _
      · exact ((hword _ _).append (hword _ _)).append (hop _)

theorem holds_of_holds {e : Assembly} {o : Nat} (he : e.Holds c o)
    (hc : ∀ s ∈ ss, ∃ r p, Lowers.Each K s r ∧ r.Whole ∧ c.Holds (r.code K) p) :
    ∀ s ∈ ss, ∃ r p, Lowers.Each K s r ∧ r.Whole ∧ e.Holds (r.code K) p := by
  intro s hs
  obtain ⟨r, p, hr, hwhole, hp⟩ := hc s hs
  exact ⟨r, o + p, hr, hwhole, he.trans hp⟩

theorem holds (h : Pieces K tests c ss) : ∀ s ∈ ss, ∃ r o, Lowers.Each K s r ∧ r.Whole ∧
    c.Holds (r.code K) o := by
  induction h with
  | nil | straight => exact nofun
  | append hc hd ihc ihd =>
    exact List.forall_mem_append.mpr
      ⟨holds_of_holds (.left hd.closed) ihc, holds_of_holds (.right hc.closed) ihd⟩
  | guarded hc ih => exact holds_of_holds .guarded ih
  | choice hc hd ihc ihd =>
    exact List.forall_mem_append.mpr
      ⟨holds_of_holds (.choice_left hd.closed) ihc, holds_of_holds (.choice_right hc.closed) ihd⟩
  | arm ht hc hd iht ihc ihd =>
    exact List.forall_mem_append.mpr ⟨holds_of_holds (.arm_tests hc.closed hd.closed) iht,
      List.forall_mem_append.mpr ⟨holds_of_holds (.arm_body ht.closed hd.closed) ihc,
        holds_of_holds (.arm_rest ht.closed hc.closed) ihd⟩⟩
  | whileLoop ht hc iht ihc =>
    rw [Assembly.whileLoop_eq]
    exact List.forall_mem_append.mpr ⟨holds_of_holds (.loop_test .nil hc.closed .nil .back) iht,
      holds_of_holds (.loop_body ht.closed .nil .nil .back) ihc⟩
  | @each _ s r _ _ _ parts hl hb hc ihl ihb ihc =>
    have hloop := closed_loop (K := K) hc.closed
    obtain ⟨htest, hhead, hstep⟩ := closed_each (K := K) r.slots r.isRange r.one r.line
    have hstart : (r.code K).Holds (r.start K) 0 := .left hloop
    have hlead : (r.start K).Holds r.lead 0 := by
      rw [EachParts.start, List.append_assoc, List.append_assoc]
      exact .left ((closed_word _ _ _).append (hb.closed.append (closed_word _ _ _)))
    have hbetween : (r.start K).Holds r.between _ :=
      (Assembly.Holds.left (closed_word _ _ _)).trans (.right (hl.closed.append (closed_word _ _ _)))
    have hbody : (r.code K).Holds r.body _ :=
      (Assembly.Holds.right (closed_start hl.closed hb.closed)).trans
        (.loop_body htest hhead hstep .count)
    refine List.forall_mem_cons.mpr ⟨⟨r, 0, parts, ⟨hl.closed, hb.closed, hc.closed, hc.exits rfl⟩,
      .refl _⟩, List.forall_mem_append.mpr ⟨List.forall_mem_append.mpr ⟨?_, ?_⟩, holds_of_holds hbody ihc⟩⟩
    · exact holds_of_holds (hstart.trans hlead) ihl
    · exact holds_of_holds (hstart.trans hbetween) ihb

theorem single {line : Int} {o : Opcode} {ns : List Nat} : Pieces K tests [⟨line, .op o ns⟩] [] :=
  .straight trivial

theorem miss {line : Int} : Pieces K true [⟨line, .exit .miss⟩] [] := .straight rfl

theorem const {v : Value} {line : Int} (h : K.Const v line c) : Pieces K tests c [] := by
  obtain ⟨k, -, -, rfl⟩ := h
  exact single

theorem named {o : Opcode} {name : String} {line : Int} (h : K.Named o name line c) :
    Pieces K tests c [] := by
  obtain ⟨k, -, -, rfl⟩ := h
  exact single

theorem before (hc : Pieces K tests c ss) (hd : Pieces K tests d []) : Pieces K tests (c ++ d) ss := by
  simpa using hc.append hd

theorem behind (hc : Pieces K tests c []) (hd : Pieces K tests d ss) : Pieces K tests (c ++ d) ss :=
  hc.append hd

theorem binary {o : BinaryOp} {line : Int} {a b : Assembly} (ha : Pieces K tests a ss)
    (hb : Pieces K tests b ts) (h : Lowering.Binary o a b line c) : Pieces K tests c (ss ++ ts) := by
  have hshort : ∀ isOr, Pieces K tests (Emit.shortCircuit isOr a b line) (ss ++ ts) := fun isOr => by
    refine ((ha.before single).before ?_).append (.guarded (single.behind hb))
    split
    · exact single
    · exact .nil
  have hplain : (∃ i, Emit.instruction? o = some i ∧ c = a ++ (b ++ op i line)) →
      Pieces K tests c (ss ++ ts) := by
    rintro ⟨i, -, rfl⟩
    exact ha.append (hb.before single)
  cases o with
  | and => exact h ▸ hshort false
  | or => exact h ▸ hshort true
  | _ => exact hplain h

theorem ordered {inits : List (String × (Assembly → Prop))} {loops : List (String × List (Stmt .typed))}
    (hinits : List.Forall₂ (fun x y => x.1 = y.1 ∧ ∀ c, x.2 c → Pieces K tests c y.2) inits loops) :
    {fs : List String} → {c : Assembly} → Lowering.Ordered inits fs c →
      Pieces K tests c (fs.flatMap fun f => (loops.lookup f).getD [])
  | [], _, h => by
    obtain rfl := h
    exact .nil
  | f :: fs, _, h => by
    obtain ⟨a, b, ha, hb, rfl⟩ := h
    refine append ?_ (ordered hinits hb)
    clear hb
    induction hinits with
    | nil =>
      obtain rfl : a = [] := ha
      exact .nil
    | @cons x y _ _ hxy _ ih =>
      obtain ⟨name, P⟩ := x
      obtain ⟨name', ls⟩ := y
      obtain ⟨rfl, hP⟩ : name = name' ∧ _ := hxy
      simp only [List.lookup_cons] at ha ⊢
      cases hf : f == name with
      | true =>
        rw [hf] at ha
        exact hP a ha
      | false =>
        rw [hf] at ha
        exact ih ha

theorem build {t : Template} {line : Int} (h : K.Build t line c) : Pieces K tests c [] := by
  obtain ⟨-, k, v, -, -, -, rfl⟩ := h
  exact single

theorem nested {info : FunSlots} {line : Int} (h : K.Nested info line c) : Pieces K tests c [] := by
  have hclosure : ∀ f, K.Closure info line f → Pieces K tests f [] := by
    intro f hf
    rw [Lowering.Closure] at hf
    split at hf
    · exact hf ▸ .nil
    · obtain ⟨-, -, k, -, -, rfl⟩ := hf
      exact .straight trivial
  rw [Lowering.Nested] at h
  split at h
  · exact h ▸ .nil
  · split at h
    · exact h ▸ .nil
    · obtain ⟨-, f, hf, rfl⟩ := h
      exact ((single.before single).before (hclosure f hf)).before single
    · obtain ⟨-, f, hf, rfl⟩ := h
      exact (hclosure f hf).before single

end Pieces

namespace Lowers

variable {K : Lowering}

theorem store_pieces {tests : Bool} {tok : Token} {v c : Assembly} {b : Bool} {ss : List (Stmt .typed)}
    (e : Expr .typed) (hv : Pieces K tests v ss)
    (hleft : ∀ c, receiver K b e c → Pieces K tests c (Loops.target e)) (h : store K b tok v e c) :
    Pieces K tests c (Loops.target e ++ ss) := by
  cases e with
  | name n t text s =>
    obtain ⟨-, rfl⟩ := h
    exact (hv.before .single).before .single
  | member n t left field =>
    obtain ⟨o, f, ho, hf, rfl⟩ := h
    exact ((((hleft o ho).before .single).append hv).before (.named hf)).before .single
  | _ => exact h.elim

theorem loops_of_string {e : Expr .typed} {s : String} (h : e.stringValue? = some s) :
    Loops.expr e = [] := by
  cases e <;> first | rfl | cases h

theorem bounds_isSome (b b' : Bool) (e : Expr .typed) :
    (bounds K b e).isSome = (bounds K b' e).isSome := by
  cases e <;> rfl

mutual

theorem expr_pieces : (e : Expr .typed) → ∀ ⦃b tests : Bool⦄ ⦃c : Assembly⦄, expr K b e c →
    Pieces K tests c (Loops.expr e)
  | .name .. => by
    rintro _ _ _ ⟨-, rfl⟩
    exact .single
  | .int .. | .float .. | .string .. | .char .. | .bool .. => fun _ _ _ h => .const h
  | .interpolated _ _ ps => by
    intro _ _ _ h
    rw [expr] at h
    split at h
    · rename_i hempty
      obtain rfl := List.isEmpty_iff.mp hempty
      exact .const h
    · obtain ⟨-, a, f, ha, hf, rfl⟩ := h
      exact (parts_pieces ps ha).before ((Pieces.const hf).before .single)
  | .array _ _ es => by
    rintro _ _ _ ⟨-, a, ha, rfl⟩
    exact (exprs_pieces es ha).before .single
  | .unary _ _ _ e => by
    rintro _ _ _ ⟨a, ha, rfl⟩
    exact (expr_pieces e ha).before .single
  | .binary _ _ _ l r => by
    rintro _ _ _ ⟨a, b, ha, hb, h⟩
    exact .binary (expr_pieces l ha) (expr_pieces r hb) h
  | .assign _ _ l r => by
    rintro _ _ _ ⟨v, hv, h⟩
    exact store_pieces l (expr_pieces r hv) (fun c hc => target_pieces l hc) h
  | .call _ _ info f es => by
    rintro _ _ _ ⟨-, a, b, t, ha, hb, ht, rfl⟩
    refine ((Pieces.append ?_ (exprs_pieces es hb)).append ?_).before .single
    · cases hvia : info.viaReceiver with
      | true => exact target_pieces f (by rwa [if_pos hvia] at ha)
      | false =>
        rw [if_neg (by simp [hvia])] at ha
        exact ha ▸ .nil
    · rw [Lowering.Target] at ht
      split at ht
      · rename_i hstatic _
        rw [hstatic]
        exact .const ht
      · exact ht.elim
      · rename_i hstatic
        rw [hstatic]
        exact expr_pieces f ht
  | .member _ _ left _ => by
    rintro _ _ _ ⟨a, b, ha, hb, rfl⟩
    exact (expr_pieces left ha).before (.named hb)
  | .index _ _ l i => by
    rintro _ _ _ ⟨a, b, ha, hb, rfl⟩
    exact ((expr_pieces l ha).append (expr_pieces i hb)).before .single
  | .new _ _ _ _ fs => by
    rintro _ _ _ ⟨a, b, ha, hb, rfl⟩
    exact (Pieces.ordered (inits_pieces fs _ _) ha).before (.build hb)
  | .tryUnwrap _ _ e => by
    rintro _ _ _ ⟨a, ha, rfl⟩
    exact (expr_pieces e ha).before .single
  | .range .. => fun _ _ _ h => h.elim
  | .block b => fun _ _ _ h => blockValue_pieces b h
  | .cond _ tok test body alt => by
    rintro _ tests _ ⟨t, ht, h⟩
    have htest : Pieces K tests t (Loops.expr test) := expr_pieces test ht
    cases alt with
    | none =>
      obtain ⟨y, hy, rfl⟩ := h
      have hguarded : Pieces K tests (Assembly.guarded y tok.line) (Loops.block body) :=
        .guarded (block_pieces body hy)
      have hbody : Pieces K tests (Assembly.guarded y tok.line ++ Assembly.op .unit tok.line)
        (Loops.block body) :=
        hguarded.before .single
      have h := htest.append (hbody.append .nil)
      rwa [List.append_nil, ← List.append_assoc] at h
    | some alt =>
      obtain ⟨y, n, hy, hn, rfl⟩ := h
      exact htest.append (.choice (blockValue_pieces body hy) (expr_pieces alt hn))
  | .cases _ _ subject _ as => by
    rintro _ _ _ ⟨-, s, a, hs, ha, rfl⟩
    refine ((expr_pieces subject hs).before .single).append (arms_pieces as ?_ ha)
    rintro _ rfl _
    exact .single

theorem exprs_pieces : (es : List (Expr .typed)) → ∀ ⦃b tests : Bool⦄ ⦃c : Assembly⦄, exprs K b es c →
    Pieces K tests c (Loops.exprs es)
  | [] => fun _ _ _ h => h ▸ .nil
  | e :: es => by
    rintro _ _ _ ⟨a, b, ha, hb, rfl⟩
    exact (expr_pieces e ha).append (exprs_pieces es hb)

theorem target_pieces : (e : Expr .typed) → ∀ ⦃b tests : Bool⦄ ⦃c : Assembly⦄, receiver K b e c →
    Pieces K tests c (Loops.target e)
  | .member _ _ left _ => fun _ _ _ h => expr_pieces left h
  | .name .. | .int .. | .float .. | .string .. | .char .. | .bool .. | .interpolated .. | .array ..
  | .unary .. | .binary .. | .assign .. | .call .. | .index .. | .new .. | .tryUnwrap .. | .range ..
  | .block _ | .cond .. | .cases .. => fun _ _ _ h => h ▸ .nil

theorem parts_pieces : (ps : List (Expr .typed)) → ∀ ⦃b tests : Bool⦄ ⦃line : Int⦄ ⦃c : Assembly⦄,
    parts K b line ps c → Pieces K tests c (Loops.exprs ps)
  | [] => fun _ _ _ _ h => h ▸ .nil
  | e :: es => by
    rintro _ _ _ _ ⟨a, b, ha, hb, rfl⟩
    refine Pieces.append ?_ (parts_pieces es hb)
    split at ha
    · rename_i hs
      exact loops_of_string hs ▸ .const ha
    · obtain ⟨v, hv, rfl⟩ := ha
      exact (expr_pieces e hv).before .single

theorem inits_pieces : (fs : List (FieldInit .typed)) → ∀ (b tests : Bool),
    List.Forall₂ (fun x y => x.1 = y.1 ∧ ∀ c, x.2 c → Pieces K tests c y.2) (inits K b fs) (Loops.inits fs)
  | [] => fun _ _ => .nil
  | .mk _ _ e :: fs => fun _ _ => .cons ⟨rfl, fun _ hc => expr_pieces e hc⟩ (inits_pieces fs _ _)

theorem arms_pieces : (as : List (Arm .typed)) → ∀ ⦃b tests : Bool⦄ ⦃subject : Assembly → Prop⦄
    ⦃line : Int⦄ ⦃c : Assembly⦄, (∀ s, subject s → ∀ tests, Pieces K tests s []) →
      arms K b subject line as c → Pieces K tests c (Loops.arms as)
  | [] => by
    rintro _ _ _ _ _ _ rfl
    exact .single
  | .mk _ q e :: as => by
    rintro _ _ _ _ _ hsubject ⟨t, b, r, ht, hb, hr, rfl⟩
    exact .arm (pattern_pieces q (fun s hs => hsubject s hs true) ht) (expr_pieces e hb)
      (arms_pieces as hsubject hr)

theorem pattern_pieces : (q : Pattern .typed) → ∀ ⦃b : Bool⦄ ⦃subject : Assembly → Prop⦄ ⦃c : Assembly⦄,
    (∀ s, subject s → Pieces K true s []) → pattern K b subject q c →
      Pieces K true c (Loops.pattern q)
  | .wildcard _ => fun _ _ _ _ h => h ▸ .nil
  | .bind _ d => by
    rintro _ _ _ hsubject ⟨-, s, hs, rfl⟩
    exact (hsubject s hs).before .single
  | .literal _ e => by
    rintro _ _ _ hsubject ⟨s, v, hs, hv, rfl⟩
    exact (((hsubject s hs).behind (expr_pieces e hv)).before .single).before .miss
  | .ctor _ _ _ qs => by
    rintro _ _ _ hsubject ⟨-, s, t, r, hs, ht, hr, rfl⟩
    exact (((hsubject s hs).before (.named ht)).before .miss).behind
      (patterns_pieces qs hsubject hr)

theorem patterns_pieces : (qs : List (Pattern .typed)) → ∀ ⦃b : Bool⦄ ⦃subject : Assembly → Prop⦄
    ⦃line : Int⦄ ⦃fs : List String⦄ ⦃c : Assembly⦄, (∀ s, subject s → Pieces K true s []) →
      patterns K b subject line fs qs c → Pieces K true c (Loops.patterns fs qs)
  | [] => by
    intro _ _ _ fs _ _ h
    cases fs <;> exact h ▸ .nil
  | q :: qs => by
    intro _ _ _ fs _ hsubject h
    cases fs with
    | nil => exact h ▸ .nil
    | cons f fs =>
      obtain ⟨a, b, ha, hb, rfl⟩ := h
      refine (pattern_pieces q ?_ ha).append (patterns_pieces qs hsubject hb)
      rintro x ⟨s, n, hs, hn, rfl⟩
      exact (hsubject s hs).before (.named hn)

theorem block_pieces : (b : Block .typed) → ∀ ⦃l tests : Bool⦄ ⦃c : Assembly⦄, block K l b c →
    Pieces K tests c (Loops.block b)
  | .mk _ _ ts _ => fun _ _ _ h => stmts_pieces ts h

theorem blockValue_pieces : (b : Block .typed) → ∀ ⦃l tests : Bool⦄ ⦃c : Assembly⦄, blockValue K l b c →
    Pieces K tests c (Loops.block b)
  | .mk _ _ ts _ => fun _ _ _ h => stmtsValue_pieces ts h

theorem stmts_pieces : (ts : List (Stmt .typed)) → ∀ ⦃l tests : Bool⦄ ⦃c : Assembly⦄, stmts K l ts c →
    Pieces K tests c (Loops.stmts ts)
  | [] => fun _ _ _ h => h ▸ .nil
  | t :: ts => by
    rintro _ _ _ ⟨a, b, ha, hb, rfl⟩
    exact (stmt_pieces t ha).append (stmts_pieces ts hb)

theorem stmtsValue_pieces : (ts : List (Stmt .typed)) → ∀ ⦃l tests : Bool⦄ ⦃line : Int⦄ ⦃c : Assembly⦄,
    stmtsValue K l line ts c → Pieces K tests c (Loops.stmts ts)
  | [] => by
    rintro _ _ _ _ rfl
    exact .single
  | t :: ts => by
    intro l tests line c h
    have hcons : (∃ a b, stmt K l t a ∧ stmtsValue K l line ts b ∧ c = a ++ b) →
        Pieces K tests c (Loops.stmts (t :: ts)) := by
      rintro ⟨a, b, ha, hb, rfl⟩
      exact (stmt_pieces t ha).append (stmtsValue_pieces ts hb)
    cases ts with
    | cons => exact hcons (by cases t <;> exact h)
    | nil =>
      cases t with
      | expr tok e =>
        rw [Loops.stmts, Loops.stmts, List.append_nil]
        exact expr_pieces e h
      | _ => exact hcons h

theorem bounds_pieces : (e : Expr .typed) → ∀ ⦃b : Bool⦄ ⦃lo hi : Assembly → Prop⦄,
    bounds K b e = some (lo, hi) → ∃ ss ts, Loops.expr e = ss ++ ts ∧
      (∀ c, lo c → ∀ {tests}, Pieces K tests c ss) ∧ ∀ c, hi c → ∀ {tests}, Pieces K tests c ts
  | .range _ _ start stop => by
    intro _ _ _ h
    obtain ⟨rfl, rfl⟩ := Prod.mk.inj (Option.some.inj h)
    exact ⟨_, _, rfl, fun _ hc _ => expr_pieces start hc, fun _ hc _ => expr_pieces stop hc⟩
  | .name .. | .int .. | .float .. | .string .. | .char .. | .bool .. | .interpolated .. | .array ..
  | .unary .. | .binary .. | .assign .. | .call .. | .member .. | .index .. | .new .. | .tryUnwrap ..
  | .block _ | .cond .. | .cases .. => fun _ _ _ h => nomatch h

theorem stmt_pieces : (t : Stmt .typed) → ∀ ⦃l tests : Bool⦄ ⦃c : Assembly⦄, stmt K l t c →
    Pieces K tests c (Loops.stmt t)
  | .expr _ e => by
    rintro _ _ _ ⟨a, ha, rfl⟩
    exact (expr_pieces e ha).before .single
  | .bind _ _ _ _ e => by
    rintro _ _ _ ⟨-, a, ha, rfl⟩
    exact (expr_pieces e ha).before .single
  | .block b => fun _ _ _ h => block_pieces b h
  | .ret _ value => by
    intro _ _ _ h
    cases value with
    | none => exact h ▸ Pieces.single.before .single
    | some e =>
      obtain ⟨a, ha, rfl⟩ := h
      exact (expr_pieces e ha).before .single
  | .loop _ e b => by
    rintro _ _ _ ⟨t, a, ht, ha, rfl⟩
    exact .whileLoop (expr_pieces e ht) (block_pieces b ha)
  | .each tok item slots e b => by
    rintro inLoop tests _ ⟨hi, hm, start, a, l, ha, ⟨-, -, hx, k, hk, hmax, rfl⟩, rfl, hstart⟩
    have hbody : Pieces K false a (Loops.block b) := block_pieces b ha
    have haddressed : ∀ b ∈ [slots.index, slots.limit, slots.item], K.Addressed b := by
      simp [hi, hm, hx]
    have hrange : (bounds K inLoop e).isSome = (bounds K true e).isSome := bounds_isSome _ _ e
    cases hb : bounds K inLoop e with
    | some lh =>
      obtain ⟨lo, hi⟩ := lh
      rw [hb] at hstart
      obtain ⟨x, y, hx, hy, rfl⟩ := hstart
      obtain ⟨ss, ts, hloops, hlo, hhi⟩ := bounds_pieces e hb
      rw [Loops.stmt, hloops]
      exact .each (r := ⟨slots, true, tok.line, k, x, y, a⟩)
        ⟨rfl, by rw [← hrange, hb]; rfl, rfl, ha, haddressed, hk, hmax, inLoop,
          by rw [hb]; exact ⟨hx, hy⟩⟩ (hlo x hx) (hhi y hy) hbody
    | none =>
      rw [hb] at hstart
      obtain ⟨x, z, hx, hz, rfl⟩ := hstart
      have hparts : Lowers.Each K (.each tok item slots e b) ⟨slots, false, tok.line, k, x, z, a⟩ :=
        ⟨rfl, by rw [← hrange, hb]; rfl, rfl, ha, haddressed, hk, hmax, inLoop,
          by rw [hb]; exact ⟨hx, hz⟩⟩
      have h : Pieces K tests _ _ := .each hparts (expr_pieces e hx) (.const hz) hbody
      rw [List.append_nil] at h
      exact h
  | .leave _ => by
    rintro _ _ _ ⟨-, rfl⟩
    exact .straight trivial
  | .next _ => by
    rintro _ _ _ ⟨-, rfl⟩
    exact .straight trivial
  | .func _ => fun _ _ _ h => .nested h.2
  | .impl .. => by
    rintro _ _ _ ⟨-, rfl⟩
    exact .nil
  | .record .. | .union .. | .use .. => fun _ _ _ h => h ▸ .nil

end

theorem body_pieces {isUnit : Bool} {line : Int} : (ts : List (Stmt .typed)) → {c : Assembly} →
    body K isUnit line ts c → Pieces K false c (Loops.stmts ts)
  | [], _, h => h ▸ Pieces.single.before .single
  | t :: ts, c, h => by
    have hcons : (∃ a b, stmt K false t a ∧ body K isUnit line ts b ∧ c = a ++ b) →
        Pieces K false c (Loops.stmts (t :: ts)) := by
      rintro ⟨a, b, ha, hb, rfl⟩
      exact (stmt_pieces t ha).append (body_pieces ts hb)
    cases ts with
    | cons => exact hcons (by cases t <;> exact h)
    | nil =>
      rw [Loops.stmts, Loops.stmts, List.append_nil] at *
      cases t with
      | ret tok value => exact stmt_pieces (.ret tok value) h
      | expr tok e =>
        obtain ⟨a, ha, rfl⟩ := h
        have hvalue : Pieces K false a (Loops.expr e) := expr_pieces e ha
        split
        · exact ((hvalue.before .single).before .single).before .single
        · exact hvalue.before .single
      | _ => exact hcons h

theorem func_pieces {f : UserFunction} {d : FunDecl .typed} {c : Assembly} (h : func K f d c) :
    Pieces K false c (Loops.block d.body) := by
  obtain ⟨tok, _, info, _, params, _, ⟨_, _, ss, close⟩⟩ := d
  obtain ⟨-, a, ha, rfl⟩ := h
  refine Pieces.behind ?_ (body_pieces ss ha)
  generalize info.self.toList ++ params.map (·.decl) = bs
  induction bs with
  | nil => exact .nil
  | cons b bs ih =>
    refine Pieces.behind ?_ ih
    simp only [Lowering.paramCell]
    split
    · exact Pieces.single.before .single
    · exact .nil

theorem topStmts_pieces : {line : Int} → (ts : List (Stmt .typed)) → {c : Assembly} →
    topStmts K line ts c → Pieces K false c (Loops.stmts ts)
  | _, [], _, h => h ▸ Pieces.single.before .single
  | line, t :: ts, c, h => by
    have hcons : (∃ a b, stmt K false t a ∧ topStmts K t.token.line ts b ∧ c = a ++ b) →
        Pieces K false c (Loops.stmts (t :: ts)) := by
      rintro ⟨a, b, ha, hb, rfl⟩
      exact (stmt_pieces t ha).append (topStmts_pieces ts hb)
    cases ts with
    | cons => exact hcons (by cases t <;> exact h)
    | nil =>
      rw [Loops.stmts, Loops.stmts, List.append_nil] at *
      cases t with
      | expr tok e =>
        obtain ⟨a, ha, rfl⟩ := h
        exact (expr_pieces e ha).before .single
      | _ => exact hcons h

theorem initials_pieces {line : Int} : {known : List (Nat × Value)} → {c : Assembly} →
    initials K line known c → Pieces K false c []
  | [], _, h => h ▸ .nil
  | (_, _) :: _, _, ⟨_, _, _, ha, hb, rfl⟩ =>
    ((Pieces.const ha).before .single).before (initials_pieces hb)

end Lowers

end Scripting
