import Scripting.Proofs.Script.Balanced

/-!
# The code of functions and scripts

The code of a function runs from its parameters to a return, and that of a script from nothing to a
return. `Chunk.Verified` says that of a placed piece of code.
-/

namespace Scripting

open Slots (Kept)
open Shape (Within)

section

variable {C : Limits} {E : Exits} {c d : Assembly} {a b : Shape} {line : Int}

theorem Flows.ends (hc : Flows C E c a b) (hd : Ends C E d b) : Ends C E (c ++ d) a := by
  obtain ⟨f, hc⟩ := hc
  obtain ⟨hne, g, hd⟩ := hd
  have hpos : 0 < d.length := List.length_pos_iff.mpr hne
  refine ⟨by simp [hne], Limits.glue c.length f g, fun size shape o hsize hagrees => ?_⟩
  rw [List.length_append] at hsize hagrees
  rw [← Nat.add_assoc] at hsize
  obtain ⟨hstart, hsits⟩ := hd size shape (o + c.length) hsize hagrees.right
  obtain ⟨hstart', hsits'⟩ := hc size shape o (by omega) hagrees.left hstart
  exact ⟨hstart', hsits'.append hsits⟩

theorem Ends.ret (h : 0 < a.height) : Ends C E (Assembly.op .ret line) a := by
  refine ⟨by simp [Assembly.op], fun _ => a, fun size shape o hsize hagrees => ?_⟩
  have hat : shape o = a := hagrees 0 (by simp [Assembly.op])
  refine ⟨hat ▸ .refl _ _, .single ?_⟩
  rw [Limits.Good, hat]
  exact ⟨⟨rfl, .nil⟩, h, trivial, fun h => absurd rfl h⟩

theorem Ends.retUnit {line' : Int} :
    Ends C E (Assembly.op .unit line ++ Assembly.op .ret line') a :=
  Flows.ends (.plain (c := .unit) ⟨rfl, rfl⟩ (Nat.zero_le _) trivial) (.ret (Nat.succ_pos _))

end

namespace Lowers

open Lowering

variable {K : Lowering} {R : Region} {C : Limits}

def Site.body (σ : Slots) : Site := ⟨false, false, Exits.none, σ, 0⟩

theorem Site.Ready.body {σ : Slots} (hσ : σ.Inside R) : (Site.body σ).Ready K R := ⟨hσ, nofun⟩

section

variable (hC : K.Suits R C)
include hC

theorem first_ends {t : Stmt .typed} {ts : List (Stmt .typed)} {σ : Slots} {a b : Assembly}
    (hσ : σ.Inside R) (ha : Lowers.stmt K false t a) (hscoped : Scoped.stmt K.program R σ t)
    (hf : Formed.stmt K.program t) (hcalm : C.exact = true → Calm.stmts false (t :: ts))
    (hb : (σ.afterStmt K.program t).Inside R → (C.exact = true → Calm.stmts false ts) →
      Ends C Exits.none b ((σ.afterStmt K.program t).shape K.program 0)) :
    Ends C Exits.none (a ++ b) (σ.shape K.program 0) := by
  obtain ⟨-, hin⟩ := Slots.afterStmt_kept t hscoped hσ
  have hfirst := stmt_flows hC t (s := Site.body σ) (.body hσ) ha hscoped hf fun he => (hcalm he).1
  exact Flows.ends hfirst (hb hin fun he => (hcalm he).2)

theorem body_ends {isUnit : Bool} {line : Int} : (ss : List (Stmt .typed)) → {σ : Slots} →
    {c : Assembly} → σ.Inside R → Lowers.body K isUnit line ss c →
      Scoped.stmts K.program R σ ss → Formed.stmts K.program ss →
        (C.exact = true → Calm.stmts false ss) → Ends C Exits.none c (σ.shape K.program 0)
  | [], _, _, _, hc, _, _, _ => by
    obtain rfl := hc
    exact .retUnit
  | t :: ts, σ, c, hσ, hc, hscoped, hf, hcalm => by
    have hcons : (∃ a b, Lowers.stmt K false t a ∧ Lowers.body K isUnit line ts b ∧ c = a ++ b) →
        Ends C Exits.none c (σ.shape K.program 0) := by
      rintro ⟨a, b, ha, hb, rfl⟩
      exact first_ends hC hσ ha hscoped.1 hf.1 hcalm fun hin hcalm' =>
        body_ends ts hin hb hscoped.2 hf.2 hcalm'
    have hvalue : ∀ e a, Lowers.expr K false e a → Scoped.expr K.program R σ e →
        Formed.expr K.program e → (C.exact = true → Calm.expr false e) →
          Flows C Exits.none a (σ.shape K.program 0) (σ.shape K.program 1) := fun e a =>
      expr_flows hC e (s := Site.body σ) (.body hσ)
    cases ts with
    | cons => exact hcons (by cases t <;> exact hc)
    | nil =>
      cases t with
      | ret tok value =>
        cases value with
        | none =>
          obtain rfl := hc
          exact .retUnit
        | some e =>
          obtain ⟨a, ha, rfl⟩ := hc
          exact (hvalue e a ha hscoped.1 hf.1 fun he => (hcalm he).1).ends (.ret (Nat.succ_pos _))
      | expr tok e =>
        obtain ⟨a, ha, rfl⟩ := hc
        have hvalue := hvalue e a ha hscoped.1 hf.1 fun he => (hcalm he).1
        split
        · have hpop : Flows C Exits.none (Assembly.op .pop tok.line) (σ.shape K.program 1)
              (σ.shape K.program 0) := .plain ⟨rfl, rfl⟩ (Nat.le_refl 1) trivial
          rw [List.append_assoc]
          exact (hvalue.append hpop).ends .retUnit
        · exact hvalue.ends (.ret (Nat.succ_pos _))
      | _ => exact hcons hc

theorem topStmts_ends : (ss : List (Stmt .typed)) → {line : Int} → {σ : Slots} → {c : Assembly} →
    σ.Inside R → Lowers.topStmts K line ss c → Scoped.stmts K.program R σ ss →
      Formed.stmts K.program ss → (C.exact = true → Calm.stmts false ss) →
        Ends C Exits.none c (σ.shape K.program 0)
  | [], _, _, _, _, hc, _, _, _ => by
    obtain rfl := hc
    exact .retUnit
  | t :: ts, line, σ, c, hσ, hc, hscoped, hf, hcalm => by
    have hcons : (∃ a b, Lowers.stmt K false t a ∧ Lowers.topStmts K t.token.line ts b ∧
        c = a ++ b) → Ends C Exits.none c (σ.shape K.program 0) := by
      rintro ⟨a, b, ha, hb, rfl⟩
      exact first_ends hC hσ ha hscoped.1 hf.1 hcalm fun hin hcalm' =>
        topStmts_ends ts hin hb hscoped.2 hf.2 hcalm'
    cases ts with
    | cons => exact hcons (by cases t <;> exact hc)
    | nil =>
      cases t with
      | expr tok e =>
        obtain ⟨a, ha, rfl⟩ := hc
        have hvalue := expr_flows hC e (s := Site.body σ) (.body hσ) ha hscoped.1 hf.1
          fun he => (hcalm he).1
        exact Flows.ends hvalue (.ret (Nat.succ_pos _))
      | _ => exact hcons hc

theorem initials_flows {line : Int} {σ : Slots} : (known : List (Nat × Value)) → {c : Assembly} →
    Lowers.initials K line known c →
      Flows C Exits.none c (σ.shape K.program 0) (σ.shape K.program 0)
  | [], _, hc => by
    obtain rfl := hc
    exact .nil (.refl _ _)
  | (i, v) :: known, _, hc => by
    obtain ⟨hi, a, b, ha, hb, rfl⟩ := hc
    have hstore : Flows C Exits.none (word .setGlobal i line) (σ.shape K.program 1)
        (σ.shape K.program 0) := .word ⟨rfl, rfl⟩ hi (Nat.le_refl 1) trivial
    exact (Flows.append (const_flows hC ha) hstore).append (initials_flows known hb)

end

def paramShape (p : Program) (params : List BindingId) (k : Nat) : Shape :=
  ⟨0, fun j => params[j]?.map fun b => decide (j < k) && (p.binding b).captured⟩

theorem paramShape_succ {p : Program} {params : List BindingId} {k : Nat} {b : BindingId}
    (hb : params[k]? = some b) : paramShape p params (k + 1)
      = ⟨0, (paramShape p params k).store k (p.binding b).captured⟩ := by
  refine congrArg (Shape.mk 0) (funext fun j => ?_)
  rw [Shape.store, paramShape]
  by_cases hj : j = k
  · simp [hj, hb]
  · have hlt : (j < k + 1) ↔ (j < k) := by omega
    simp [hj, hlt]

theorem paramCell_flows {params : List BindingId} {k : Nat} {b : BindingId} {line : Int}
    (hb : params[k]? = some b) (hindex : (K.program.binding b).index = k) (hk : k < C.locals)
    (haddressed : (K.program.binding b).captured = true → K.Addressed b) :
    Flows C Exits.none (K.paramCell b line) (paramShape K.program params k)
      (paramShape K.program params (k + 1)) := by
  have hplain : (paramShape K.program params k).slots k = some false := by simp [paramShape, hb]
  rw [paramCell, paramShape_succ hb]
  cases hc : (K.program.binding b).captured with
  | false =>
    refine .nil ⟨Nat.le_refl _, fun _ => rfl, fun j x hx => ?_⟩
    dsimp only [Shape.store] at hx
    split at hx
    · rename_i hj
      rw [hj, hplain]
      exact hx
    · exact hx
  | true =>
    have hfits : k ≤ Emit.maxWord := hindex ▸ haddressed hc
    have hload : Flows C Exits.none (word .getLocal k line) (paramShape K.program params k)
        (paramShape K.program params k).push :=
      .word (c := .getLocal) ⟨rfl, rfl⟩ hfits (Nat.zero_le _) ⟨hk, hplain⟩
    rw [hindex]
    exact hload.append (.word (c := .makeCell) ⟨rfl, rfl⟩ hfits (Nat.le_refl 1) hk)

theorem paramCells_flows (line : Int) : (before bs : List BindingId) →
    (∀ j b, (before ++ bs)[j]? = some b → (K.program.binding b).index = j) →
      (before ++ bs).length ≤ C.locals →
        (∀ b ∈ bs, (K.program.binding b).captured = true → K.Addressed b) →
          Flows C Exits.none (bs.flatMap fun b => K.paramCell b line)
            (paramShape K.program (before ++ bs) before.length)
            (paramShape K.program (before ++ bs) (before ++ bs).length)
  | before, [], _, _, _ => by
    rw [List.append_nil]
    exact .nil (.refl _ _)
  | before, b :: bs, hindex, hroom, haddressed => by
    have hb : (before ++ b :: bs)[before.length]? = some b := by simp
    have hk : before.length < C.locals := by
      rw [List.length_append, List.length_cons] at hroom
      omega
    have hfirst : Flows C Exits.none (K.paramCell b line) _ _ :=
      paramCell_flows hb (hindex _ b hb) hk (haddressed b (by simp))
    have hsplit : before ++ b :: bs = (before ++ [b]) ++ bs := by simp
    have hrest := paramCells_flows line (before ++ [b]) bs (hsplit ▸ hindex) (hsplit ▸ hroom)
      fun x hx => haddressed x (by simp [hx])
    rw [← hsplit, List.length_append, List.length_singleton] at hrest
    rw [List.flatMap_cons]
    exact hfirst.append hrest

/-- What is known when a function is entered: its parameters are plain values. -/
def entryShape (d : FunDecl .typed) : Shape :=
  ⟨0, fun j => if j < d.paramDecls.length then some false else none⟩

theorem paramShape_zero (p : Program) (d : FunDecl .typed) :
    paramShape p d.paramDecls 0 = entryShape d := by
  refine congrArg (Shape.mk 0) (funext fun j => ?_)
  by_cases hj : j < d.paramDecls.length
  · simp [hj]
  · simp [hj]

theorem paramShape_length (p : Program) (d : FunDecl .typed) :
    paramShape p d.paramDecls d.paramDecls.length = d.entry.shape p 0 := by
  refine congrArg (Shape.mk 0) (funext fun j => ?_)
  rw [FunDecl.entry]
  cases hb : d.paramDecls[j]? with
  | none => rfl
  | some b =>
    have hj : j < d.paramDecls.length := (List.getElem?_eq_some_iff.mp hb).1
    simp [hj]

theorem entry_inside {p : Program} {d : FunDecl .typed} (hd : d.Framed p) :
    d.entry.Inside d.region := by
  intro j b hb
  have hj : j < d.paramDecls.length := (List.getElem?_eq_some_iff.mp hb).1
  exact Nat.lt_of_lt_of_le hj hd.room

theorem func_ends {d : FunDecl .typed} {f : UserFunction} {c : Assembly}
    (hC : K.Suits d.region C) (hc : Lowers.func K f d c) (hscoped : Scoped.func K.program d)
    (hf : Formed.func K.program d) (hcalm : C.exact = true → Calm.func d) :
    Ends C Exits.none c (entryShape d) := by
  obtain ⟨tok, nm, info, self, params, r, n, bt, ss, close⟩ := d
  obtain ⟨haddressed, a, ha, rfl⟩ := hc
  obtain ⟨hframed, hstmts⟩ := hscoped
  have hcells := paramCells_flows (C := C) (K := K) tok.line []
    (FunDecl.paramDecls (.mk tok nm info self params r (.mk n bt ss close)))
    (fun j b hb => (hframed.params j b hb).2.1) (hC.locals ▸ hframed.room) haddressed
  rw [List.nil_append, List.length_nil, paramShape_zero, paramShape_length] at hcells
  exact hcells.ends (body_ends hC ss (entry_inside hframed) ha hstmts hf hcalm)

theorem script_ends {known : List (Nat × Value)} {line : Int} {ss : List (Stmt .typed)}
    {a b : Assembly} (hC : K.Suits .top C) (ha : Lowers.initials K line known a)
    (hb : Lowers.topStmts K 0 ss b) (hscoped : Scoped.stmts K.program .top (fun _ => none) ss)
    (hf : Formed.stmts K.program ss) (hcalm : C.exact = true → Calm.stmts false ss) :
    Ends C Exits.none (a ++ b) ⟨0, fun _ => none⟩ :=
  (initials_flows hC known ha).ends
    (topStmts_ends hC ss (σ := fun _ => none) (fun _ _ h => nomatch h) hb hscoped hf hcalm)

end Lowers

/-- Whether a chunk is code that can be run in a frame: the frame starts in the shape `entry`, and
what an instruction leaves is what is asked where it goes. -/
def Chunk.Verified (C : Limits) (entry : Shape) (c : Chunk) : Prop :=
  ∃ (code : Assembly) (shape : Nat → Shape), c = code.chunk C.pool c.file ∧ 0 < code.length ∧
    Within C.exact entry (shape 0) ∧ C.Sits Exits.none code.length shape 0 code

theorem Ends.verified {C : Limits} {code : Assembly} {entry : Shape} (file : String)
    (h : Ends C Exits.none code entry) : (code.chunk C.pool file).Verified C entry := by
  obtain ⟨hne, f, h⟩ := h
  obtain ⟨hstart, hsits⟩ := h code.length f 0 (by simp) fun j _ => by rw [Nat.zero_add]
  exact ⟨code, f, by simp, List.length_pos_iff.mpr hne, hstart, hsits⟩

theorem Ends.fits {C : Limits} {code : Assembly} {entry : Shape} (h : Ends C Exits.none code entry) :
    code.Fits := by
  obtain ⟨-, f, hf⟩ := h
  exact (hf code.length f 0 (Nat.le_of_eq (Nat.zero_add _)) fun j _ => by rw [Nat.zero_add]).2.fits

end Scripting
