import Scripting.Proofs.Scope.Resolved
import Scripting.Proofs.Script.Parts

/-!
# The code of every tree keeps the stack

By induction on trees: the code of an expression pushes one value, and the code of a statement leaves
the stack as it was and the slots it declares stored to.
-/

namespace Scripting

open Slots (Kept)

namespace Slots

variable {p : Program} {R : Region}

mutual

theorem afterPattern_kept : (q : Pattern .typed) → {σ : Slots} → Scoped.pattern p R σ q →
    σ.Inside R → σ.Kept (σ.afterPattern p q) ∧ (σ.afterPattern p q).Inside R
  | .wildcard _, σ, _, hσ | .literal .., σ, _, hσ => ⟨.refl σ, hσ⟩
  | .bind .., _, h, hσ => ⟨.add h, hσ.add h⟩
  | .ctor _ _ _ qs, _, h, hσ => afterPatterns_kept qs h hσ

theorem afterPatterns_kept : (qs : List (Pattern .typed)) → {σ : Slots} → Scoped.patterns p R σ qs →
    σ.Inside R → σ.Kept (σ.afterPatterns p qs) ∧ (σ.afterPatterns p qs).Inside R
  | [], σ, _, hσ => ⟨.refl σ, hσ⟩
  | q :: qs, _, h, hσ => by
    obtain ⟨hk, hin⟩ := afterPattern_kept q h.1 hσ
    obtain ⟨hk', hin'⟩ := afterPatterns_kept qs h.2 hin
    exact ⟨hk.trans hk', hin'⟩

end

theorem afterStmt_kept {σ : Slots} (s : Stmt .typed) (h : Scoped.stmt p R σ s) (hσ : σ.Inside R) :
    σ.Kept (σ.afterStmt p s) ∧ (σ.afterStmt p s).Inside R := by
  cases s with
  | bind tok nm b ty e => exact ⟨.add h.2, hσ.add h.2⟩
  | func d =>
    obtain ⟨hnames, -⟩ := h
    rw [Slots.Names] at hnames
    rw [afterStmt]
    cases hb : d.info.binding with
    | none => exact ⟨.refl σ, hσ⟩
    | some b =>
      rw [hb] at hnames
      exact ⟨.add hnames.1, hσ.add hnames.1⟩
  | _ => exact ⟨.refl σ, hσ⟩

end Slots

namespace Lowers

open Lowering

variable {K : Lowering} {R : Region} {C : Limits}

theorem instruction_plain {o : BinaryOp} {i : Opcode} (hi : Emit.instruction? o = some i) :
    (i.widths = [] ∧ i.isSpecial = false) ∧ i.pops [] = 2 ∧ i.pushes = 1 ∧
      (∀ s, C.Asks s i []) ∧ ∀ s : Shape, s.stored i [] = s.slots := by
  cases o <;> cases hi <;> exact ⟨⟨rfl, rfl⟩, rfl, rfl, fun _ => trivial, fun _ => rfl⟩

theorem binary_flows {o : BinaryOp} {E : Exits} {σ : Slots} {h : Nat} {a b c : Assembly} {line : Int}
    (ha : Flows C E a (σ.shape K.program h) (σ.shape K.program (h + 1)))
    (hand : o = .and ∨ o = .or →
      Flows C E b (σ.shape K.program h) (σ.shape K.program (h + 1)))
    (hother : o ≠ .and → o ≠ .or →
      Flows C E b (σ.shape K.program (h + 1)) (σ.shape K.program (h + 2)))
    (hc : Binary o a b line c) :
    Flows C E c (σ.shape K.program h) (σ.shape K.program (h + 1)) := by
  have hshort : ∀ isOr, (o = .and ∨ o = .or) →
      Flows C E (Emit.shortCircuit isOr a b line) (σ.shape K.program h)
        (σ.shape K.program (h + 1)) := by
    intro isOr ho
    have hdup : Flows C E (Assembly.op .dup line) (σ.shape K.program (h + 1))
        (σ.shape K.program (h + 2)) := .plain ⟨rfl, rfl⟩ (Nat.le_add_left 1 h) trivial
    have hnot : Flows C E (if isOr then Assembly.op .not line else []) (σ.shape K.program (h + 2))
        (σ.shape K.program (h + 2)) := by
      split
      · exact .plain (c := .not) ⟨rfl, rfl⟩ (Nat.le_add_left 1 (h + 1)) trivial
      · exact .nil (.refl _ _)
    have hpop : Flows C E (Assembly.op .pop line) (σ.shape K.program (h + 1))
        (σ.shape K.program h) := .plain ⟨rfl, rfl⟩ (Nat.le_add_left 1 h) trivial
    exact ((ha.append hdup).append hnot).append (.guarded (hpop.append (hand ho)) (.refl _ _))
  have hplain : ∀ i, Emit.instruction? o = some i → o ≠ .and → o ≠ .or →
      Flows C E (a ++ (b ++ Assembly.op i line)) (σ.shape K.program h)
        (σ.shape K.program (h + 1)) := by
    intro i hi hna hno
    obtain ⟨hfits, hpops, hpushes, hasks, hstored⟩ := instruction_plain (C := C) hi
    have hop : Flows C E (Assembly.op i line) (σ.shape K.program (h + 2)) _ :=
      .plain hfits (hpops ▸ Nat.le_add_left 2 h) (hasks _)
    rw [Shape.after, hpops, hpushes, hstored] at hop
    exact ha.append ((hother hna hno).append hop)
  unfold Binary at hc
  split at hc
  · exact hc ▸ hshort false (.inl rfl)
  · exact hc ▸ hshort true (.inr rfl)
  · obtain ⟨i, hi, rfl⟩ := hc
    rename_i hna hno
    exact hplain i hi hna hno

/-- Where the code of a tree stands: whether a loop is around it and values are pending, where exits
go, and what the slots hold at which height of the stack. -/
structure Site where
  inLoop : Bool
  pending : Bool
  exits : Exits
  slots : Slots
  height : Nat

namespace Site

def above (s : Site) (n : Nat) : Site := { s with pending := true, height := s.height + n }

def behind (s : Site) (n : Nat) : Site :=
  { s with pending := s.pending || decide (n ≠ 0), height := s.height + n }

def knowing (s : Site) (τ : Slots) : Site := { s with slots := τ }

/-- Whether code may stand at a site. -/
structure Ready (K : Lowering) (R : Region) (s : Site) : Prop where
  inside : s.slots.Inside R
  opens : s.exits.Open s.inLoop s.pending (s.slots.shape K.program s.height)

def Pushes (K : Lowering) (C : Limits) (s : Site) (c : Assembly) (n : Nat) : Prop :=
  Flows C s.exits c (s.slots.shape K.program s.height) (s.slots.shape K.program (s.height + n))

variable {s : Site} {τ : Slots} {c d : Assembly} {m n : Nat}

theorem Ready.above (hs : s.Ready K R) (n : Nat) : (s.above n).Ready K R :=
  ⟨hs.inside, hs.opens.higher n⟩

theorem Ready.behind (hs : s.Ready K R) (n : Nat) : (s.behind n).Ready K R := by
  cases n with
  | zero =>
    refine ⟨hs.inside, ?_⟩
    have hsame : (s.pending || decide (0 ≠ 0)) = s.pending := by simp
    rw [Site.behind, hsame]
    exact hs.opens
  | succ n =>
    refine ⟨hs.inside, ?_⟩
    have htrue : (s.pending || decide (n + 1 ≠ 0)) = true := by simp
    rw [Site.behind, htrue]
    exact hs.opens.higher (n + 1)

theorem Ready.knowing (hs : s.Ready K R) (hk : s.slots.Kept τ) (hτ : τ.Inside R) :
    (s.knowing τ).Ready K R :=
  ⟨hτ, hs.opens.kept hk⟩

theorem Pushes.append (hc : s.Pushes K C c m) (hd : (s.above m).Pushes K C d n) :
    s.Pushes K C (c ++ d) (m + n) := by
  have hd' : Flows C s.exits d (s.slots.shape K.program (s.height + m))
      (s.slots.shape K.program (s.height + m + n)) := hd
  rw [Nat.add_assoc] at hd'
  exact Flows.append hc hd'

theorem Pushes.nil : s.Pushes K C [] 0 := Flows.nil (.refl _ _)

def missing (s : Site) (t : Shape) : Site := { s with exits := s.exits.set .miss t }

theorem Ready.missing (hs : s.Ready K R) (t : Shape) : (s.missing t).Ready K R :=
  ⟨hs.inside, hs.opens.miss⟩

def looping (s : Site) (p : Program) (σ : Slots) : Site :=
  { s with
    inLoop := true, pending := false
    exits := (s.exits.set .next (σ.shape p s.height)).set .leave (σ.shape p s.height) }

theorem Ready.looping {σ : Slots} (hs : s.Ready K R) (hk : σ.Kept s.slots) :
    (s.looping K.program σ).Ready K R :=
  ⟨hs.inside, .loop hk⟩

end Site

/-- Whether code loads a part of a variable, wherever that can be read. -/
def Loads (K : Lowering) (R : Region) (C : Limits) (subject : Assembly → Prop) (b : BindingId) : Prop :=
  ∀ (s : Site) (c : Assembly), subject c → s.slots.Inside R → s.slots.Has K.program b →
    s.Pushes K C c 1

theorem ordered_flows {inits : List (String × (Assembly → Prop))} {s : Site} {fs : List String}
    {c : Assembly} (hgiven : ∀ f ∈ fs, ∀ n a, ((inits.lookup f).getD (· = [])) a →
      (s.above n).Pushes K C a 1) (hc : Ordered inits fs c) (n : Nat) :
    (s.above n).Pushes K C c fs.length := by
  induction fs generalizing n c with
  | nil =>
    obtain rfl := hc
    exact .nil
  | cons f fs ih =>
    obtain ⟨a, b, ha, hb, rfl⟩ := hc
    have hfirst := hgiven f (by simp) n a ha
    have hrest := ih (fun g hg => hgiven g (by simp [hg])) hb (n + 1)
    rw [List.length_cons, Nat.add_comm]
    refine hfirst.append ?_
    rw [Site.above, Site.above, Nat.add_assoc]
    exact hrest

theorem fields_flows {inits : List (String × (Assembly → Prop))} {s : Site} {t : Template}
    {c : Assembly} (hs : s.Ready K R)
    (hfield : ∀ f ∈ t.fields, ∀ u : Site, u.Ready K R → u.slots = s.slots → u.inLoop = s.inLoop →
      u.pending = (if t.first = some f then s.pending else true) →
        ∀ x, ((inits.lookup f).getD (· = [])) x → u.Pushes K C x 1)
    (hc : Ordered inits t.fields c) : s.Pushes K C c t.fields.length := by
  cases hfields : t.fields with
  | nil =>
    rw [hfields] at hc
    obtain rfl := hc
    exact .nil
  | cons f fs =>
    rw [hfields] at hc hfield
    obtain ⟨a, b, ha, hb, rfl⟩ := hc
    have hfirst : s.Pushes K C a 1 := by
      by_cases hagain : f ∈ fs
      · refine hfield f (by simp) (s.above 0) (hs.above 0) rfl rfl ?_ a ha
        rw [Template.first, hfields]
        simp [hagain, Site.above]
      · refine hfield f (by simp) s hs rfl rfl ?_ a ha
        rw [Template.first, hfields]
        simp [hagain]
    have hrest : (s.above 1).Pushes K C b fs.length := by
      refine ordered_flows (fun g hg n x hx => ?_) hb 1
      refine hfield g (by simp [hg]) (s.above n) (hs.above n) rfl rfl ?_ x hx
      rw [Template.first, hfields]
      by_cases hagain : f ∈ fs
      · simp [hagain, Site.above]
      · have hne : f ≠ g := fun h => hagain (h ▸ hg)
        simp [hagain, hne, Site.above]
    rw [List.length_cons, Nat.add_comm]
    exact hfirst.append hrest

theorem inits_lookup {b : Bool} {f : String} : {fs : List (FieldInit .typed)} →
    f ∈ fs.map FieldInit.name → ∃ P, (Lowers.inits K b fs).lookup f = some P
  | .mk _ name e :: fs, h => by
    rw [Lowers.inits, List.lookup_cons]
    split
    · exact ⟨_, rfl⟩
    · rename_i hne
      refine inits_lookup ((List.mem_cons.mp h).resolve_left ?_)
      rintro rfl
      simp at hne

theorem Loads.field (hC : K.Suits R C) {subject : Assembly → Prop} {b : BindingId} (h : Loads K R C subject b)
    (name : String) (line : Int) :
    Loads K R C (fun x => ∃ s n, subject s ∧ K.Named .getField name line n ∧ x = s ++ n) b := by
  rintro s _ ⟨a, n, ha, hn, rfl⟩ hin hhas
  exact Flows.append (h s a ha hin hhas) (named_flows hC (.inl rfl) hn)

theorem store_flows (hC : K.Suits R C) {s : Site} {tok : Token} {v c : Assembly} (e : Expr .typed)
    (hs : s.Ready K R)
    (hc : Lowers.store K s.inLoop tok v e c) (hscoped : Scoped.expr K.program R s.slots e)
    (hname : ¬ e.IsMember → s.Pushes K C v 1) (hmember : e.IsMember → (s.above 2).Pushes K C v 1)
    (hobject : e.IsMember → ∀ a, Lowers.receiver K s.inLoop e a → s.Pushes K C a 1) :
    s.Pushes K C c 1 := by
  have hdup : (s.above 1).Pushes K C (Assembly.op .dup tok.line) 1 :=
    .plain ⟨rfl, rfl⟩ (Nat.le_add_left 1 _) trivial
  cases e with
  | name _ t _ slot =>
    obtain ⟨hi, rfl⟩ := hc
    exact Flows.append ((hname not_false).append hdup) (storeSlot_flows hC hi hs.inside hscoped)
  | member _ _ left field =>
    obtain ⟨o, f, ho, hset, rfl⟩ := hc
    have hvalue := ((hobject trivial o ho).append hdup).append (hmember trivial)
    -- of the object's two copies the lower one is dropped in the end
    have hset := named_flows hC (E := s.exits) (σ := s.slots) (h := s.height + 1) (.inr (.inl rfl)) hset
    have hpop : Flows C s.exits (Assembly.op .popBelow tok.line)
        (s.slots.shape K.program (s.height + 2)) (s.slots.shape K.program (s.height + 1)) :=
      .plain ⟨rfl, rfl⟩ (Nat.le_add_left 2 _) trivial
    exact Flows.append (Flows.append hvalue hset) hpop
  | _ => exact hc.elim

theorem misses_flows {s : Site} {σ : Slots} {line : Int}
    (hmiss : s.exits .miss = some (σ.shape K.program s.height)) (hkept : σ.Kept s.slots) :
    Flows C s.exits [⟨line, .exit .miss⟩] (s.slots.shape K.program (s.height + 1))
      (s.slots.shape K.program s.height) :=
  .misses hmiss (Nat.succ_pos _) (hkept.within _)

theorem callee_flows (hC : K.Suits R C) {s : Site} {info : CallInfo} {line : Int} {n : Nat} {P : Assembly →
    Prop}
    {c : Assembly} (hdynamic : info.isStatic = false → P c → (s.above n).Pushes K C c 1)
    (hc : K.Target info line P c) : (s.above n).Pushes K C c 1 := by
  rw [Target] at hc
  split at hc
  · exact const_flows hC hc
  · exact hc.elim
  · rename_i hstatic
    exact hdynamic hstatic hc

mutual

theorem expr_flows (hC : K.Suits R C) : (e : Expr .typed) → ∀ ⦃s : Site⦄ ⦃c : Assembly⦄, s.Ready K R →
    Lowers.expr K s.inLoop e c → Scoped.expr K.program R s.slots e → Formed.expr K.program e →
      (C.exact = true → Calm.expr s.pending e) → s.Pushes K C c 1
  | .name .. => by
    rintro s _ hs ⟨hi, rfl⟩ hscoped _ _
    exact loadSlot_flows hC hi hs.inside hscoped
  | .int .. | .float .. | .string .. | .char .. | .bool .. => by
    intro s _ _ hc _ _ _
    exact const_flows hC hc
  | .interpolated _ tok ps => by
    intro s _ hs hc hscoped hf hcalm
    rw [Lowers.expr] at hc
    split at hc
    · exact const_flows hC hc
    · obtain ⟨hcount, a, f, ha, hconcat, rfl⟩ := hc
      have hparts := parts_flows hC ps hs ha hscoped hf hcalm
      have hcallee : (s.above ps.length).Pushes K C f 1 := const_flows hC hconcat
      exact Flows.append hparts (Flows.append hcallee (call_flows hcount))
  | .array _ tok es => by
    rintro s _ hs ⟨hcount, a, ha, rfl⟩ hscoped hf hcalm
    exact Flows.append (exprs_flows hC es hs ha hscoped hf hcalm) (makeArray_flows hcount)
  | .unary _ tok o right => by
    rintro s _ hs ⟨a, ha, rfl⟩ hscoped hf hcalm
    refine Flows.append (expr_flows hC right hs ha hscoped hf hcalm) ?_
    cases o with
    | neg => exact .plain (c := .neg) ⟨rfl, rfl⟩ (Nat.le_add_left 1 _) trivial
    | not => exact .plain (c := .not) ⟨rfl, rfl⟩ (Nat.le_add_left 1 _) trivial
  | .binary _ tok o left right => by
    rintro s _ hs ⟨a, b, ha, hb, hc⟩ hscoped hf hcalm
    refine binary_flows (expr_flows hC left hs ha hscoped.1 hf.1 fun he => ?_)
      (fun ho => expr_flows hC right hs hb hscoped.2 hf.2 fun he => ?_)
      (fun hna hno => expr_flows hC right (hs.above 1) hb hscoped.2 hf.2 fun he => ?_) hc
    · have := hcalm he
      cases o <;> exact this.1
    · have := hcalm he
      rcases ho with rfl | rfl <;> exact this.2
    · have := hcalm he
      cases o <;> first | exact absurd rfl hna | exact absurd rfl hno | exact this.2
  | .assign _ tok target value => by
    rintro s _ hs ⟨v, hv, hc⟩ hscoped hf hcalm
    refine store_flows hC target hs hc hscoped.1 (fun hne => ?_) (fun hm => ?_) fun hm a ha => ?_
    · refine expr_flows hC value hs hv hscoped.2 hf.2 fun he => ?_
      have := hcalm he
      cases target <;> first | exact absurd trivial hne | exact this
    · refine expr_flows hC value (hs.above 2) hv hscoped.2 hf.2 fun he => ?_
      have := hcalm he
      cases target <;> first | exact hm.elim | exact this.2
    · refine receiver_flows hC target hs ha hm hscoped.1 hf.1 fun he => ?_
      have := hcalm he
      cases target <;> first | exact hm.elim | exact this.1
  | .call _ tok info callee es => by
    rintro s _ hs ⟨hcount, a, b, t, ha, hb, ht, rfl⟩ hscoped hf hcalm
    generalize hn : (if info.viaReceiver then 1 else 0) = n at hcount
    have hvia : decide (n ≠ 0) = info.viaReceiver := by
      rw [← hn]
      cases info.viaReceiver <;> rfl
    have hreceiver : s.Pushes K C a n := by
      cases hr : info.viaReceiver with
      | true =>
        rw [hr] at ha hn
        obtain rfl : 1 = n := hn
        exact receiver_flows hC callee hs ha (hf.1 hr) hscoped.1 hf.2.1 fun he => (hcalm he).1 hr
      | false =>
        rw [hr] at ha hn
        obtain rfl : 0 = n := hn
        obtain rfl : a = [] := ha
        exact .nil
    have hargs : Flows C s.exits b (s.slots.shape K.program (s.height + n))
        (s.slots.shape K.program (s.height + n + es.length)) := by
      refine exprs_flows hC es (hs.behind n) hb hscoped.2 hf.2.2 fun he => ?_
      have := (hcalm he).2.1
      rwa [← hvia] at this
    have hcallee : (s.above (n + es.length)).Pushes K C t 1 := by
      refine callee_flows hC (fun hstatic hcallee => ?_) ht
      show (s.behind (n + es.length)).Pushes K C t 1
      refine expr_flows hC callee (hs.behind (n + es.length)) hcallee hscoped.1 hf.2.1 fun he => ?_
      have hpending : (s.behind (n + es.length)).pending
          = (s.pending || info.viaReceiver || !es.isEmpty) := by
        rw [← hvia]
        cases es <;> simp [Site.behind]
      rw [hpending]
      exact (hcalm he).2.2 hstatic
    have hall := Flows.append hreceiver hargs
    rw [Nat.add_assoc] at hall
    refine Flows.append (Flows.append hall hcallee) ?_
    rw [Nat.add_comm n es.length]
    exact call_flows hcount
  | .member _ _ left field => by
    rintro s _ hs ⟨a, b, ha, hb, rfl⟩ hscoped hf hcalm
    exact Flows.append (expr_flows hC left hs ha hscoped hf hcalm) (named_flows hC (.inl rfl) hb)
  | .index _ tok left index => by
    rintro s _ hs ⟨a, b, ha, hb, rfl⟩ hscoped hf hcalm
    have hleft := expr_flows hC left hs ha hscoped.1 hf.1 fun he => (hcalm he).1
    have hindex := expr_flows hC index (hs.above 1) hb hscoped.2 hf.2 fun he => (hcalm he).2
    exact Flows.append (hleft.append hindex)
      (.plain (c := .getIndex) ⟨rfl, rfl⟩ (Nat.le_add_left 2 _) trivial)
  | .new _ tok t _ fields => by
    rintro s _ hs ⟨a, b, ha, hb, rfl⟩ hscoped ⟨_, hgiven, hf⟩ hcalm
    refine Flows.append (fields_flows hs (fun f hm u hu hslots hloop hpending x hx => ?_) ha)
      (build_flows hC hb)
    obtain ⟨P, hP⟩ := inits_lookup (K := K) (b := s.inLoop) (hgiven f hm)
    rw [hP] at hx
    rw [← hloop] at hP
    exact inits_flows hC fields hu hP hx (hslots ▸ hscoped) hf hcalm hpending
  | .tryUnwrap _ tok value => by
    rintro s _ hs ⟨a, ha, rfl⟩ hscoped hf hcalm
    exact Flows.append (expr_flows hC value hs ha hscoped hf hcalm)
      (.plain (c := .unwrapOrReturn) ⟨rfl, rfl⟩ (Nat.le_add_left 1 _) trivial)
  | .range .. => by
    intro s _ _ hc
    exact hc.elim
  | .block b => blockValue_flows hC b
  | .cond _ tok test body alt => by
    rintro s _ hs ⟨t, ht, hc⟩ hscoped hf hcalm
    have htest := expr_flows hC test hs ht hscoped.1 hf.1 fun he => (hcalm he).1
    cases alt with
    | none =>
      obtain ⟨y, hy, rfl⟩ := hc
      have hyes := block_flows hC body hs hy hscoped.2.1 hf.2.1 fun he => (hcalm he).2.1
      have hunit : s.Pushes K C (Assembly.op .unit tok.line) 1 :=
        .plain ⟨rfl, rfl⟩ (Nat.zero_le _) trivial
      exact Flows.append (Flows.append htest (.guarded hyes (.refl _ _))) hunit
    | some alt =>
      obtain ⟨y, n, hy, hn, rfl⟩ := hc
      have hyes := blockValue_flows hC body hs hy hscoped.2.1 hf.2.1 fun he => (hcalm he).2.1
      have hno := expr_flows hC alt hs hn hscoped.2.2 hf.2.2 fun he => (hcalm he).2.2
      exact Flows.append htest (.choice hyes hno)
  | .cases _ tok subject decl as => by
    rintro s _ hs ⟨hdecl, x, a, hx, ha, rfl⟩ ⟨hsubject, hfresh, harms⟩ hf hcalm
    have hvalue := expr_flows hC subject hs hx hsubject hf.1 fun he => (hcalm he).1
    have hdeclare : Flows C s.exits (K.declare decl tok.line) _ _ :=
      declare_flows hC (h := s.height) hdecl hfresh
    have hload : Loads K R C (· = K.load decl tok.line) decl := by
      rintro u _ rfl hin hhas
      exact load_flows hC hdecl hin hhas
    have hready := hs.knowing (.add hfresh) (hs.inside.add hfresh)
    have htests := arms_flows hC as hready hload Slots.has_add ha harms hf.2 fun he => (hcalm he).2
    exact Flows.append (Flows.append hvalue hdeclare)
      (Flows.post htests ((Kept.add hfresh).within _))

theorem exprs_flows (hC : K.Suits R C) : (es : List (Expr .typed)) →
    ∀ ⦃s : Site⦄ ⦃c : Assembly⦄, s.Ready K R →
    Lowers.exprs K s.inLoop es c → Scoped.exprs K.program R s.slots es → Formed.exprs K.program es →
      (C.exact = true → Calm.exprs s.pending es) → s.Pushes K C c es.length
  | [] => by
    rintro s _ _ rfl _ _ _
    exact .nil
  | e :: es => by
    rintro s _ hs ⟨a, b, ha, hb, rfl⟩ hscoped hf hcalm
    have hfirst := expr_flows hC e hs ha hscoped.1 hf.1 fun he => (hcalm he).1
    have hrest := exprs_flows hC es (hs.above 1) hb hscoped.2 hf.2 fun he => (hcalm he).2
    rw [List.length_cons, Nat.add_comm]
    exact hfirst.append hrest

theorem receiver_flows (hC : K.Suits R C) : (e : Expr .typed) → ∀ ⦃s : Site⦄ ⦃c : Assembly⦄, s.Ready K R →
    Lowers.receiver K s.inLoop e c → e.IsMember → Scoped.expr K.program R s.slots e →
      Formed.expr K.program e → (C.exact = true → Calm.receiver s.pending e) → s.Pushes K C c 1
  | .member _ _ left _ => by
    intro s _ hs hc _ hscoped hf hcalm
    exact expr_flows hC left hs hc hscoped hf hcalm
  | .name .. | .int .. | .float .. | .string .. | .char .. | .bool .. | .interpolated .. | .array ..
  | .unary .. | .binary .. | .assign .. | .call .. | .index .. | .new .. | .tryUnwrap .. | .range ..
  | .block _ | .cond .. | .cases .. => by
    intro s _ _ _ hm
    exact hm.elim

theorem bounds_flows (hC : K.Suits R C) : (e : Expr .typed) → ∀ ⦃s : Site⦄ ⦃lo hi : Assembly →
    Prop⦄, s.Ready K R →
    Lowers.bounds K s.inLoop e = some (lo, hi) → Scoped.expr K.program R s.slots e →
      Formed.expr K.program e → (C.exact = true → Calm.expr s.pending e) →
        (∀ x, lo x → s.Pushes K C x 1) ∧ ∀ y, hi y → s.Pushes K C y 1
  | .range _ _ start stop => by
    intro s lo hi hs hb hscoped hf hcalm
    obtain ⟨rfl, rfl⟩ := Prod.mk.inj (Option.some.inj hb)
    exact ⟨fun x hx => expr_flows hC start hs hx hscoped.1 hf.1 fun he => (hcalm he).1,
      fun y hy => expr_flows hC stop hs hy hscoped.2 hf.2 fun he => (hcalm he).2⟩
  | .name .. | .int .. | .float .. | .string .. | .char .. | .bool .. | .interpolated .. | .array ..
  | .unary .. | .binary .. | .assign .. | .call .. | .member .. | .index .. | .new .. | .tryUnwrap ..
  | .block _ | .cond .. | .cases .. => by
    intro s lo hi _ hb
    cases hb

theorem parts_flows (hC : K.Suits R C) : (ps : List (Expr .typed)) → ∀ ⦃s : Site⦄ ⦃c : Assembly⦄ ⦃line : Int⦄,
    s.Ready K R → Lowers.parts K s.inLoop line ps c → Scoped.exprs K.program R s.slots ps →
      Formed.exprs K.program ps → (C.exact = true → Calm.exprs s.pending ps) →
        s.Pushes K C c ps.length
  | [] => by
    rintro s _ _ _ rfl _ _ _
    exact .nil
  | e :: es => by
    rintro s _ line hs ⟨a, b, ha, hb, rfl⟩ hscoped hf hcalm
    have hrest := parts_flows hC es (hs.above 1) hb hscoped.2 hf.2 fun he => (hcalm he).2
    have hpart : s.Pushes K C a 1 := by
      split at ha
      · exact const_flows hC ha
      · obtain ⟨v, hv, rfl⟩ := ha
        exact Flows.append (expr_flows hC e hs hv hscoped.1 hf.1 fun he => (hcalm he).1)
          (.plain (c := .toText) ⟨rfl, rfl⟩ (Nat.le_add_left 1 _) trivial)
    rw [List.length_cons, Nat.add_comm]
    exact hpart.append hrest

theorem inits_flows (hC : K.Suits R C) : (fs : List (FieldInit .typed)) → ∀ ⦃s : Site⦄ ⦃pending : Bool⦄
    ⦃first : Option String⦄ ⦃f : String⦄ ⦃P : Assembly → Prop⦄ ⦃c : Assembly⦄, s.Ready K R →
      (Lowers.inits K s.inLoop fs).lookup f = some P → P c → Scoped.inits K.program R s.slots fs →
        Formed.inits K.program fs → (C.exact = true → Calm.inits pending first fs) →
          s.pending = (if first = some f then pending else true) → s.Pushes K C c 1
  | [] => by
    intro s _ _ _ P _ _ hP
    cases hP
  | .mk _ name e :: fs => by
    intro s pending first f P c hs hP hc hscoped hf hcalm hpending
    rw [Lowers.inits, List.lookup_cons] at hP
    split at hP
    · rename_i hname
      obtain rfl : f = name := by simpa using hname
      obtain rfl := Option.some.inj hP
      refine expr_flows hC e hs hc hscoped.1 hf.1 fun he => ?_
      rw [hpending]
      exact (hcalm he).1
    · exact inits_flows hC fs hs hP hc hscoped.2 hf.2 (fun he => (hcalm he).2) hpending

theorem arms_flows (hC : K.Suits R C) : (as : List (Arm .typed)) → ∀ ⦃s : Site⦄ ⦃subject : Assembly → Prop⦄
    ⦃b : BindingId⦄ ⦃line : Int⦄ ⦃c : Assembly⦄, s.Ready K R → Loads K R C subject b →
      s.slots.Has K.program b → Lowers.arms K s.inLoop subject line as c →
        Scoped.arms K.program R s.slots as → Formed.arms K.program as →
          (C.exact = true → Calm.arms s.pending as) → s.Pushes K C c 1
  | [] => by
    rintro s _ _ _ _ _ _ _ rfl _ _ _
    exact .plain (c := .unit) ⟨rfl, rfl⟩ (Nat.zero_le _) trivial
  | .mk tok q e :: as => by
    rintro s _ _ _ _ hs hload hhas ⟨t, b, r, ht, hb, hr, rfl⟩ ⟨hq, he, has⟩ hf hcalm
    obtain ⟨hkept, hin⟩ := Slots.afterPattern_kept q hq hs.inside
    have htests := pattern_flows hC q (hs.missing (s.slots.shape K.program s.height)) hload hhas rfl
      (.refl _) ht hq hf.1 fun he => (hcalm he).1
    have hbody := expr_flows hC e (hs.knowing hkept hin) hb he hf.2.1 fun he => (hcalm he).2.1
    have hrest := arms_flows hC as hs hload hhas hr has hf.2.2 fun he => (hcalm he).2.2
    exact Flows.arm htests (Flows.post hbody (hkept.within _)) hrest

theorem pattern_flows (hC : K.Suits R C) : (q : Pattern .typed) →
    ∀ ⦃s : Site⦄ ⦃σ : Slots⦄ ⦃subject : Assembly → Prop⦄
    ⦃b : BindingId⦄ ⦃c : Assembly⦄, s.Ready K R → Loads K R C subject b → s.slots.Has K.program b →
      s.exits .miss = some (σ.shape K.program s.height) → σ.Kept s.slots →
        Lowers.pattern K s.inLoop subject q c → Scoped.pattern K.program R s.slots q →
          Formed.pattern K.program q → (C.exact = true → Calm.pattern q) →
            Flows C s.exits c (s.slots.shape K.program s.height)
              ((s.slots.afterPattern K.program q).shape K.program s.height)
  | .wildcard _ => by
    rintro s _ _ _ _ _ _ _ _ _ rfl _ _ _
    exact .nil (.refl _ _)
  | .bind name decl => by
    rintro s _ _ _ _ hs hload hhas _ _ ⟨hdecl, x, hx, rfl⟩ hscoped _ _
    exact Flows.append (hload s x hx hs.inside hhas) (declare_flows hC hdecl hscoped)
  | .literal tok value => by
    rintro s σ _ _ _ hs hload hhas hmiss hkept ⟨x, v, hx, hv, rfl⟩ hscoped hf hcalm
    have hvalue := expr_flows hC value (hs.above 1) hv hscoped hf hcalm
    have hequal : Flows C s.exits (Assembly.op .eq tok.line)
        (s.slots.shape K.program (s.height + 2)) (s.slots.shape K.program (s.height + 1)) :=
      .plain ⟨rfl, rfl⟩ (Nat.le_add_left 2 _) trivial
    exact Flows.append (Flows.append ((hload s x hx hs.inside hhas).append hvalue) hequal)
      (misses_flows hmiss hkept)
  | .ctor tok test _ qs => by
    rintro s σ _ _ _ hs hload hhas hmiss hkept ⟨hcount, x, t, r, hx, ht, hr, rfl⟩ hscoped hf hcalm
    have hcheck := named_flows hC (E := s.exits) (σ := s.slots) (h := s.height) (.inr (.inr rfl)) ht
    have hrest := patterns_flows hC qs hcount hs hload hhas hmiss hkept hr hscoped hf hcalm
    exact Flows.append (Flows.append (Flows.append (hload s x hx hs.inside hhas) hcheck)
      (misses_flows hmiss hkept)) hrest

theorem patterns_flows (hC : K.Suits R C) : (qs : List (Pattern .typed)) → ∀ ⦃s : Site⦄ ⦃σ : Slots⦄
    ⦃subject : Assembly → Prop⦄ ⦃b : BindingId⦄ ⦃line : Int⦄ ⦃fs : List String⦄ ⦃c : Assembly⦄,
      qs.length ≤ fs.length → s.Ready K R → Loads K R C subject b → s.slots.Has K.program b →
        s.exits .miss = some (σ.shape K.program s.height) → σ.Kept s.slots →
          Lowers.patterns K s.inLoop subject line fs qs c → Scoped.patterns K.program R s.slots qs →
            Formed.patterns K.program qs → (C.exact = true → Calm.patterns qs) →
              Flows C s.exits c (s.slots.shape K.program s.height)
                ((s.slots.afterPatterns K.program qs).shape K.program s.height)
  | [] => by
    intro s _ _ _ _ fs _ _ _ _ _ _ _ hc _ _ _
    obtain rfl : _ = [] := by cases fs <;> exact hc
    exact .nil (.refl _ _)
  | q :: qs => by
    intro s σ _ _ line fs _ hcount hs hload hhas hmiss hkept hc hscoped hf hcalm
    obtain ⟨hkept', hin⟩ := Slots.afterPattern_kept q hscoped.1 hs.inside
    cases fs with
    | nil => exact absurd hcount (by simp)
    | cons f fs =>
      obtain ⟨a, b, ha, hb, rfl⟩ := hc
      have hfirst := pattern_flows hC q hs (hload.field hC f line) hhas hmiss hkept ha hscoped.1 hf.1
        fun he => (hcalm he).1
      have hrest := patterns_flows hC qs (Nat.le_of_succ_le_succ hcount) (hs.knowing hkept' hin) hload
        (hhas.kept hkept') hmiss
        (hkept.trans hkept') hb hscoped.2 hf.2 fun he => (hcalm he).2
      exact Flows.append hfirst hrest

theorem block_flows (hC : K.Suits R C) : (b : Block .typed) → ∀ ⦃s : Site⦄ ⦃c : Assembly⦄, s.Ready K R →
    Lowers.block K s.inLoop b c → Scoped.block K.program R s.slots b → Formed.block K.program b →
      (C.exact = true → Calm.block s.pending b) → s.Pushes K C c 0
  | .mk _ _ ss _ => stmts_flows hC ss

theorem blockValue_flows (hC : K.Suits R C) : (b : Block .typed) → ∀ ⦃s : Site⦄ ⦃c : Assembly⦄, s.Ready K R →
    Lowers.blockValue K s.inLoop b c → Scoped.block K.program R s.slots b → Formed.block K.program b →
      (C.exact = true → Calm.block s.pending b) → s.Pushes K C c 1
  | .mk _ _ ss _ => by
    intro s c hs hc
    exact stmtsValue_flows hC ss hs hc

theorem stmts_flows (hC : K.Suits R C) : (ss : List (Stmt .typed)) →
    ∀ ⦃s : Site⦄ ⦃c : Assembly⦄, s.Ready K R →
    Lowers.stmts K s.inLoop ss c → Scoped.stmts K.program R s.slots ss → Formed.stmts K.program ss →
      (C.exact = true → Calm.stmts s.pending ss) → s.Pushes K C c 0
  | [] => by
    rintro s _ _ rfl _ _ _
    exact .nil
  | t :: ts => by
    rintro s _ hs ⟨a, b, ha, hb, rfl⟩ hscoped hf hcalm
    obtain ⟨hkept, hin⟩ := Slots.afterStmt_kept t hscoped.1 hs.inside
    have hfirst := stmt_flows hC t hs ha hscoped.1 hf.1 fun he => (hcalm he).1
    have hrest := stmts_flows hC ts (hs.knowing hkept hin) hb hscoped.2 hf.2 fun he => (hcalm he).2
    exact Flows.append hfirst (Flows.post hrest (hkept.within _))

theorem stmtsValue_flows (hC : K.Suits R C) : (ss : List (Stmt .typed)) →
    ∀ ⦃s : Site⦄ ⦃line : Int⦄ ⦃c : Assembly⦄,
    s.Ready K R → Lowers.stmtsValue K s.inLoop line ss c → Scoped.stmts K.program R s.slots ss →
      Formed.stmts K.program ss → (C.exact = true → Calm.stmts s.pending ss) → s.Pushes K C c 1
  | [] => by
    rintro s _ _ _ rfl _ _ _
    exact .plain (c := .unit) ⟨rfl, rfl⟩ (Nat.zero_le _) trivial
  | t :: ts => by
    intro s line c hs hc hscoped hf hcalm
    obtain ⟨hkept, hin⟩ := Slots.afterStmt_kept t hscoped.1 hs.inside
    have hcons : (∃ a b, Lowers.stmt K s.inLoop t a ∧ Lowers.stmtsValue K s.inLoop line ts b ∧
        c = a ++ b) → s.Pushes K C c 1 := by
      rintro ⟨a, b, ha, hb, rfl⟩
      have hfirst := stmt_flows hC t hs ha hscoped.1 hf.1 fun he => (hcalm he).1
      have hrest := stmtsValue_flows hC ts (hs.knowing hkept hin) hb hscoped.2 hf.2
        fun he => (hcalm he).2
      exact Flows.append hfirst (Flows.post hrest (hkept.within _))
    cases ts with
    | cons => exact hcons (by cases t <;> exact hc)
    | nil =>
      cases t with
      | expr tok e => exact expr_flows hC e hs hc hscoped.1 hf.1 fun he => (hcalm he).1
      | _ => exact hcons hc

theorem stmt_flows (hC : K.Suits R C) : (t : Stmt .typed) → ∀ ⦃s : Site⦄ ⦃c : Assembly⦄, s.Ready K R →
    Lowers.stmt K s.inLoop t c → Scoped.stmt K.program R s.slots t → Formed.stmt K.program t →
      (C.exact = true → Calm.stmt s.pending t) →
        Flows C s.exits c (s.slots.shape K.program s.height)
          ((s.slots.afterStmt K.program t).shape K.program s.height)
  | .expr tok e => by
    rintro s _ hs ⟨a, ha, rfl⟩ hscoped hf hcalm
    exact Flows.append (expr_flows hC e hs ha hscoped hf hcalm)
      (.plain (c := .pop) ⟨rfl, rfl⟩ (Nat.le_add_left 1 _) trivial)
  | .bind tok _ decl _ value => by
    rintro s _ hs ⟨hdecl, a, ha, rfl⟩ hscoped hf hcalm
    exact Flows.append (expr_flows hC value hs ha hscoped.1 hf hcalm)
      (declare_flows hC hdecl hscoped.2)
  | .block b => block_flows hC b
  | .ret tok value => by
    intro s c hs hc hscoped hf hcalm
    cases value with
    | none =>
      obtain rfl := hc
      have hunit : s.Pushes K C (Assembly.op .unit tok.line) 1 :=
        .plain ⟨rfl, rfl⟩ (Nat.zero_le _) trivial
      exact Flows.append hunit (.ret (Nat.succ_pos _))
    | some e =>
      obtain ⟨a, ha, rfl⟩ := hc
      exact Flows.append (expr_flows hC e hs ha hscoped hf hcalm) (.ret (Nat.succ_pos _))
  | .loop tok test b => by
    rintro s _ hs ⟨t, a, ht, ha, rfl⟩ hscoped hf hcalm
    have htest := expr_flows hC test hs ht hscoped.1 hf.1 fun he => (hcalm he).1
    have hbody := block_flows hC b (hs.looping (.refl _)) ha hscoped.2 hf.2 fun he => (hcalm he).2
    rw [Assembly.whileLoop_eq]
    exact .loop htest (.nil (.refl _ _)) hbody (.nil (.refl _ _)) (.inr ⟨rfl, rfl, rfl, rfl⟩)
  | .each tok _ slots series b => by
    rintro s _ hs ⟨hindex, hlimit, start, a, l, ha, hloop, rfl, hstart⟩
      ⟨hseries, hseries', ⟨hi, hl, hx⟩, hblock⟩ hf hcalm
    -- the slots once the index and the limit are declared
    generalize hτ : (s.slots.add K.program slots.index).add K.program slots.limit = τ at hx
    have hin : τ.Inside R := hτ ▸ (hs.inside.add hi).add hl
    have hkept : s.slots.Kept τ := hτ ▸ (Kept.add hi).trans (.add hl)
    have hhas : τ.Has K.program slots.index ∧ τ.Has K.program slots.limit := by
      rw [← hτ]
      exact ⟨Slots.has_add.kept (.add hl), Slots.has_add⟩
    have hbody := block_flows hC b ((hs.knowing (hkept.trans (.add hx)) (hin.add hx)).looping (.add hx))
      ha (by rw [Slots.inLoop, hτ] at hblock; exact hblock) hf.2 fun he => (hcalm he).2
    have hround := eachLoop_flows hC (E := s.exits) hin hhas.1 hhas.2 hx hloop
      (Flows.post hbody ((Kept.add hx).within _))
    refine Flows.append (b := τ.shape K.program s.height) ?_ (Flows.post hround (hkept.within _))
    split at hstart
    · rename_i lo hi' hbounds
      obtain ⟨x, y, hx', hy, rfl⟩ := hstart
      have hlow := (bounds_flows hC series hs hbounds hseries hf.1 fun he => (hcalm he).1).1 x hx'
      have hhigh := (bounds_flows hC series (hs.knowing (.add hi) (hs.inside.add hi)) hbounds hseries' hf.1
        fun he => (hcalm he).1).2 y hy
      rw [← hτ]
      exact Flows.append (Flows.append (Flows.append hlow (declare_flows hC hindex hi)) hhigh)
        (declare_flows hC hlimit hl)
    · obtain ⟨x, z, hx', hz, rfl⟩ := hstart
      have hl' := Resolve.fresh_of_add hl
      have hitems := expr_flows hC series hs hx' hseries hf.1 fun he => (hcalm he).1
      rw [← hτ, Resolve.add_swap hl]
      exact Flows.append (Flows.append (Flows.append hitems (declare_flows hC hlimit hl'))
        (const_flows hC hz)) (declare_flows hC hindex (Resolve.fresh_swap hi hl))
  | .leave tok | .next tok => by
    rintro s _ hs ⟨hloop, rfl⟩ _ _ hcalm
    have hopen := hs.opens
    rw [hloop] at hopen
    exact hopen.leaves (by decide) hcalm
  | .func d => by
    rintro s _ hs ⟨_, hc⟩ ⟨hnames, hfunc⟩ _ _
    refine nested_flows hC hs.inside ?_ hnames hc
    cases d with
    | mk t nm info self params r body =>
      cases body with
      | mk n bt ss close =>
        obtain ⟨f, hf, -⟩ := hfunc.1.listed
        exact ⟨f, hf⟩
  | .impl .. => by
    rintro s _ _ ⟨_, rfl⟩ _ _ _
    exact .nil (.refl _ _)
  | .record .. | .union .. | .use .. => by
    rintro s _ _ rfl _ _ _
    exact .nil (.refl _ _)

end

end Lowers

end Scripting
