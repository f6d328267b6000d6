import Scripting.Proofs.Cells.Found
import Scripting.Proofs.Cells.Own
import Scripting.Proofs.Loops.Placing
import Scripting.Proofs.Script.Loops

/-!
# The variables of loops

A loop in a tree touches no more than the tree, and what it declares is declared by the tree in the same
order. A tree declares each variable once, and what it assigns to is no hidden variable. So if its variables
have places of their own, then a loop in it has its hidden variables for itself: `Touches.Distinct.apart`.
This is so of the functions of a batch, whose variables have slots of their own, and of its script, whose
variables are globals.
-/

namespace Scripting

open Program

/-- Whether a statement touches no more than a tree, in the same order. -/
structure Stmt.Part (s : Stmt .typed) (is : List Item) (ss : List Store) : Prop where
  items : Items.stmt s ⊆ is
  stores : (Stores.stmt s).Sublist ss

namespace Stmt.Part

variable {s : Stmt .typed} {is js : List Item} {ss ts : List Store}

theorem left (h : s.Part is ss) : s.Part (is ++ js) (ss ++ ts) :=
  ⟨List.subset_append_of_subset_left _ h.items, h.stores.trans (List.sublist_append_left _ _)⟩

theorem right (h : s.Part js ts) : s.Part (is ++ js) (ss ++ ts) :=
  ⟨List.subset_append_of_subset_right _ h.items, h.stores.trans (List.sublist_append_right _ _)⟩

theorem under {i : Item} {t : Store} (h : s.Part is ss) : s.Part (i :: is) (t :: ss) :=
  ⟨List.subset_cons_of_subset _ h.items, h.stores.cons _⟩

end Stmt.Part

namespace Loops

theorem part_append {ls ms : List (Stmt .typed)} {is js : List Item} {ss ts : List Store}
    (hl : ∀ s ∈ ls, s.Part is ss) (hm : ∀ s ∈ ms, s.Part js ts) :
    ∀ s ∈ ls ++ ms, s.Part (is ++ js) (ss ++ ts) :=
  List.forall_mem_append.mpr ⟨fun s hs => (hl s hs).left, fun s hs => (hm s hs).right⟩

mutual

theorem expr_part : (e : Expr .typed) → ∀ s ∈ expr e, s.Part (Items.expr e) (Stores.expr e)
  | .name .. | .int .. | .float .. | .string .. | .char .. | .bool .. => fun _ h => nomatch h
  | .interpolated _ _ es | .array _ _ es => exprs_part es
  | .unary _ _ _ e | .tryUnwrap _ _ e | .member _ _ e _ => expr_part e
  | .binary _ _ _ l r | .index _ _ l r | .range _ _ l r => part_append (expr_part l) (expr_part r)
  | .assign _ _ l r => fun s hs =>
    have h := part_append (target_part l) (expr_part r) s hs
    ⟨h.items, h.stores.trans (List.sublist_append_right _ _)⟩
  | .call _ _ info f es => by
    refine List.forall_mem_append.mpr ⟨List.forall_mem_append.mpr ⟨fun s hs => ?_, fun s hs => ?_⟩,
      fun s hs => ?_⟩
    · split at hs
      · exact (target_part f s hs).left
      · cases hs
    · exact (exprs_part es s hs).right
    · split at hs
      · cases hs
      · exact (expr_part f s hs).left
  | .new _ _ _ _ fs => fun s hs => by
    obtain ⟨f, -, hf⟩ := List.mem_flatMap.mp hs
    cases hlookup : (inits fs).lookup f with
    | none =>
      rw [hlookup] at hf
      cases hf
    | some ls =>
      rw [hlookup] at hf
      obtain ⟨before, after, heq, -⟩ := List.lookup_eq_some_iff.mp hlookup
      exact inits_part fs (f, ls) (heq ▸ List.mem_append_right before List.mem_cons_self) s hf
  | .block b => block_part b
  | .cond _ _ test body alt => part_append (expr_part test) (part_append (block_part body) (option_part alt))
  | .cases _ _ subject _ as => part_append (expr_part subject) fun s hs => (arms_part as s hs).under

theorem exprs_part : (es : List (Expr .typed)) → ∀ s ∈ exprs es, s.Part (Items.exprs es) (Stores.exprs es)
  | [] => fun _ h => nomatch h
  | e :: es => part_append (expr_part e) (exprs_part es)

theorem target_part : (e : Expr .typed) → ∀ s ∈ target e, s.Part (Items.expr e) (Stores.expr e)
  | .member _ _ left _ => expr_part left
  | .name .. | .int .. | .float .. | .string .. | .char .. | .bool .. | .interpolated .. | .array ..
  | .unary .. | .binary .. | .assign .. | .call .. | .index .. | .new .. | .tryUnwrap .. | .range ..
  | .block _ | .cond .. | .cases .. => fun _ h => nomatch h

theorem option_part : (e : Option (Expr .typed)) → ∀ s ∈ option e, s.Part (Items.option e) (Stores.option e)
  | none => fun _ h => nomatch h
  | some e => expr_part e

theorem inits_part : (fs : List (FieldInit .typed)) → ∀ x ∈ inits fs, ∀ s ∈ x.2,
    s.Part (Items.inits fs) (Stores.inits fs)
  | [] => fun _ h => nomatch h
  | .mk _ _ e :: fs => List.forall_mem_cons.mpr
    ⟨fun s hs => (expr_part e s hs).left, fun x hx s hs => (inits_part fs x hx s hs).right⟩

theorem arms_part : (as : List (Arm .typed)) → ∀ s ∈ arms as, s.Part (Items.arms as) (Stores.arms as)
  | [] => fun _ h => nomatch h
  | .mk _ q e :: as => part_append (pattern_part q) (part_append (expr_part e) (arms_part as))

theorem pattern_part : (q : Pattern .typed) → ∀ s ∈ pattern q, s.Part (Items.pattern q) (Stores.pattern q)
  | .wildcard _ | .bind .. => fun _ h => nomatch h
  | .literal _ e => expr_part e
  | .ctor _ test _ qs => patterns_part test.fields qs

theorem patterns_part : (fs : List String) → (qs : List (Pattern .typed)) → ∀ s ∈ patterns fs qs,
    s.Part (Items.patterns qs) (Stores.patterns qs)
  | [], [] | [], _ :: _ | _ :: _, [] => fun _ h => nomatch h
  | _ :: fs, q :: qs => part_append (pattern_part q) (patterns_part fs qs)

theorem block_part : (b : Block .typed) → ∀ s ∈ block b, s.Part (Items.block b) (Stores.block b)
  | .mk _ _ ss _ => stmts_part ss

theorem stmts_part : (ss : List (Stmt .typed)) → ∀ s ∈ stmts ss, s.Part (Items.stmts ss) (Stores.stmts ss)
  | [] => fun _ h => nomatch h
  | t :: ts => part_append (stmt_part t) (stmts_part ts)

theorem stmt_part : (t : Stmt .typed) → ∀ s ∈ stmt t, s.Part (Items.stmt t) (Stores.stmt t)
  | .expr _ e => expr_part e
  | .bind _ _ b _ e => fun s hs => (expr_part e s hs).left
  | .block b => block_part b
  | .ret _ e => option_part e
  | .loop _ e b => part_append (expr_part e) (block_part b)
  | .each tok x l e b => by
    refine List.forall_mem_cons.mpr ⟨⟨List.Subset.refl _, .refl _⟩, part_append (expr_part e) fun s hs => ?_⟩
    obtain ⟨hitems, hstores⟩ := block_part b s hs
    exact ⟨fun i hi => by simp [hitems hi], (((hstores.cons _).cons _).cons _).cons _⟩
  | .func _ | .impl .. | .leave _ | .next _ | .record .. | .union .. | .use .. => fun _ h => nomatch h

end

end Loops

namespace Stores

variable {stored : BindingId → Bool} {ss ts : List Store} {b : BindingId}

@[simp] theorem placed_append (ss ts : List Store) :
    placed stored (ss ++ ts) = placed stored ss ++ placed stored ts := List.filterMap_append

@[simp] theorem placed_cons_declares (b : BindingId) (ss : List Store) :
    placed stored (.declares b :: ss) = b :: placed stored ss := rfl

@[simp] theorem placed_cons_counts (l : LoopSlots) (ss : List Store) :
    placed stored (.counts l :: ss) = placed stored ss := rfl

theorem placed_cons_names (b : BindingId) (ss : List Store) : placed stored (.names b :: ss)
    = if stored b then b :: placed stored ss else placed stored ss := by
  unfold placed
  rw [List.filterMap_cons]
  cases hb : stored b <;> simp [hb]

theorem placed_sublist (h : ss.Sublist ts) : (placed stored ss).Sublist (placed stored ts) := h.filterMap _

theorem placed_subperm (h : ss.Subperm ts) : (placed stored ss).Subperm (placed stored ts) := by
  obtain ⟨us, hperm, hsub⟩ := h
  exact ⟨_, hperm.filterMap _, hsub.filterMap _⟩

theorem placed_declared : (ss : List Store) → (placed stored ss).Sublist (declared ss)
  | [] => .refl _
  | .declares b :: ss => (placed_declared ss).cons_cons b
  | .names b :: ss => by
    rw [placed_cons_names]
    split
    · exact (placed_declared ss).cons_cons b
    · exact (placed_declared ss).cons b
  | .counts _ :: ss | .assigns _ :: ss => placed_declared ss

theorem placed_of_names (h : ∀ b, .names b ∈ ss → stored b = false) :
    placed stored ss = placed (fun _ => false) ss := by
  refine List.filterMap_congr fun s hs => ?_
  cases s with
  | names b => simp [h b hs]
  | _ => rfl

theorem mem_declared_of_placed (h : b ∈ placed stored ss) : b ∈ declared ss := (placed_declared ss).subset h

end Stores

/-- Whether the variables of code have places of their own, where it finds them. -/
structure Touches.Distinct (p : Program) (u : Touches) : Prop where
  nodup : (Stores.placed p.framed u.stores).Nodup
  single : ∀ b ∈ Stores.placed p.framed u.stores, ∀ c ∈ Stores.placed p.framed u.stores,
    ((p.binding b).storage, (p.binding b).index) = ((p.binding c).storage, (p.binding c).index) → b = c
  found : ∀ s, .uses s ∈ u.items → .assigns s ∈ u.stores → ∀ b ∈ Stores.placed p.framed u.stores,
    s.place.storage? = some (p.binding b).storage → s.index = (p.binding b).index → s.binding = b
  fair : ∀ s ∈ u.stores, s.Fair p

namespace Program.Veiled

variable {p : Program} {b : BindingId}

theorem hidden (h : p.Veiled b) : (p.binding b).hidden = true := congrArg Prod.fst h.2

theorem plain (h : p.Veiled b) : (p.binding b).captured = false := by
  have hcaptured : ((p.binding b).hidden && (p.binding b).captured) = false := congrArg Prod.snd h.2
  rwa [h.hidden, Bool.true_and] at hcaptured

theorem not_shown (h : p.Veiled b) : ¬ p.Shown b := fun hs => by
  have hhidden := h.hidden
  rw [hs.2] at hhidden
  cases hhidden

end Program.Veiled

namespace Touches.Distinct

variable {p : Program} {u : Touches} {s : Stmt .typed}

theorem apart (hu : u.Distinct p) (hs : s.Part u.items u.stores) : s.Apart p := by
  cases s with
  | each tok x l e b =>
    have hplaced : (Stores.placed p.framed (Stores.stmt (.each tok x l e b))).Sublist
        (Stores.placed p.framed u.stores) := Stores.placed_sublist hs.stores
    simp only [Stores.stmt, Stores.placed_append, Stores.placed_cons_counts,
      Stores.placed_cons_declares] at hplaced
    have hnodup := hu.nodup.sublist hplaced
    have hcounts : p.Veiled l.index ∧ p.Veiled l.limit :=
      hu.fair (.counts l) (hs.stores.subset (by simp [Stores.stmt]))
    have hindex : l.index ∈ Stores.placed p.framed u.stores := hplaced.subset (by simp)
    have hlimit : l.limit ∈ Stores.placed p.framed u.stores := hplaced.subset (by simp)
    have hitem : l.item ∈ Stores.placed p.framed u.stores := hplaced.subset (by simp)
    have hvars : l.index ≠ l.limit ∧ l.index ≠ l.item ∧ l.limit ≠ l.item := by
      simp only [List.nodup_append, List.nodup_cons, List.mem_cons, not_or] at hnodup
      exact ⟨hnodup.2.1.1.1, hnodup.2.1.1.2.1, hnodup.2.1.2.1.1⟩
    have hruns : ∀ c ∈ Stores.placed p.framed (Stmt.runs (.each tok x l e b)).stores,
        c ∈ Stores.placed p.framed u.stores ∧ c ≠ l.index ∧ c ≠ l.limit := by
      intro c hc
      rw [Stmt.runs, Stores.placed_append] at hc
      obtain ⟨-, hvars, hdisjoint⟩ := List.nodup_append.mp hnodup
      rcases List.mem_append.mp hc with hc | hc
      · exact ⟨hplaced.subset (List.mem_append_left _ hc), hdisjoint c hc _ (by simp), hdisjoint c hc _
          (by simp)⟩
      · simp only [List.nodup_cons, List.mem_cons, not_or] at hvars
        refine ⟨hplaced.subset (by simp [hc]), ?_, ?_⟩
        · rintro rfl
          exact hvars.1.2.2 hc
        · rintro rfl
          exact hvars.2.1.2 hc
    have havoids : ∀ y ∈ Stores.placed p.framed u.stores, p.Veiled y →
        (∀ c ∈ Stores.placed p.framed (Stmt.runs (.each tok x l e b)).stores, c ≠ y) →
          (Stmt.runs (.each tok x l e b)).Avoids p (p.binding y) := by
      intro y hy hveiled hne
      refine ⟨fun c hc heq => hne c hc (hu.single c (hruns c hc).1 y hy heq),
        fun t ht hassigned hstorage hindex => ?_⟩
      have hwithin : Touches.Within (Stmt.runs (.each tok x l e b)) u := by
        refine ⟨fun i hi => hs.items ?_, fun i hi => hs.stores.subset ?_⟩
        · rcases List.mem_append.mp hi with hi | hi <;> simp [Items.stmt, hi]
        · rcases List.mem_append.mp hi with hi | hi <;> simp [Stores.stmt, hi]
      -- What is assigned to can be named in source text.
      obtain rfl := hu.found t (hwithin.items ht) (hwithin.stores hassigned) y hy hstorage hindex
      exact hveiled.not_shown (hu.fair _ (hwithin.stores hassigned)).1
    have hseat : ∀ y ∈ Stores.placed p.framed u.stores, ∀ z ∈ Stores.placed p.framed u.stores, y ≠ z →
        ((p.binding y).storage, (p.binding y).index) ≠ ((p.binding z).storage, (p.binding z).index) :=
      fun y hy z hz hne heq => hne (hu.single y hy z hz heq)
    obtain ⟨hlimitNe, hitemNe, hlast⟩ := hvars
    refine ⟨⟨hcounts.1.plain, hcounts.2.plain⟩, ?_,
      havoids _ hindex hcounts.1 fun c hc => (hruns c hc).2.1, havoids _ hlimit hcounts.2 fun c hc =>
        (hruns c hc).2.2⟩
    refine .cons ?_ (.cons ?_ (List.pairwise_singleton _ _))
    · simp only [List.mem_cons, List.not_mem_nil, or_false, forall_eq_or_imp, forall_eq]
      exact ⟨hseat _ hindex _ hlimit hlimitNe, hseat _ hindex _ hitem hitemNe⟩
    · exact List.forall_mem_singleton.mpr (hseat _ hlimit _ hitem hlast)
  | _ => trivial

end Touches.Distinct

section

variable {p : Program}

theorem FunDecl.Separate.distinct {d : FunDecl .typed} (h : d.Separate p) (hlocates : d.Locates p)
    (hnodup : (Stores.declared (Stores.block d.body)).Nodup) (hfair : ∀ s ∈ Stores.block d.body, s.Fair p) :
    (Touches.block d.body).Distinct p := by
  have hown : ∀ b ∈ Stores.placed p.framed (Stores.block d.body), b ∈ d.own := fun b hb => by
    rw [FunDecl.own_eq]
    exact List.mem_append_right _ (Stores.mem_declared_of_placed hb)
  refine ⟨hnodup.sublist (Stores.placed_declared _), fun b hb c hc heq => ?_,
    fun s hs hassigned b hb hstorage hindex => ?_,
    hfair⟩
  · exact h.single b (hown b hb) c (hown c hc) (congrArg Prod.snd heq)
  · have huses := hlocates.uses s hs
    rw [h.frame b (hown b hb)] at hstorage
    cases hplace : s.place with
    | global | free =>
      rw [hplace] at hstorage
      cases hstorage
    | frame =>
      rw [hplace] at huses
      exact h.single _ huses.1 b (hown b hb) (huses.2.trans hindex)

theorem Touches.stmts_distinct {ss : List (Stmt .typed)} (hfound : (Touches.stmts ss).Found p)
    (hglobal : ∀ b ∈ Stores.declared (Stores.stmts ss), (p.binding b).storage = .global)
    (hsingle : ∀ b c, p.IsGlobal b → p.IsGlobal c → (p.binding b).index = (p.binding c).index → b = c)
    (hnodup : (Stores.placed (fun _ => false) (Stores.stmts ss)).Nodup)
    (hfair : ∀ s ∈ Stores.stmts ss, s.Fair p) : (Touches.stmts ss).Distinct p := by
  have hnames : Stores.placed p.framed (Stores.stmts ss)
      = Stores.placed (fun _ => false) (Stores.stmts ss) := by
    refine Stores.placed_of_names fun b hb => ?_
    rw [Program.framed, hglobal b (Lowering.declared_of_mem (.inr hb))]
    rfl
  have hmem : ∀ b ∈ Stores.placed p.framed (Stores.stmts ss), p.IsGlobal b := by
    intro b hb
    refine ⟨?_, hglobal b (Stores.mem_declared_of_placed hb)⟩
    rw [hnames] at hb
    obtain ⟨s, hs, hsb⟩ := List.mem_filterMap.mp hb
    cases s with
    | declares c =>
      obtain rfl := Option.some.inj hsb
      exact (hfair _ hs).1
    | names | counts | assigns => cases hsb
  refine ⟨hnames ▸ hnodup, fun b hb c hc heq => ?_, fun s hs hassigned b hb hstorage hindex => ?_, hfair⟩
  · exact hsingle b c (hmem b hb) (hmem c hc) (congrArg Prod.snd heq)
  · rw [(hmem b hb).2] at hstorage
    cases hplace : s.place with
    | frame | free =>
      rw [hplace] at hstorage
      cases hstorage
    | global =>
      obtain ⟨hglobal, hplaced⟩ := hfound s hs hplace
      exact hsingle _ b ⟨(hfair _ hassigned).1.1, hglobal⟩ (hmem b hb) (hplaced.trans hindex)

end

theorem Program.Row.nodup {p : Program} {depth start : Nat} {bs : List BindingId} (h : p.Row depth start bs) :
    bs.Nodup := by
  refine List.Nodup.of_map (fun b => (p.binding b).place) ?_
  rw [h]
  exact List.Nodup.map (fun i j hij => congrArg (·.2.1) hij) List.nodup_range'

theorem Stores.placed_topStmts {N C T W : Type} (ss : List (Stmt (.slotted N C T W))) :
    (placed (fun _ => false) (Stores.stmts ss)).Subperm (ss.flatMap Locals.topStmt) := by
  induction ss with
  | nil => exact .refl _
  | cons s ss ih =>
    rw [Stores.stmts, placed_append, List.flatMap_cons]
    refine List.Subperm.append ?_ ih
    have hplaced : (placed (fun _ => false) (Stores.stmt s)).Subperm (Locals.stmt s) :=
      (placed_declared (Stores.stmt s)).subperm.trans (Locals.stmt_declared s).subperm
    cases s with
    | func d =>
      cases hb : d.info.binding <;> simp [Stores.stmt, placed, hb]
    | _ => exact hplaced

namespace Engine

theorem analyze_nodup {e : Engine} (he : e.program.Tidy) (text file : String) (src : Source .typed)
    (hsrc : (e.analyze text file).1 = .ok src) :
    (∀ d ∈ Decls.stmts src.stmts, (Stores.declared (Stores.block d.body)).Nodup) ∧
      (Stores.placed (fun _ => false) (Stores.stmts src.stmts)).Nodup := by
  revert hsrc
  unfold analyze
  split
  · exact fun h => nomatch h
  · rename_i parsed _
    split
    · exact fun h => nomatch h
    · rename_i out p heq
      intro hsrc
      obtain ⟨-, -, hkeeps⟩ := check_resolved he heq
      refine ⟨fun t ht => ?_, ?_⟩
      · obtain ⟨d, hd, hnarrows⟩ := (hkeeps src hsrc).inner t ht
        have hlocals := (Source.laid_of_resolve heq d hd).row.nodup
        obtain ⟨ss, hperm, hsub⟩ := hnarrows.stores
        have hdeclared : (Stores.declared (Stores.block d.body)).Nodup :=
          (Locals.block_declared d.body).nodup_iff.mpr (hlocals.sublist (List.sublist_append_right _ _))
        exact (hperm.filterMap _).nodup_iff.mp (hdeclared.sublist (hsub.filterMap _))
      · have hfresh := Source.resolve_apart (loader e.registry) e.program.begin parsed
        rw [← Source.stmts_of_resolve heq] at hfresh
        obtain ⟨bs, hperm, hsub⟩ :=
          (Stores.placed_subperm (hkeeps src hsrc).stores).trans (Stores.placed_topStmts out.stmts)
        exact hperm.nodup_iff.mp (hfresh.sublist hsub)

end Engine

end Scripting
