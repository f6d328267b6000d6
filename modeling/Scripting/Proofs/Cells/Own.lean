import Scripting.Proofs.Cells.Runs
import Scripting.Proofs.Engine.Callables

/-!
# Where functions have their captured variables

`FunDecl.vars` gives the captured variables of a function: those of its own have slots of their own in
its frame, and those from outside are among the cells of its closures.
-/

namespace Scripting

variable {N C T W : Type}

namespace Items

@[simp] theorem declared_nil : declared [] = [] := rfl

@[simp] theorem declared_append (is js : List Item) :
    declared (is ++ js) = declared is ++ declared js := List.filterMap_append

@[simp] theorem declared_cons_declares (b : BindingId) (is : List Item) :
    declared (.declares b :: is) = b :: declared is := rfl

@[simp] theorem declared_cons_uses (s : Slot) (is : List Item) :
    declared (.uses s :: is) = declared is := rfl

@[simp] theorem declared_cons_makes (info : FunSlots) (is : List Item) :
    declared (.makes info :: is) = declared is := rfl

@[simp] theorem declared_map_declares (bs : List BindingId) : declared (bs.map .declares) = bs := by
  induction bs with
  | nil => rfl
  | cons b bs ih => rw [List.map_cons, declared_cons_declares, ih]

@[simp] theorem declared_map_makes (ds : List (FunDecl (.slotted N C T W))) :
    declared (ds.map fun d => .makes d.info) = [] := by
  induction ds with
  | nil => rfl
  | cons d ds ih => rw [List.map_cons, declared_cons_makes, ih]

end Items

namespace Stores

def declared (ss : List Store) : List BindingId := ss.filterMap fun
  | .declares b | .names b => some b
  | .counts _ | .assigns _ => none

@[simp] theorem declared_nil : declared [] = [] := rfl

@[simp] theorem declared_append (ss ts : List Store) :
    declared (ss ++ ts) = declared ss ++ declared ts := List.filterMap_append

@[simp] theorem declared_cons_declares (b : BindingId) (ss : List Store) :
    declared (.declares b :: ss) = b :: declared ss := rfl

@[simp] theorem declared_cons_counts (l : LoopSlots) (ss : List Store) :
    declared (.counts l :: ss) = declared ss := rfl

@[simp] theorem declared_map_names (bs : List BindingId) : declared (bs.map .names) = bs := by
  induction bs with
  | nil => rfl
  | cons b bs ih => exact congrArg (b :: ·) ih

@[simp] theorem declared_stored (e : Expr (.slotted N C T W)) : declared e.stored = [] := by
  cases e <;> rfl

end Stores

namespace Items

mutual

theorem expr_declared : (e : Expr (.slotted N C T W)) →
    declared (Items.expr e) = Stores.declared (Stores.expr e)
  | .name .. | .int .. | .float .. | .string .. | .char .. | .bool .. => rfl
  | .interpolated _ _ es | .array _ _ es => exprs_declared es
  | .unary _ _ _ e | .tryUnwrap _ _ e | .member _ _ e _ => expr_declared e
  | .binary _ _ _ l r | .assign _ _ l r | .index _ _ l r | .range _ _ l r => by
    simp [Items.expr, Stores.expr, expr_declared l, expr_declared r]
  | .call _ _ _ f es => by simp [Items.expr, Stores.expr, expr_declared f, exprs_declared es]
  | .new _ _ _ _ fs => inits_declared fs
  | .block b => block_declared b
  | .cond _ _ test body alt => by
    simp [Items.expr, Stores.expr, expr_declared test, block_declared body, option_declared alt]
  | .cases _ _ subject _ as => by
    simp [Items.expr, Stores.expr, expr_declared subject, arms_declared as]

theorem exprs_declared : (es : List (Expr (.slotted N C T W))) →
    declared (Items.exprs es) = Stores.declared (Stores.exprs es)
  | [] => rfl
  | e :: es => by simp [Items.exprs, Stores.exprs, expr_declared e, exprs_declared es]

theorem option_declared : (e : Option (Expr (.slotted N C T W))) →
    declared (Items.option e) = Stores.declared (Stores.option e)
  | none => rfl
  | some e => expr_declared e

theorem inits_declared : (fs : List (FieldInit (.slotted N C T W))) →
    declared (Items.inits fs) = Stores.declared (Stores.inits fs)
  | [] => rfl
  | .mk _ _ e :: fs => by simp [Items.inits, Stores.inits, expr_declared e, inits_declared fs]

theorem arms_declared : (as : List (Arm (.slotted N C T W))) →
    declared (Items.arms as) = Stores.declared (Stores.arms as)
  | [] => rfl
  | .mk _ q e :: as => by
    simp [Items.arms, Stores.arms, pattern_declared q, expr_declared e, arms_declared as]

theorem pattern_declared : (q : Pattern (.slotted N C T W)) →
    declared (Items.pattern q) = Stores.declared (Stores.pattern q)
  | .wildcard _ | .bind .. => rfl
  | .literal _ e => expr_declared e
  | .ctor _ _ _ qs => patterns_declared qs

theorem patterns_declared : (qs : List (Pattern (.slotted N C T W))) →
    declared (Items.patterns qs) = Stores.declared (Stores.patterns qs)
  | [] => rfl
  | q :: qs => by simp [Items.patterns, Stores.patterns, pattern_declared q, patterns_declared qs]

theorem block_declared : (b : Block (.slotted N C T W)) →
    declared (Items.block b) = Stores.declared (Stores.block b)
  | .mk _ _ ss _ => stmts_declared ss

theorem stmts_declared : (ss : List (Stmt (.slotted N C T W))) →
    declared (Items.stmts ss) = Stores.declared (Stores.stmts ss)
  | [] => rfl
  | s :: ss => by simp [Items.stmts, Stores.stmts, stmt_declared s, stmts_declared ss]

theorem stmt_declared : (s : Stmt (.slotted N C T W)) →
    declared (Items.stmt s) = Stores.declared (Stores.stmt s)
  | .expr _ e => expr_declared e
  | .bind _ _ _ _ e => by simp [Items.stmt, Stores.stmt, expr_declared e]
  | .block b => block_declared b
  | .ret _ e => option_declared e
  | .loop _ e b => by simp [Items.stmt, Stores.stmt, expr_declared e, block_declared b]
  | .each _ _ _ e b => by simp [Items.stmt, Stores.stmt, expr_declared e, block_declared b]
  | .func _ => by simp [Items.stmt, Stores.stmt]
  | .impl .. => by simp [Items.stmt, Stores.stmt]
  | .leave _ | .next _ | .record .. | .union .. | .use .. => rfl

end

end Items

namespace Locals

mutual

theorem expr_declared : (e : Expr (.slotted N C T W)) →
    (Stores.declared (Stores.expr e)).Perm (Locals.expr e)
  | .name .. | .int .. | .float .. | .string .. | .char .. | .bool .. => .refl _
  | .interpolated _ _ es | .array _ _ es => exprs_declared es
  | .unary _ _ _ e | .tryUnwrap _ _ e | .member _ _ e _ => expr_declared e
  | .binary _ _ _ l r | .index _ _ l r | .range _ _ l r => by
    rw [Stores.expr, Locals.expr, Stores.declared_append]
    exact (expr_declared l).append (expr_declared r)
  | .assign _ _ l r => by
    rw [Stores.expr, Locals.expr, Stores.declared_append, Stores.declared_append,
      Stores.declared_stored, List.nil_append]
    exact ((expr_declared l).append (expr_declared r)).trans List.perm_append_comm
  | .call _ _ _ f es => by
    rw [Stores.expr, Locals.expr, Stores.declared_append]
    exact (expr_declared f).append (exprs_declared es)
  | .new _ _ _ _ fs => inits_declared fs
  | .block b => block_declared b
  | .cond _ _ test body alt => by
    rw [Stores.expr, Locals.expr, Stores.declared_append, Stores.declared_append]
    exact (expr_declared test).append ((block_declared body).append (option_declared alt))
  | .cases _ _ subject b as => by
    rw [Stores.expr, Locals.expr, Stores.declared_append, Stores.declared_cons_declares]
    exact (expr_declared subject).append ((arms_declared as).cons b)

theorem exprs_declared : (es : List (Expr (.slotted N C T W))) →
    (Stores.declared (Stores.exprs es)).Perm (Locals.exprs es)
  | [] => .refl _
  | e :: es => by
    rw [Stores.exprs, Locals.exprs, Stores.declared_append]
    exact (expr_declared e).append (exprs_declared es)

theorem option_declared : (e : Option (Expr (.slotted N C T W))) →
    (Stores.declared (Stores.option e)).Perm (Locals.option e)
  | none => .refl _
  | some e => expr_declared e

theorem inits_declared : (fs : List (FieldInit (.slotted N C T W))) →
    (Stores.declared (Stores.inits fs)).Perm (Locals.inits fs)
  | [] => .refl _
  | .mk _ _ e :: fs => by
    rw [Stores.inits, Locals.inits, Stores.declared_append]
    exact (expr_declared e).append (inits_declared fs)

theorem arms_declared : (as : List (Arm (.slotted N C T W))) →
    (Stores.declared (Stores.arms as)).Perm (Locals.arms as)
  | [] => .refl _
  | .mk _ q e :: as => by
    rw [Stores.arms, Locals.arms, Stores.declared_append, Stores.declared_append]
    exact (pattern_declared q).append ((expr_declared e).append (arms_declared as))

theorem pattern_declared : (q : Pattern (.slotted N C T W)) →
    (Stores.declared (Stores.pattern q)).Perm (Locals.pattern q)
  | .wildcard _ | .bind .. => .refl _
  | .literal _ e => expr_declared e
  | .ctor _ _ _ qs => patterns_declared qs

theorem patterns_declared : (qs : List (Pattern (.slotted N C T W))) →
    (Stores.declared (Stores.patterns qs)).Perm (Locals.patterns qs)
  | [] => .refl _
  | q :: qs => by
    rw [Stores.patterns, Locals.patterns, Stores.declared_append]
    exact (pattern_declared q).append (patterns_declared qs)

theorem block_declared : (b : Block (.slotted N C T W)) →
    (Stores.declared (Stores.block b)).Perm (Locals.block b)
  | .mk _ _ ss _ => stmts_declared ss

theorem stmts_declared : (ss : List (Stmt (.slotted N C T W))) →
    (Stores.declared (Stores.stmts ss)).Perm (Locals.stmts ss)
  | [] => .refl _
  | s :: ss => by
    rw [Stores.stmts, Locals.stmts, Stores.declared_append]
    exact (stmt_declared s).append (stmts_declared ss)

theorem stmt_declared : (s : Stmt (.slotted N C T W)) →
    (Stores.declared (Stores.stmt s)).Perm (Locals.stmt s)
  | .expr _ e => expr_declared e
  | .bind _ _ b _ e => by
    rw [Stores.stmt, Locals.stmt, Stores.declared_append]
    exact (expr_declared e).append (.refl _)
  | .block b => block_declared b
  | .ret _ e => option_declared e
  | .loop _ e b => by
    rw [Stores.stmt, Locals.stmt, Stores.declared_append]
    exact (expr_declared e).append (block_declared b)
  | .each _ _ l e b => by
    rw [Stores.stmt, Locals.stmt, Stores.declared_append]
    refine (expr_declared e).append ?_
    simp only [Stores.declared_cons_counts, Stores.declared_cons_declares]
    split
    · exact ((block_declared b).cons l.item).cons l.limit |>.cons l.index
    · exact (List.Perm.swap _ _ _).trans (((block_declared b).cons l.item).cons l.index |>.cons l.limit)
  | .func _ => by
    rw [Stores.stmt, Locals.stmt, Stores.declared_map_names]
  | .impl .. | .leave _ | .next _ | .record .. | .union .. | .use .. => .refl _

end

end Locals

/-- Whether the variables of a function have slots of their own in its frame. -/
structure FunDecl.Separate (p : Program) (d : FunDecl (.slotted N C T W)) : Prop where
  frame : ∀ b ∈ d.own, (p.binding b).storage = .frame
  single : ∀ b ∈ d.own, ∀ c ∈ d.own, (p.binding b).index = (p.binding c).index → b = c

theorem Program.Row.place {p : Program} {depth start : Nat} {bs : List BindingId}
    (h : p.Row depth start bs) {i : Nat} {b : BindingId} (hb : bs[i]? = some b) :
    (p.binding b).place = (.frame, start + i, depth) := by
  have hi : i < bs.length := (List.getElem?_eq_some_iff.mp hb).1
  have hplaces := congrArg (·[i]?) h
  simp only [List.getElem?_map, hb, Option.map_some, List.getElem?_range' hi, Nat.one_mul] at hplaces
  exact Option.some.inj hplaces

theorem FunDecl.own_eq (d : FunDecl (.slotted N C T W)) :
    d.own = d.paramDecls ++ Stores.declared (Stores.block d.body) := by
  rw [FunDecl.own, Items.block_declared]

theorem Typing.Narrows.own {d : FunDecl .resolved} {t : FunDecl .typed} (h : Narrows d t) :
    t.own ⊆ d.locals := by
  rw [FunDecl.own_eq, h.params]
  have hstores : Stores.declared (Stores.block t.body) ⊆ Stores.declared (Stores.block d.body) :=
    List.filterMap_subset _ h.stores.subset
  exact append_subset (List.Subset.refl _)
    (List.Subset.trans hstores (Locals.block_declared d.body).subset)

theorem Typing.Narrows.separate {p : Program} {d : FunDecl .resolved} {t : FunDecl .typed}
    (h : Narrows d t) (hd : d.Laid p) : t.Separate p := by
  have hplace : ∀ b ∈ t.own, ∃ i, d.locals[i]? = some b ∧
      (p.binding b).place = (.frame, i, d.info.depth) := by
    intro b hb
    obtain ⟨i, hi⟩ := List.mem_iff_getElem?.mp (h.own hb)
    exact ⟨i, hi, by simpa using hd.row.place hi⟩
  refine ⟨fun b hb => ?_, fun b hb c hc hindex => ?_⟩
  · obtain ⟨i, -, hi⟩ := hplace b hb
    exact congrArg (·.1) hi
  · obtain ⟨i, hi, hbi⟩ := hplace b hb
    obtain ⟨j, hj, hcj⟩ := hplace c hc
    obtain rfl : i = j := by
      have hbindex : (p.binding b).index = i := congrArg (·.2.1) hbi
      have hcindex : (p.binding c).index = j := congrArg (·.2.1) hcj
      exact hbindex.symm.trans (hindex.trans hcindex)
    exact Option.some.inj (hi.symm.trans hj)

theorem Source.laid_of_resolve {load : String → Except LoadError HostModule} {p q : Program}
    {src : Source .parsed} {out : Source .resolved} (h : src.resolve load p = (.ok out, q)) :
    ∀ d ∈ Decls.stmts out.stmts, d.Laid q := by
  obtain ⟨-, hlaid⟩ := src.resolve_laid load p
  rw [← Source.stmts_of_resolve h, h] at hlaid
  exact hlaid

namespace Engine

theorem analyze_separate {e : Engine} (he : e.program.Tidy) (text file : String) (src : Source .typed)
    (hsrc : (e.analyze text file).1 = .ok src) :
    ∀ d ∈ Decls.stmts src.stmts, d.Separate (e.analyze text file).2 := by
  revert hsrc
  unfold analyze
  split
  · exact fun h => nomatch h
  · rename_i parsed _
    split
    · exact fun h => nomatch h
    · rename_i out p heq
      intro hsrc t ht
      obtain ⟨-, hsettles, hkeeps⟩ := check_resolved he heq
      obtain ⟨d, hd, hnarrows⟩ := (hkeeps src hsrc).inner t ht
      exact hnarrows.separate ((Source.laid_of_resolve heq d hd).later hsettles.numbers)

end Engine

end Scripting
