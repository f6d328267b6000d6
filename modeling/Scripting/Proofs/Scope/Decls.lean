import Scripting.Typed.Analyze

/-!
# The functions declared in a tree

`Decls` lists the functions that a tree declares, each before those inside it. They are the functions
among the nodes of the tree.
-/

namespace Scripting

theorem append_subset {α : Type} {as bs cs ds : List α} (h : as ⊆ cs) (k : bs ⊆ ds) :
    as ++ bs ⊆ cs ++ ds :=
  List.append_subset.mpr
    ⟨List.Subset.trans h (List.subset_append_left _ _),
      List.Subset.trans k (List.subset_append_right _ _)⟩

namespace Decls

variable {P : Phase}

mutual

def expr : Expr P → List (FunDecl P)
  | .name .. | .int .. | .float .. | .string .. | .char .. | .bool .. => []
  | .interpolated _ _ es | .array _ _ es => exprs es
  | .unary _ _ _ e | .tryUnwrap _ _ e | .member _ _ e _ => expr e
  | .binary _ _ _ l r | .assign _ _ l r | .index _ _ l r | .range _ _ l r => expr l ++ expr r
  | .call _ _ _ f es => expr f ++ exprs es
  | .new _ _ _ _ fs => inits fs
  | .block b => block b
  | .cond _ _ test body alt => expr test ++ (block body ++ option alt)
  | .cases _ _ subject _ as => expr subject ++ arms as

def exprs : List (Expr P) → List (FunDecl P)
  | [] => []
  | e :: es => expr e ++ exprs es

def option : Option (Expr P) → List (FunDecl P)
  | none => []
  | some e => expr e

def inits : List (FieldInit P) → List (FunDecl P)
  | [] => []
  | .mk _ _ e :: fs => expr e ++ inits fs

def arms : List (Arm P) → List (FunDecl P)
  | [] => []
  | .mk _ q e :: as => pattern q ++ (expr e ++ arms as)

def pattern : Pattern P → List (FunDecl P)
  | .wildcard _ | .bind .. => []
  | .literal _ e => expr e
  | .ctor _ _ _ qs => patterns qs

def patterns : List (Pattern P) → List (FunDecl P)
  | [] => []
  | q :: qs => pattern q ++ patterns qs

def block : Block P → List (FunDecl P)
  | .mk _ _ ss _ => stmts ss

def func : FunDecl P → List (FunDecl P)
  | .mk t nm i s ps r b => .mk t nm i s ps r b :: block b

def funcs : List (FunDecl P) → List (FunDecl P)
  | [] => []
  | d :: ds => func d ++ funcs ds

def stmts : List (Stmt P) → List (FunDecl P)
  | [] => []
  | s :: ss => stmt s ++ stmts ss

def stmt : Stmt P → List (FunDecl P)
  | .expr _ e | .bind _ _ _ _ e => expr e
  | .block b => block b
  | .ret _ e => option e
  | .loop _ e b | .each _ _ _ e b => expr e ++ block b
  | .func d => func d
  | .impl _ _ ds => funcs ds
  | .leave _ | .next _ | .record .. | .union .. | .use .. => []

end

theorem func_eq (d : FunDecl P) : func d = d :: block d.body := by
  cases d
  rfl

theorem mem_func (d : FunDecl P) : d ∈ func d := by
  rw [func_eq]
  exact List.mem_cons_self

/-- Whether a list holds what is declared inside its functions as well. -/
def Closed (ds : List (FunDecl P)) : Prop := ∀ d ∈ ds, ∀ x ∈ block d.body, x ∈ ds

theorem Closed.nil : Closed ([] : List (FunDecl P)) := by simp [Closed]

theorem Closed.append {ds es : List (FunDecl P)} (hd : Closed ds) (he : Closed es) :
    Closed (ds ++ es) := by
  intro d h x hx
  rcases List.mem_append.mp h with h | h
  · exact List.mem_append_left _ (hd d h x hx)
  · exact List.mem_append_right _ (he d h x hx)

mutual

theorem expr_closed : (e : Expr P) → Closed (expr e)
  | .name .. | .int .. | .float .. | .string .. | .char .. | .bool .. => .nil
  | .interpolated _ _ es | .array _ _ es => exprs_closed es
  | .unary _ _ _ e | .tryUnwrap _ _ e | .member _ _ e _ => expr_closed e
  | .binary _ _ _ l r | .assign _ _ l r | .index _ _ l r | .range _ _ l r =>
    (expr_closed l).append (expr_closed r)
  | .call _ _ _ f es => (expr_closed f).append (exprs_closed es)
  | .new _ _ _ _ fs => inits_closed fs
  | .block b => block_closed b
  | .cond _ _ test body alt =>
    (expr_closed test).append ((block_closed body).append (option_closed alt))
  | .cases _ _ subject _ as => (expr_closed subject).append (arms_closed as)

theorem exprs_closed : (es : List (Expr P)) → Closed (exprs es)
  | [] => .nil
  | e :: es => (expr_closed e).append (exprs_closed es)

theorem option_closed : (e : Option (Expr P)) → Closed (option e)
  | none => .nil
  | some e => expr_closed e

theorem inits_closed : (fs : List (FieldInit P)) → Closed (inits fs)
  | [] => .nil
  | .mk _ _ e :: fs => (expr_closed e).append (inits_closed fs)

theorem arms_closed : (as : List (Arm P)) → Closed (arms as)
  | [] => .nil
  | .mk _ q e :: as => (pattern_closed q).append ((expr_closed e).append (arms_closed as))

theorem pattern_closed : (q : Pattern P) → Closed (pattern q)
  | .wildcard _ | .bind .. => .nil
  | .literal _ e => expr_closed e
  | .ctor _ _ _ qs => patterns_closed qs

theorem patterns_closed : (qs : List (Pattern P)) → Closed (patterns qs)
  | [] => .nil
  | q :: qs => (pattern_closed q).append (patterns_closed qs)

theorem block_closed : (b : Block P) → Closed (block b)
  | .mk _ _ ss _ => stmts_closed ss

theorem func_closed : (d : FunDecl P) → Closed (func d)
  | .mk t nm i s ps r b => by
    intro d hd x hx
    rcases List.mem_cons.mp hd with rfl | hd
    · exact List.mem_cons_of_mem _ hx
    · exact List.mem_cons_of_mem _ (block_closed b d hd x hx)

theorem funcs_closed : (ds : List (FunDecl P)) → Closed (funcs ds)
  | [] => .nil
  | d :: ds => (func_closed d).append (funcs_closed ds)

theorem stmts_closed : (ss : List (Stmt P)) → Closed (stmts ss)
  | [] => .nil
  | s :: ss => (stmt_closed s).append (stmts_closed ss)

theorem stmt_closed : (s : Stmt P) → Closed (stmt s)
  | .expr _ e | .bind _ _ _ _ e => expr_closed e
  | .block b => block_closed b
  | .ret _ e => option_closed e
  | .loop _ e b | .each _ _ _ e b => (expr_closed e).append (block_closed b)
  | .func d => func_closed d
  | .impl _ _ ds => funcs_closed ds
  | .leave _ | .next _ | .record .. | .union .. | .use .. => .nil

end

end Decls

namespace Node

variable {P : Phase}

/-- The function that a node is, if it is one. -/
def func? : Node P → Option (FunDecl P)
  | .func d => some d
  | _ => none

theorem filterMap_names (ps : List (Param P)) (rest : List (Node P)) :
    ((ps.map fun q => (Node.name q.name : Node P)) ++ rest).filterMap func? = rest.filterMap func? := by
  induction ps with
  | nil => rfl
  | cons q ps ih => exact ih

mutual

theorem walkExpr_funcs (rest : List (Node P)) : (e : Expr P) →
    (walkExpr rest e).filterMap func? = Decls.expr e ++ rest.filterMap func?
  | .name .. | .int .. | .float .. | .string .. | .char .. | .bool .. => by
    simp [walkExpr, Decls.expr, func?, List.filterMap_cons]
  | .interpolated _ _ es | .array _ _ es => by
    simp [walkExpr, Decls.expr, func?, List.filterMap_cons, walkExprs_funcs rest es]
  | .unary _ _ _ e | .tryUnwrap _ _ e => by
    simp [walkExpr, Decls.expr, func?, List.filterMap_cons, walkExpr_funcs rest e]
  | .member _ _ e m => by
    simp [walkExpr, Decls.expr, func?, List.filterMap_cons, walkExpr_funcs (.name m :: rest) e]
  | .binary _ _ _ l r | .assign _ _ l r | .index _ _ l r | .range _ _ l r => by
    simp [walkExpr, Decls.expr, func?, List.filterMap_cons, walkExpr_funcs _ l, walkExpr_funcs rest r]
  | .call _ _ _ f es => by
    simp [walkExpr, Decls.expr, func?, List.filterMap_cons, walkExpr_funcs _ f, walkExprs_funcs rest es]
  | .new _ _ _ _ fs => by simp [walkExpr, Decls.expr, func?, List.filterMap_cons, walkInits_funcs rest fs]
  | .block b => by simp [walkExpr, Decls.expr, walkBlock_funcs rest b]
  | .cond _ _ test body alt => by
    simp [walkExpr, Decls.expr, func?, List.filterMap_cons, walkExpr_funcs _ test, walkBlock_funcs _ body,
      walkOption_funcs rest alt]
  | .cases _ _ subject _ as => by
    simp [walkExpr, Decls.expr, func?, List.filterMap_cons, walkExpr_funcs _ subject, walkArms_funcs rest as]

theorem walkExprs_funcs (rest : List (Node P)) : (es : List (Expr P)) →
    (walkExprs rest es).filterMap func? = Decls.exprs es ++ rest.filterMap func?
  | [] => by simp [walkExprs, Decls.exprs]
  | e :: es => by
    simp [walkExprs, Decls.exprs, walkExpr_funcs _ e, walkExprs_funcs rest es]

theorem walkOption_funcs (rest : List (Node P)) : (e : Option (Expr P)) →
    (walkOption rest e).filterMap func? = Decls.option e ++ rest.filterMap func?
  | none => by simp [walkOption, Decls.option]
  | some e => by simp [walkOption, Decls.option, walkExpr_funcs rest e]

theorem walkInits_funcs (rest : List (Node P)) : (fs : List (FieldInit P)) →
    (walkInits rest fs).filterMap func? = Decls.inits fs ++ rest.filterMap func?
  | [] => by simp [walkInits, Decls.inits]
  | .mk _ _ e :: fs => by
    simp [walkInits, Decls.inits, walkExpr_funcs _ e, walkInits_funcs rest fs]

theorem walkArms_funcs (rest : List (Node P)) : (as : List (Arm P)) →
    (walkArms rest as).filterMap func? = Decls.arms as ++ rest.filterMap func?
  | [] => by simp [walkArms, Decls.arms]
  | .mk _ q e :: as => by
    simp [walkArms, Decls.arms, walkPattern_funcs _ q, walkExpr_funcs _ e, walkArms_funcs rest as]

theorem walkPattern_funcs (rest : List (Node P)) : (q : Pattern P) →
    (walkPattern rest q).filterMap func? = Decls.pattern q ++ rest.filterMap func?
  | .wildcard _ | .bind .. => by simp [walkPattern, Decls.pattern, func?, List.filterMap_cons]
  | .literal _ e => by simp [walkPattern, Decls.pattern, func?, List.filterMap_cons, walkExpr_funcs rest e]
  | .ctor _ _ _ qs => by
    simp [walkPattern, Decls.pattern, func?, List.filterMap_cons, walkPatterns_funcs rest qs]

theorem walkPatterns_funcs (rest : List (Node P)) : (qs : List (Pattern P)) →
    (walkPatterns rest qs).filterMap func? = Decls.patterns qs ++ rest.filterMap func?
  | [] => by simp [walkPatterns, Decls.patterns]
  | q :: qs => by
    simp [walkPatterns, Decls.patterns, walkPattern_funcs _ q, walkPatterns_funcs rest qs]

theorem walkBlock_funcs (rest : List (Node P)) : (b : Block P) →
    (walkBlock rest b).filterMap func? = Decls.block b ++ rest.filterMap func?
  | .mk _ _ ss _ => by simp [walkBlock, Decls.block, func?, List.filterMap_cons, walkStmts_funcs rest ss]

theorem walkFun_funcs (rest : List (Node P)) : (d : FunDecl P) →
    (walkFun rest d).filterMap func? = Decls.func d ++ rest.filterMap func?
  | .mk t nm i s ps r b => by
    have h := filterMap_names ps (walkBlock rest b)
    simp only [walkFun, Decls.func, List.cons_append, List.filterMap_cons, func?]
    rw [h, walkBlock_funcs rest b]

theorem walkFuns_funcs (rest : List (Node P)) : (ds : List (FunDecl P)) →
    (walkFuns rest ds).filterMap func? = Decls.funcs ds ++ rest.filterMap func?
  | [] => by simp [walkFuns, Decls.funcs]
  | d :: ds => by
    simp [walkFuns, Decls.funcs, walkFun_funcs _ d, walkFuns_funcs rest ds]

theorem walkStmts_funcs (rest : List (Node P)) : (ss : List (Stmt P)) →
    (walkStmts rest ss).filterMap func? = Decls.stmts ss ++ rest.filterMap func?
  | [] => by simp [walkStmts, Decls.stmts]
  | s :: ss => by
    simp [walkStmts, Decls.stmts, walkStmt_funcs _ s, walkStmts_funcs rest ss]

theorem walkStmt_funcs (rest : List (Node P)) : (s : Stmt P) →
    (walkStmt rest s).filterMap func? = Decls.stmt s ++ rest.filterMap func?
  | .expr _ e | .bind _ _ _ _ e => by
    simp [walkStmt, Decls.stmt, func?, List.filterMap_cons, walkExpr_funcs rest e]
  | .block b => by simp [walkStmt, Decls.stmt, walkBlock_funcs rest b]
  | .ret _ e => by simp [walkStmt, Decls.stmt, func?, List.filterMap_cons, walkOption_funcs rest e]
  | .loop _ e b | .each _ _ _ e b => by
    simp [walkStmt, Decls.stmt, func?, List.filterMap_cons, walkExpr_funcs _ e, walkBlock_funcs rest b]
  | .func d => by simp [walkStmt, Decls.stmt, walkFun_funcs rest d]
  | .impl _ _ ds => by simp [walkStmt, Decls.stmt, func?, List.filterMap_cons, walkFuns_funcs rest ds]
  | .leave _ | .next _ | .record .. | .union .. | .use .. => by
    simp [walkStmt, Decls.stmt, func?, List.filterMap_cons]

end

end Node

theorem Typing.declsOf_eq (src : Source .resolved) : Typing.declsOf src = Decls.stmts src.stmts := by
  have hfilter : Typing.declsOf src = src.nodes.filterMap Node.func? := by
    unfold Typing.declsOf
    congr 1
    funext n
    cases n <;> rfl
  have hnodes := Node.walkStmts_funcs [] src.stmts
  rw [List.filterMap_nil, List.append_nil] at hnodes
  rw [hfilter, ← hnodes]
  rfl

end Scripting
