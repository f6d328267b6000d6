import Scripting.Proofs.Scope.Basic
import Scripting.Proofs.Scope.Decls

/-!
# What a batch declares

`Own n m` says of a tree that all bindings it declares come behind the first `n` and all its functions
behind the first `m`: it declares nothing that was there before.
-/

namespace Scripting

variable {N C T W : Type} (n m : Nat)

/-- Whether a function and what it declares for itself are new. -/
structure FunSlots.Own (info : FunSlots) (params : List BindingId) : Prop where
  id : m ≤ info.id
  binding : ∀ b, info.binding = some b → n ≤ b
  self : ∀ b, info.self = some b → n ≤ b
  params : ∀ b ∈ params, n ≤ b

namespace Own

mutual

def expr : Expr (.slotted N C T W) → Prop
  | .name .. | .int .. | .float .. | .string .. | .char .. | .bool .. => True
  | .interpolated _ _ es | .array _ _ es => exprs es
  | .unary _ _ _ e | .tryUnwrap _ _ e | .member _ _ e _ => expr e
  | .binary _ _ _ l r | .assign _ _ l r | .index _ _ l r | .range _ _ l r => expr l ∧ expr r
  | .call _ _ _ f es => expr f ∧ exprs es
  | .new _ _ _ _ fs => inits fs
  | .block b => block b
  | .cond _ _ test body alt => expr test ∧ block body ∧ option alt
  | .cases _ _ subject b as => expr subject ∧ n ≤ b ∧ arms as

def exprs : List (Expr (.slotted N C T W)) → Prop
  | [] => True
  | e :: es => expr e ∧ exprs es

def option : Option (Expr (.slotted N C T W)) → Prop
  | none => True
  | some e => expr e

def inits : List (FieldInit (.slotted N C T W)) → Prop
  | [] => True
  | .mk _ _ e :: fs => expr e ∧ inits fs

def arms : List (Arm (.slotted N C T W)) → Prop
  | [] => True
  | .mk _ q e :: as => pattern q ∧ expr e ∧ arms as

def pattern : Pattern (.slotted N C T W) → Prop
  | .wildcard _ => True
  | .literal _ e => expr e
  | .bind _ b => n ≤ b
  | .ctor _ _ _ qs => patterns qs

def patterns : List (Pattern (.slotted N C T W)) → Prop
  | [] => True
  | q :: qs => pattern q ∧ patterns qs

def block : Block (.slotted N C T W) → Prop
  | .mk _ _ ss _ => stmts ss

def func : FunDecl (.slotted N C T W) → Prop
  | .mk _ _ info _ params _ b => info.Own n m (params.map (·.decl)) ∧ block b

def funcs : List (FunDecl (.slotted N C T W)) → Prop
  | [] => True
  | d :: ds => func d ∧ funcs ds

def stmts : List (Stmt (.slotted N C T W)) → Prop
  | [] => True
  | s :: ss => stmt s ∧ stmts ss

def stmt : Stmt (.slotted N C T W) → Prop
  | .expr _ e => expr e
  | .bind _ _ b _ e => expr e ∧ n ≤ b
  | .block b => block b
  | .ret _ e => option e
  | .loop _ e b => expr e ∧ block b
  | .each _ _ l e b => expr e ∧ (n ≤ l.limit ∧ n ≤ l.index ∧ n ≤ l.item) ∧ block b
  | .func d => func d
  | .impl _ _ ds => funcs ds
  | .leave _ | .next _ | .record .. | .union .. | .use .. => True

end

variable {n m}

def All (n m : Nat) (ds : List (FunDecl (.slotted N C T W))) : Prop := ∀ d ∈ ds, func n m d

theorem All.nil : All n m ([] : List (FunDecl (.slotted N C T W))) := by simp [All]

theorem All.append {ds es : List (FunDecl (.slotted N C T W))} (hd : All n m ds) (he : All n m es) :
    All n m (ds ++ es) := fun d h => (List.mem_append.mp h).elim (hd d) (he d)

mutual

theorem expr_all : (e : Expr (.slotted N C T W)) → expr n m e → All n m (Decls.expr e)
  | .name .., _ | .int .., _ | .float .., _ | .string .., _ | .char .., _ | .bool .., _ => .nil
  | .interpolated _ _ es, h | .array _ _ es, h => exprs_all es h
  | .unary _ _ _ e, h | .tryUnwrap _ _ e, h | .member _ _ e _, h => expr_all e h
  | .binary _ _ _ l r, h | .assign _ _ l r, h | .index _ _ l r, h | .range _ _ l r, h =>
    (expr_all l h.1).append (expr_all r h.2)
  | .call _ _ _ f es, h => (expr_all f h.1).append (exprs_all es h.2)
  | .new _ _ _ _ fs, h => inits_all fs h
  | .block b, h => block_all b h
  | .cond _ _ test body alt, h =>
    (expr_all test h.1).append ((block_all body h.2.1).append (option_all alt h.2.2))
  | .cases _ _ subject _ as, h => (expr_all subject h.1).append (arms_all as h.2.2)

theorem exprs_all : (es : List (Expr (.slotted N C T W))) → exprs n m es → All n m (Decls.exprs es)
  | [], _ => .nil
  | e :: es, h => (expr_all e h.1).append (exprs_all es h.2)

theorem option_all : (e : Option (Expr (.slotted N C T W))) → option n m e →
    All n m (Decls.option e)
  | none, _ => .nil
  | some e, h => expr_all e h

theorem inits_all : (fs : List (FieldInit (.slotted N C T W))) → inits n m fs →
    All n m (Decls.inits fs)
  | [], _ => .nil
  | .mk _ _ e :: fs, h => by
    rw [inits] at h
    exact (expr_all e h.1).append (inits_all fs h.2)

theorem arms_all : (as : List (Arm (.slotted N C T W))) → arms n m as → All n m (Decls.arms as)
  | [], _ => .nil
  | .mk _ q e :: as, h => by
    rw [arms] at h
    exact (pattern_all q h.1).append ((expr_all e h.2.1).append (arms_all as h.2.2))

theorem pattern_all : (q : Pattern (.slotted N C T W)) → pattern n m q → All n m (Decls.pattern q)
  | .wildcard _, _ | .bind .., _ => .nil
  | .literal _ e, h => expr_all e h
  | .ctor _ _ _ qs, h => patterns_all qs h

theorem patterns_all : (qs : List (Pattern (.slotted N C T W))) → patterns n m qs →
    All n m (Decls.patterns qs)
  | [], _ => .nil
  | q :: qs, h => (pattern_all q h.1).append (patterns_all qs h.2)

theorem block_all : (b : Block (.slotted N C T W)) → block n m b → All n m (Decls.block b)
  | .mk _ _ ss _, h => stmts_all ss h

theorem func_all : (d : FunDecl (.slotted N C T W)) → func n m d → All n m (Decls.func d)
  | .mk t nm i s ps r b, h => by
    intro d hd
    rcases List.mem_cons.mp hd with rfl | hd
    · exact h
    · exact block_all b h.2 d hd

theorem funcs_all : (ds : List (FunDecl (.slotted N C T W))) → funcs n m ds →
    All n m (Decls.funcs ds)
  | [], _ => .nil
  | d :: ds, h => (func_all d h.1).append (funcs_all ds h.2)

theorem stmts_all : (ss : List (Stmt (.slotted N C T W))) → stmts n m ss → All n m (Decls.stmts ss)
  | [], _ => .nil
  | s :: ss, h => (stmt_all s h.1).append (stmts_all ss h.2)

theorem stmt_all : (s : Stmt (.slotted N C T W)) → stmt n m s → All n m (Decls.stmt s)
  | .expr _ e, h => expr_all e h
  | .bind _ _ _ _ e, h => expr_all e h.1
  | .block b, h => block_all b h
  | .ret _ e, h => option_all e h
  | .loop _ e b, h => (expr_all e h.1).append (block_all b h.2)
  | .each _ _ _ e b, h => (expr_all e h.1).append (block_all b h.2.2)
  | .func d, h => func_all d h
  | .impl _ _ ds, h => funcs_all ds h
  | .leave _, _ | .next _, _ | .record .., _ | .union .., _ | .use .., _ => .nil

end

end Own

end Scripting
