import Scripting.Proofs.Typed.Formed

/-!
# Functions inside a tree

A function is compiled by itself. What is known of the tree around it is known of the function: its
names are used after they were declared, and it is formed for the code generator. The second depends
on nothing of the program but its records.
-/

namespace Scripting

namespace Formed

variable {p q : Program}

mutual

theorem expr_mono (hpq : ∀ t, p.HasRecord t → q.HasRecord t) : (e : Expr .typed) → expr p e → expr q e
  | .name .., _ | .int .., _ | .float .., _ | .string .., _ | .char .., _ | .bool .., _ => trivial
  | .interpolated _ _ es, h | .array _ _ es, h => exprs_mono hpq es h
  | .unary _ _ _ e, h | .tryUnwrap _ _ e, h | .member _ _ e _, h => expr_mono hpq e h
  | .binary _ _ _ l r, h | .assign _ _ l r, h | .index _ _ l r, h | .range _ _ l r, h =>
    ⟨expr_mono hpq l h.1, expr_mono hpq r h.2⟩
  | .call _ _ _ f es, h => ⟨h.1, expr_mono hpq f h.2.1, exprs_mono hpq es h.2.2⟩
  | .new _ _ t _ fs, h => ⟨hpq t h.1, h.2.1, inits_mono hpq fs h.2.2⟩
  | .block b, h => block_mono hpq b h
  | .cond _ _ test body alt, h =>
    ⟨expr_mono hpq test h.1, block_mono hpq body h.2.1, option_mono hpq alt h.2.2⟩
  | .cases _ _ subject _ as, h => ⟨expr_mono hpq subject h.1, arms_mono hpq as h.2⟩

theorem exprs_mono (hpq : ∀ t, p.HasRecord t → q.HasRecord t) : (es : List (Expr .typed)) → exprs p es →
    exprs q es
  | [], _ => trivial
  | e :: es, h => ⟨expr_mono hpq e h.1, exprs_mono hpq es h.2⟩

theorem option_mono (hpq : ∀ t, p.HasRecord t → q.HasRecord t) : (e : Option (Expr .typed)) → option p e →
    option q e
  | none, _ => trivial
  | some e, h => expr_mono hpq e h

theorem inits_mono (hpq : ∀ t, p.HasRecord t → q.HasRecord t) : (fs : List (FieldInit .typed)) →
    inits p fs → inits q fs
  | [], _ => trivial
  | .mk _ _ e :: fs, h => by
    rw [inits] at h ⊢
    exact ⟨expr_mono hpq e h.1, inits_mono hpq fs h.2⟩

theorem arms_mono (hpq : ∀ t, p.HasRecord t → q.HasRecord t) : (as : List (Arm .typed)) → arms p as →
    arms q as
  | [], _ => trivial
  | .mk _ c e :: as, h => by
    rw [arms] at h ⊢
    exact ⟨pattern_mono hpq c h.1, expr_mono hpq e h.2.1, arms_mono hpq as h.2.2⟩

theorem pattern_mono (hpq : ∀ t, p.HasRecord t → q.HasRecord t) : (c : Pattern .typed) → pattern p c →
    pattern q c
  | .wildcard _, _ | .bind .., _ => trivial
  | .literal _ e, h => expr_mono hpq e h
  | .ctor _ _ _ cs, h => patterns_mono hpq cs h

theorem patterns_mono (hpq : ∀ t, p.HasRecord t → q.HasRecord t) : (cs : List (Pattern .typed)) →
    patterns p cs → patterns q cs
  | [], _ => trivial
  | c :: cs, h => ⟨pattern_mono hpq c h.1, patterns_mono hpq cs h.2⟩

theorem block_mono (hpq : ∀ t, p.HasRecord t → q.HasRecord t) : (b : Block .typed) → block p b → block q b
  | .mk _ _ ss _, h => stmts_mono hpq ss h

theorem stmts_mono (hpq : ∀ t, p.HasRecord t → q.HasRecord t) : (ss : List (Stmt .typed)) → stmts p ss →
    stmts q ss
  | [], _ => trivial
  | s :: ss, h => ⟨stmt_mono hpq s h.1, stmts_mono hpq ss h.2⟩

theorem stmt_mono (hpq : ∀ t, p.HasRecord t → q.HasRecord t) : (s : Stmt .typed) → stmt p s → stmt q s
  | .expr _ e, h | .bind _ _ _ _ e, h => expr_mono hpq e h
  | .block b, h => block_mono hpq b h
  | .ret _ e, h => option_mono hpq e h
  | .loop _ e b, h | .each _ _ _ e b, h => ⟨expr_mono hpq e h.1, block_mono hpq b h.2⟩
  | .func d, h => func_mono hpq d h
  | .impl _ _ ds, h => funcs_mono hpq ds h
  | .leave _, _ | .next _, _ | .record .., _ | .union .., _ | .use .., _ => trivial

theorem func_mono (hpq : ∀ t, p.HasRecord t → q.HasRecord t) : (d : FunDecl .typed) → func p d → func q d
  | .mk _ _ _ _ _ _ b, h => block_mono hpq b h

theorem funcs_mono (hpq : ∀ t, p.HasRecord t → q.HasRecord t) : (ds : List (FunDecl .typed)) → funcs p ds →
    funcs q ds
  | [], _ => trivial
  | d :: ds, h => ⟨func_mono hpq d h.1, funcs_mono hpq ds h.2⟩

end

end Formed

/-- Whether a function can be compiled by itself. -/
def FunDecl.Ready (p : Program) (d : FunDecl .typed) : Prop := Scoped.func p d ∧ Formed.func p d

namespace Inner

variable {p : Program}

def All (p : Program) (ds : List (FunDecl .typed)) : Prop := ∀ d ∈ ds, d.Ready p

theorem All.nil : All p [] := by simp [All]

theorem All.append {ds es : List (FunDecl .typed)} (hd : All p ds) (he : All p es) :
    All p (ds ++ es) := fun d h => (List.mem_append.mp h).elim (hd d) (he d)

mutual

theorem expr_all {R : Region} {σ : Slots} : (e : Expr .typed) → Scoped.expr p R σ e → Formed.expr p e →
    All p (Decls.expr e)
  | .name .., _, _ | .int .., _, _ | .float .., _, _ | .string .., _, _ | .char .., _, _
  | .bool .., _, _ => .nil
  | .interpolated _ _ es, h, f | .array _ _ es, h, f => exprs_all es h f
  | .unary _ _ _ e, h, f | .tryUnwrap _ _ e, h, f | .member _ _ e _, h, f => expr_all e h f
  | .binary _ _ _ l r, h, f | .assign _ _ l r, h, f | .index _ _ l r, h, f | .range _ _ l r, h, f =>
    (expr_all l h.1 f.1).append (expr_all r h.2 f.2)
  | .call _ _ _ c es, h, f => (expr_all c h.1 f.2.1).append (exprs_all es h.2 f.2.2)
  | .new _ _ _ _ fs, h, f => inits_all fs h f.2.2
  | .block b, h, f => block_all b h f
  | .cond _ _ test body alt, h, f =>
    (expr_all test h.1 f.1).append ((block_all body h.2.1 f.2.1).append (option_all alt h.2.2 f.2.2))
  | .cases _ _ subject _ as, h, f => (expr_all subject h.1 f.1).append (arms_all as h.2.2 f.2)

theorem exprs_all {R : Region} {σ : Slots} : (es : List (Expr .typed)) → Scoped.exprs p R σ es →
    Formed.exprs p es → All p (Decls.exprs es)
  | [], _, _ => .nil
  | e :: es, h, f => (expr_all e h.1 f.1).append (exprs_all es h.2 f.2)

theorem option_all {R : Region} {σ : Slots} : (e : Option (Expr .typed)) → Scoped.option p R σ e →
    Formed.option p e → All p (Decls.option e)
  | none, _, _ => .nil
  | some e, h, f => expr_all e h f

theorem inits_all {R : Region} {σ : Slots} : (fs : List (FieldInit .typed)) → Scoped.inits p R σ fs →
    Formed.inits p fs → All p (Decls.inits fs)
  | [], _, _ => .nil
  | .mk _ _ e :: fs, h, f => by
    rw [Scoped.inits] at h
    rw [Formed.inits] at f
    exact (expr_all e h.1 f.1).append (inits_all fs h.2 f.2)

theorem arms_all {R : Region} {σ : Slots} : (as : List (Arm .typed)) → Scoped.arms p R σ as →
    Formed.arms p as → All p (Decls.arms as)
  | [], _, _ => .nil
  | .mk _ c e :: as, h, f => by
    rw [Scoped.arms] at h
    rw [Formed.arms] at f
    exact (pattern_all c h.1 f.1).append
      ((expr_all e h.2.1 f.2.1).append (arms_all as h.2.2 f.2.2))

theorem pattern_all {R : Region} {σ : Slots} : (c : Pattern .typed) → Scoped.pattern p R σ c →
    Formed.pattern p c → All p (Decls.pattern c)
  | .wildcard _, _, _ | .bind .., _, _ => .nil
  | .literal _ e, h, f => expr_all e h f
  | .ctor _ _ _ cs, h, f => patterns_all cs h f

theorem patterns_all {R : Region} {σ : Slots} : (cs : List (Pattern .typed)) → Scoped.patterns p R σ cs →
    Formed.patterns p cs → All p (Decls.patterns cs)
  | [], _, _ => .nil
  | c :: cs, h, f => (pattern_all c h.1 f.1).append (patterns_all cs h.2 f.2)

theorem block_all {R : Region} {σ : Slots} : (b : Block .typed) → Scoped.block p R σ b → Formed.block p b →
    All p (Decls.block b)
  | .mk _ _ ss _, h, f => stmts_all ss h f

theorem stmts_all {R : Region} {σ : Slots} : (ss : List (Stmt .typed)) → Scoped.stmts p R σ ss →
    Formed.stmts p ss → All p (Decls.stmts ss)
  | [], _, _ => .nil
  | s :: ss, h, f => (stmt_all s h.1 f.1).append (stmts_all ss h.2 f.2)

theorem stmt_all {R : Region} {σ : Slots} : (s : Stmt .typed) → Scoped.stmt p R σ s → Formed.stmt p s →
    All p (Decls.stmt s)
  | .expr _ e, h, f => expr_all e h f
  | .bind _ _ _ _ e, h, f => expr_all e h.1 f
  | .block b, h, f => block_all b h f
  | .ret _ e, h, f => option_all e h f
  | .loop _ e b, h, f => (expr_all e h.1 f.1).append (block_all b h.2 f.2)
  | .each _ _ _ e b, h, f => (expr_all e h.1 f.1).append (block_all b h.2.2.2 f.2)
  | .func d, h, f => func_all d h.2 f
  | .impl _ _ ds, h, f => funcs_all ds h f
  | .leave _, _, _ | .next _, _, _ | .record .., _, _ | .union .., _, _ | .use .., _, _ => .nil

theorem func_all : (d : FunDecl .typed) → Scoped.func p d → Formed.func p d →
    All p (Decls.func d)
  | .mk _ _ _ _ _ _ (.mk _ _ ss _), h, f => by
    intro d hd
    rcases List.mem_cons.mp hd with rfl | hd
    · exact ⟨h, f⟩
    · exact stmts_all ss h.2 f d hd

theorem funcs_all : (ds : List (FunDecl .typed)) → Scoped.funcs p ds → Formed.funcs p ds →
    All p (Decls.funcs ds)
  | [], _, _ => .nil
  | d :: ds, h, f => (func_all d h.1.2 f.1).append (funcs_all ds h.2 f.2)

end

end Inner

end Scripting
