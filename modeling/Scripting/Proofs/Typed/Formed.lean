import Mathlib.Data.List.Perm.Subperm
import Scripting.Typed.Analyze
import Scripting.Proofs.Scope.Basic
import Scripting.Proofs.Scope.Decls
import Scripting.Proofs.Scope.Growth
import Scripting.Proofs.Scope.Touches

/-!
# What type checking keeps of a tree

`Formed` says what a typed tree promises to the code generator: a call through a receiver has one, and
an instantiation gives every field of a record of the program. `Keeps` relates a resolved tree and the
typed one: names are still used after they were declared, functions occur no more often, and no code
stores into anything that it did not store into before.
-/

namespace Scripting

def Program.HasRecord (p : Program) (t : Template) : Prop :=
  ∃ d ∈ p.types.defs, d.kind = .record ∧ d.name = t.typeName ∧ d.fieldNames = t.fields

def Expr.IsMember {P : Phase} : Expr P → Prop
  | .member .. => True
  | _ => False

namespace Formed

mutual

def expr (p : Program) : Expr .typed → Prop
  | .name .. | .int .. | .float .. | .string .. | .char .. | .bool .. => True
  | .interpolated _ _ es | .array _ _ es => exprs p es
  | .unary _ _ _ e | .tryUnwrap _ _ e | .member _ _ e _ => expr p e
  | .binary _ _ _ l r | .assign _ _ l r | .index _ _ l r | .range _ _ l r => expr p l ∧ expr p r
  | .call _ _ info f es => (info.viaReceiver = true → f.IsMember) ∧ expr p f ∧ exprs p es
  | .new _ _ t _ fs => p.HasRecord t ∧ (∀ f ∈ t.fields, f ∈ fs.map FieldInit.name) ∧ inits p fs
  | .block b => block p b
  | .cond _ _ test body alt => expr p test ∧ block p body ∧ option p alt
  | .cases _ _ subject _ as => expr p subject ∧ arms p as

def exprs (p : Program) : List (Expr .typed) → Prop
  | [] => True
  | e :: es => expr p e ∧ exprs p es

def option (p : Program) : Option (Expr .typed) → Prop
  | none => True
  | some e => expr p e

def inits (p : Program) : List (FieldInit .typed) → Prop
  | [] => True
  | .mk _ _ e :: fs => expr p e ∧ inits p fs

def arms (p : Program) : List (Arm .typed) → Prop
  | [] => True
  | .mk _ q e :: as => pattern p q ∧ expr p e ∧ arms p as

def pattern (p : Program) : Pattern .typed → Prop
  | .wildcard _ | .bind .. => True
  | .literal _ e => expr p e
  | .ctor _ _ _ qs => patterns p qs

def patterns (p : Program) : List (Pattern .typed) → Prop
  | [] => True
  | q :: qs => pattern p q ∧ patterns p qs

def block (p : Program) : Block .typed → Prop
  | .mk _ _ ss _ => stmts p ss

def stmts (p : Program) : List (Stmt .typed) → Prop
  | [] => True
  | s :: ss => stmt p s ∧ stmts p ss

def stmt (p : Program) : Stmt .typed → Prop
  | .expr _ e | .bind _ _ _ _ e => expr p e
  | .block b => block p b
  | .ret _ e => option p e
  | .loop _ test b => expr p test ∧ block p b
  | .each _ _ _ series b => expr p series ∧ block p b
  | .func d => func p d
  | .impl _ _ ds => funcs p ds
  | .leave _ | .next _ | .record .. | .union .. | .use .. => True

def func (p : Program) : FunDecl .typed → Prop
  | .mk _ _ _ _ _ _ b => block p b

def funcs (p : Program) : List (FunDecl .typed) → Prop
  | [] => True
  | d :: ds => func p d ∧ funcs p ds

end

end Formed

namespace Typing

/-- Whether a typed function declares and stores into no more than a resolved one with the same
slots. -/
structure Narrows (d : FunDecl .resolved) (t : FunDecl .typed) : Prop where
  info : t.info = d.info
  params : t.paramDecls = d.paramDecls
  stores : (Stores.block t.body).Subperm (Stores.block d.body)

def Narrowed (ds : List (FunDecl .resolved)) (ts : List (FunDecl .typed)) : Prop :=
  ∀ t ∈ ts, ∃ d ∈ ds, Narrows d t

theorem Narrowed.nil {ds : List (FunDecl .resolved)} : Narrowed ds [] := fun _ h => nomatch h

theorem Narrowed.append {ds es : List (FunDecl .resolved)} {ts us : List (FunDecl .typed)}
    (h : Narrowed ds ts) (k : Narrowed es us) : Narrowed (ds ++ es) (ts ++ us) := by
  intro t ht
  rcases List.mem_append.mp ht with ht | ht
  · obtain ⟨d, hd, hn⟩ := h t ht
    exact ⟨d, List.mem_append_left _ hd, hn⟩
  · obtain ⟨d, hd, hn⟩ := k t ht
    exact ⟨d, List.mem_append_right _ hd, hn⟩

theorem Narrowed.mono {ds es : List (FunDecl .resolved)} {ts : List (FunDecl .typed)}
    (h : Narrowed ds ts) (hsub : ds ⊆ es) : Narrowed es ts := fun t ht =>
  let ⟨d, hd, hn⟩ := h t ht
  ⟨d, hsub hd, hn⟩

section

variable {α β : Type}

/-- What type checking keeps of a tree. -/
structure Keeps (p : Program) (S : Program → Region → Slots → α → Prop)
    (S' : Program → Region → Slots → β → Prop) (F : Program → β → Prop)
    (D : α → List (FunDecl .resolved)) (D' : β → List (FunDecl .typed)) (T : α → List Store)
    (T' : β → List Store) (a : α) (b : β) : Prop where
  inScope : ∀ q R σ, p.Grows q → S q R σ a → S' q R σ b
  formed : F p b
  ids : ((D' b).map (·.info.id)).Subperm ((D a).map (·.info.id))
  stores : (T' b).Subperm (T a)
  inner : Narrowed (D a) (D' b)

end

variable (p : Program)

def KeepsExpr : Expr .resolved → Expr .typed → Prop :=
  Keeps p Scoped.expr Scoped.expr Formed.expr Decls.expr Decls.expr Stores.expr Stores.expr

def KeepsExprs : List (Expr .resolved) → List (Expr .typed) → Prop :=
  Keeps p Scoped.exprs Scoped.exprs Formed.exprs Decls.exprs Decls.exprs Stores.exprs Stores.exprs

def KeepsOption : Option (Expr .resolved) → Option (Expr .typed) → Prop :=
  Keeps p Scoped.option Scoped.option Formed.option Decls.option Decls.option Stores.option Stores.option

def KeepsInits : List (FieldInit .resolved) → List (FieldInit .typed) → Prop :=
  Keeps p Scoped.inits Scoped.inits Formed.inits Decls.inits Decls.inits Stores.inits Stores.inits

def KeepsArms : List (Arm .resolved) → List (Arm .typed) → Prop :=
  Keeps p Scoped.arms Scoped.arms Formed.arms Decls.arms Decls.arms Stores.arms Stores.arms

def KeepsBlock : Block .resolved → Block .typed → Prop :=
  Keeps p Scoped.block Scoped.block Formed.block Decls.block Decls.block Stores.block Stores.block

def KeepsStmts : List (Stmt .resolved) → List (Stmt .typed) → Prop :=
  Keeps p Scoped.stmts Scoped.stmts Formed.stmts Decls.stmts Decls.stmts Stores.stmts Stores.stmts

def KeepsPattern (q : Pattern .resolved) (q' : Pattern .typed) : Prop :=
  Keeps p Scoped.pattern Scoped.pattern Formed.pattern Decls.pattern Decls.pattern Stores.pattern
    Stores.pattern q q' ∧
    ∀ r (σ : Slots), σ.afterPattern r q' = σ.afterPattern r q

def KeepsPatterns (qs : List (Pattern .resolved)) (qs' : List (Pattern .typed)) : Prop :=
  Keeps p Scoped.patterns Scoped.patterns Formed.patterns Decls.patterns Decls.patterns Stores.patterns
    Stores.patterns qs qs' ∧
    ∀ r (σ : Slots), σ.afterPatterns r qs' = σ.afterPatterns r qs

/-- What type checking keeps of a statement, with what it declares for those behind it. -/
def KeepsStmt (s : Stmt .resolved) (t : Stmt .typed) : Prop :=
  Keeps p Scoped.stmt Scoped.stmt Formed.stmt Decls.stmt Decls.stmt Stores.stmt Stores.stmt s t ∧
    ∀ q (σ : Slots), σ.afterStmt q t = σ.afterStmt q s

/-- What type checking keeps of a function. -/
structure KeepsFunc (d : FunDecl .resolved) (t : FunDecl .typed) : Prop where
  info : t.info = d.info
  keeps : Keeps p (fun q _ _ => Scoped.func q) (fun q _ _ => Scoped.func q) Formed.func Decls.func
    Decls.func (fun d => Stores.block d.body) (fun t => Stores.block t.body) d t

section

variable {p}

theorem KeepsExprs.nil : KeepsExprs p [] [] := ⟨fun _ _ _ _ h => h, trivial, .refl _, .refl _, .nil⟩

theorem KeepsExprs.cons {e : Expr .resolved} {e' : Expr .typed} {es : List (Expr .resolved)}
    {es' : List (Expr .typed)} (h : KeepsExpr p e e') (hs : KeepsExprs p es es') :
    KeepsExprs p (e :: es) (e' :: es') := by
  refine ⟨fun q R σ hq hes => ⟨h.inScope q R σ hq hes.1, hs.inScope q R σ hq hes.2⟩,
    ⟨h.formed, hs.formed⟩, ?_, h.stores.append hs.stores, h.inner.append hs.inner⟩
  rw [Decls.exprs, Decls.exprs, List.map_append, List.map_append]
  exact h.ids.append hs.ids

theorem KeepsInits.nil : KeepsInits p [] [] := ⟨fun _ _ _ _ h => h, trivial, .refl _, .refl _, .nil⟩

theorem KeepsInits.cons {tok : Token} {nm : String} {e : Expr .resolved} {e' : Expr .typed}
    {fs : List (FieldInit .resolved)} {fs' : List (FieldInit .typed)} (h : KeepsExpr p e e')
    (hs : KeepsInits p fs fs') : KeepsInits p (.mk tok nm e :: fs) (.mk tok nm e' :: fs') := by
  refine ⟨fun q R σ hq hes => ⟨h.inScope q R σ hq hes.1, hs.inScope q R σ hq hes.2⟩,
    ⟨h.formed, hs.formed⟩, ?_, h.stores.append hs.stores, h.inner.append hs.inner⟩
  rw [Decls.inits, Decls.inits, List.map_append, List.map_append]
  exact h.ids.append hs.ids

theorem KeepsOption.none : KeepsOption p none none := ⟨fun _ _ _ _ h => h, trivial, .refl _, .refl _, .nil⟩

theorem KeepsOption.some {e : Expr .resolved} {e' : Expr .typed} (h : KeepsExpr p e e') :
    KeepsOption p (some e) (some e') :=
  ⟨h.inScope, h.formed, h.ids, h.stores, h.inner⟩

theorem KeepsPatterns.nil : KeepsPatterns p [] [] :=
  ⟨⟨fun _ _ _ _ h => h, trivial, .refl _, .refl _, .nil⟩, fun _ _ => rfl⟩

theorem KeepsPatterns.cons {q : Pattern .resolved} {q' : Pattern .typed}
    {qs : List (Pattern .resolved)} {qs' : List (Pattern .typed)} (h : KeepsPattern p q q')
    (hs : KeepsPatterns p qs qs') : KeepsPatterns p (q :: qs) (q' :: qs') := by
  refine ⟨⟨fun r R σ hr hqs => ⟨h.1.inScope r R σ hr hqs.1, ?_⟩, ⟨h.1.formed, hs.1.formed⟩, ?_,
    h.1.stores.append hs.1.stores, h.1.inner.append hs.1.inner⟩, ?_⟩
  · rw [h.2]
    exact hs.1.inScope r R _ hr hqs.2
  · rw [Decls.patterns, Decls.patterns, List.map_append, List.map_append]
    exact h.1.ids.append hs.1.ids
  · intro r σ
    rw [Slots.afterPatterns, Slots.afterPatterns, h.2, hs.2]

theorem KeepsArms.nil : KeepsArms p [] [] := ⟨fun _ _ _ _ h => h, trivial, .refl _, .refl _, .nil⟩

theorem KeepsArms.cons {tok : Token} {q : Pattern .resolved} {q' : Pattern .typed}
    {e : Expr .resolved} {e' : Expr .typed} {as : List (Arm .resolved)} {as' : List (Arm .typed)}
    (hq : KeepsPattern p q q') (he : KeepsExpr p e e') (hs : KeepsArms p as as') :
    KeepsArms p (.mk tok q e :: as) (.mk tok q' e' :: as') := by
  refine ⟨fun r R σ hr h => ⟨hq.1.inScope r R σ hr h.1, ?_, hs.inScope r R σ hr h.2.2⟩,
    ⟨hq.1.formed, he.formed, hs.formed⟩, ?_,
    hq.1.stores.append (he.stores.append hs.stores),
    hq.1.inner.append (he.inner.append hs.inner)⟩
  · rw [hq.2]
    exact he.inScope r R _ hr h.2.1
  · rw [Decls.arms, Decls.arms, List.map_append, List.map_append, List.map_append, List.map_append]
    exact hq.1.ids.append (he.ids.append hs.ids)

theorem KeepsStmts.nil : KeepsStmts p [] [] := ⟨fun _ _ _ _ h => h, trivial, .refl _, .refl _, .nil⟩

theorem KeepsStmts.cons {s : Stmt .resolved} {t : Stmt .typed} {ss : List (Stmt .resolved)}
    {ts : List (Stmt .typed)} (h : KeepsStmt p s t) (hs : KeepsStmts p ss ts) :
    KeepsStmts p (s :: ss) (t :: ts) := by
  refine ⟨fun r R σ hr hss => ⟨h.1.inScope r R σ hr hss.1, ?_⟩, ⟨h.1.formed, hs.formed⟩, ?_,
    h.1.stores.append hs.stores, h.1.inner.append hs.inner⟩
  · rw [h.2]
    exact hs.inScope r R _ hr hss.2
  · rw [Decls.stmts, Decls.stmts, List.map_append, List.map_append]
    exact h.1.ids.append hs.ids

theorem KeepsExpr.call {f g : Expr .resolved} {f' : Expr .typed} {es : List (Expr .resolved)}
    {es' : List (Expr .typed)} {n : Option Ty} {tok : Token} {info : CallInfo}
    (hf : KeepsExpr p f f') (hes : KeepsExprs p es es') (hvia : info.viaReceiver = true → f'.IsMember)
    (hg : ∀ q R σ, Scoped.expr q R σ g → Scoped.expr q R σ f ∧ Scoped.exprs q R σ es)
    (hids : ((Decls.expr f ++ Decls.exprs es).map (·.info.id)).Subperm
      ((Decls.expr g).map (·.info.id)))
    (hstores : (Stores.expr f ++ Stores.exprs es).Subperm (Stores.expr g))
    (hdecls : Decls.expr f ++ Decls.exprs es ⊆ Decls.expr g) :
    KeepsExpr p g (.call n tok info f' es') := by
  refine ⟨fun q R σ hq h => ⟨hf.inScope q R σ hq (hg q R σ h).1,
    hes.inScope q R σ hq (hg q R σ h).2⟩, ⟨hvia, hf.formed, hes.formed⟩, ?_,
    (hf.stores.append hes.stores).trans hstores,
    (hf.inner.append hes.inner).mono hdecls⟩
  rw [List.map_append] at hids
  rw [Decls.expr, List.map_append]
  exact (hf.ids.append hes.ids).trans hids

end

end Typing

end Scripting
