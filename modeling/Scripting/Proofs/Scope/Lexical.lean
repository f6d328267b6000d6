import Mathlib.Data.List.Forall2
import Scripting.Proofs.Scope.Decls
import Scripting.Resolved.Basic

/-!
# What names mean

`Lexical` relates a parsed tree to one with slots. A `Chain` holds what the scopes around a place have
declared so far; a declaration joins the innermost one, behind the code before it and before the code
behind it. A name that is a variable must stand for what the chain finds: the latest declaration of the
innermost scope that has one. The rules say nothing of where a variable is stored.
-/

namespace Scripting

abbrev Names := String → Option BindingId

/-- A name is declared; an earlier declaration of it in the same scope is hidden. -/
def Names.bind (f : Names) (name : String) (b : BindingId) : Names :=
  fun other => if name = other then some b else f other

/-- The scopes around a place, the innermost first. -/
abbrev Chain := List Names

namespace Chain

def find : Chain → String → Option BindingId
  | [], _ => none
  | f :: fs, name => (f name).or (find fs name)

def declare : Chain → String → BindingId → Chain
  | [], _, _ => []
  | f :: fs, name, b => f.bind name b :: fs

def inner (Γ : Chain) : Chain := (fun _ => none) :: Γ

def declareAll (Γ : Chain) (xs : List (String × BindingId)) : Chain :=
  xs.foldl (fun Γ x => Γ.declare x.1 x.2) Γ

end Chain

def FunDecl.named (d : FunDecl .resolved) : List (String × BindingId) :=
  d.info.self.toList.map (("self", ·)) ++ d.params.map fun q => (q.name.text, q.decl)

namespace Lexical

mutual

inductive expr : Chain → Expr .parsed → Expr .resolved → Prop
  /-- A variable. -/
  | variable {Γ : Chain} {u v : Unit} {t : Token} {name text : String} {s : Slot}
      (found : Γ.find name = some s.binding) : expr Γ (.name u t name v) (.name () t text s)
  /-- A type; no variable has the name. -/
  | type {Γ : Chain} {u v : Unit} {t : Token} {name text : String} {s : Slot}
      (free : Γ.find name = none) : expr Γ (.name u t name v) (.name () t text s)
  /-- A type whose qualified name is a chain of members. -/
  | qualified {Γ : Chain} {u : Unit} {t tok : Token} {left : Expr .parsed} {field : Name}
      {path : List String} {s : Slot} (chain : left.dotted? = some (tok, path)) :
      expr Γ (.member u t left field) (.name () tok (".".intercalate (path ++ [field.text])) s)
  | int {Γ : Chain} {u : Unit} {t : Token} {v : Int64} : expr Γ (.int u t v) (.int () t v)
  | float {Γ : Chain} {u : Unit} {t : Token} {v : Float} : expr Γ (.float u t v) (.float () t v)
  | string {Γ : Chain} {u : Unit} {t : Token} {v : String} : expr Γ (.string u t v) (.string () t v)
  | char {Γ : Chain} {u : Unit} {t : Token} {v : Char} : expr Γ (.char u t v) (.char () t v)
  | bool {Γ : Chain} {u : Unit} {t : Token} {v : Bool} : expr Γ (.bool u t v) (.bool () t v)
  | interpolated {Γ : Chain} {u : Unit} {t : Token} {es : List (Expr .parsed)}
      {es' : List (Expr .resolved)} (parts : exprs Γ es es') :
      expr Γ (.interpolated u t es) (.interpolated () t es')
  | array {Γ : Chain} {u : Unit} {t : Token} {es : List (Expr .parsed)} {es' : List (Expr .resolved)}
      (elems : exprs Γ es es') : expr Γ (.array u t es) (.array () t es')
  | unary {Γ : Chain} {u : Unit} {t : Token} {op : UnaryOp} {e : Expr .parsed} {e' : Expr .resolved}
      (right : expr Γ e e') : expr Γ (.unary u t op e) (.unary () t op e')
  | binary {Γ : Chain} {u : Unit} {t : Token} {op : BinaryOp} {l r : Expr .parsed}
      {l' r' : Expr .resolved} (left : expr Γ l l') (right : expr Γ r r') :
      expr Γ (.binary u t op l r) (.binary () t op l' r')
  | assign {Γ : Chain} {u : Unit} {t : Token} {l r : Expr .parsed} {l' r' : Expr .resolved}
      (target : expr Γ l l') (value : expr Γ r r') : expr Γ (.assign u t l r) (.assign () t l' r')
  | call {Γ : Chain} {u v : Unit} {t : Token} {f : Expr .parsed} {f' : Expr .resolved}
      {es : List (Expr .parsed)} {es' : List (Expr .resolved)} (callee : expr Γ f f')
      (args : exprs Γ es es') : expr Γ (.call u t v f es) (.call () t () f' es')
  | member {Γ : Chain} {u : Unit} {t : Token} {e : Expr .parsed} {e' : Expr .resolved} {field : Name}
      (left : expr Γ e e') : expr Γ (.member u t e field) (.member () t e' field)
  | index {Γ : Chain} {u : Unit} {t : Token} {l r : Expr .parsed} {l' r' : Expr .resolved}
      (left : expr Γ l l') (index : expr Γ r r') : expr Γ (.index u t l r) (.index () t l' r')
  | new {Γ : Chain} {u v : Unit} {t : Token} {path : List String} {fs : List (FieldInit .parsed)}
      {fs' : List (FieldInit .resolved)} (fields : inits Γ fs fs') :
      expr Γ (.new u t v path fs) (.new () t () path fs')
  | tryUnwrap {Γ : Chain} {u : Unit} {t : Token} {e : Expr .parsed} {e' : Expr .resolved}
      (value : expr Γ e e') : expr Γ (.tryUnwrap u t e) (.tryUnwrap () t e')
  | range {Γ : Chain} {u : Unit} {t : Token} {l r : Expr .parsed} {l' r' : Expr .resolved}
      (start : expr Γ l l') (stop : expr Γ r r') : expr Γ (.range u t l r) (.range () t l' r')
  | block {Γ : Chain} {b : Block .parsed} {b' : Block .resolved} (body : block Γ b b') :
      expr Γ (.block b) (.block b')
  | cond {Γ : Chain} {u : Unit} {t : Token} {e : Expr .parsed} {e' : Expr .resolved}
      {b : Block .parsed} {b' : Block .resolved} {a : Option (Expr .parsed)}
      {a' : Option (Expr .resolved)} (test : expr Γ e e') (body : block Γ b b') (alt : option Γ a a') :
      expr Γ (.cond u t e b a) (.cond () t e' b' a')
  /-- The variable of the subject has no name. -/
  | cases {Γ : Chain} {u v : Unit} {t : Token} {e : Expr .parsed} {e' : Expr .resolved}
      {b : BindingId} {as : List (Arm .parsed)} {as' : List (Arm .resolved)} (subject : expr Γ e e')
      (arms : arms Γ as as') : expr Γ (.cases u t e v as) (.cases () t e' b as')

inductive exprs : Chain → List (Expr .parsed) → List (Expr .resolved) → Prop
  | nil {Γ : Chain} : exprs Γ [] []
  | cons {Γ : Chain} {e : Expr .parsed} {e' : Expr .resolved} {es : List (Expr .parsed)}
      {es' : List (Expr .resolved)} (head : expr Γ e e') (tail : exprs Γ es es') :
      exprs Γ (e :: es) (e' :: es')

inductive option : Chain → Option (Expr .parsed) → Option (Expr .resolved) → Prop
  | none {Γ : Chain} : option Γ none none
  | some {Γ : Chain} {e : Expr .parsed} {e' : Expr .resolved} (value : expr Γ e e') :
      option Γ (some e) (some e')

inductive inits : Chain → List (FieldInit .parsed) → List (FieldInit .resolved) → Prop
  | nil {Γ : Chain} : inits Γ [] []
  | cons {Γ : Chain} {t : Token} {name : String} {e : Expr .parsed} {e' : Expr .resolved}
      {fs : List (FieldInit .parsed)} {fs' : List (FieldInit .resolved)} (head : expr Γ e e')
      (tail : inits Γ fs fs') : inits Γ (.mk t name e :: fs) (.mk t name e' :: fs')

/-- Every arm has a scope of its own, in which its pattern declares. -/
inductive arms : Chain → List (Arm .parsed) → List (Arm .resolved) → Prop
  | nil {Γ : Chain} : arms Γ [] []
  | cons {Γ Δ : Chain} {t : Token} {q : Pattern .parsed} {q' : Pattern .resolved} {e : Expr .parsed}
      {e' : Expr .resolved} {as : List (Arm .parsed)} {as' : List (Arm .resolved)}
      (head : pattern Γ.inner q q' Δ) (body : expr Δ e e') (tail : arms Γ as as') :
      arms Γ (.mk t q e :: as) (.mk t q' e' :: as')

inductive pattern : Chain → Pattern .parsed → Pattern .resolved → Chain → Prop
  | wildcard {Γ : Chain} {t : Token} : pattern Γ (.wildcard t) (.wildcard t) Γ
  | literal {Γ : Chain} {t : Token} {e : Expr .parsed} {e' : Expr .resolved} (value : expr Γ e e') :
      pattern Γ (.literal t e) (.literal t e') Γ
  | bind {Γ : Chain} {name : Name} {u : Unit} {b : BindingId} :
      pattern Γ (.bind name u) (.bind name b) (Γ.declare name.text b)
  | ctor {Γ Δ : Chain} {t : Token} {u : Unit} {path : List String} {qs : List (Pattern .parsed)}
      {qs' : List (Pattern .resolved)} (args : patterns Γ qs qs' Δ) :
      pattern Γ (.ctor t u path qs) (.ctor t () path qs') Δ

inductive patterns : Chain → List (Pattern .parsed) → List (Pattern .resolved) → Chain → Prop
  | nil {Γ : Chain} : patterns Γ [] [] Γ
  | cons {Γ Δ Θ : Chain} {q : Pattern .parsed} {q' : Pattern .resolved} {qs : List (Pattern .parsed)}
      {qs' : List (Pattern .resolved)} (head : pattern Γ q q' Δ) (tail : patterns Δ qs qs' Θ) :
      patterns Γ (q :: qs) (q' :: qs') Θ

inductive block : Chain → Block .parsed → Block .resolved → Prop
  | mk {Γ Δ : Chain} {u : Unit} {t close : Token} {ss : List (Stmt .parsed)}
      {ss' : List (Stmt .resolved)} (body : stmts Γ.inner ss ss' Δ) :
      block Γ (.mk u t ss close) (.mk () t ss' close)

/-- The code of a function stands in the scope of its parameters. -/
inductive func : Chain → FunDecl .parsed → FunDecl .resolved → Prop
  | mk {Γ Δ : Chain} {t bt close : Token} {name : Name} {u v : Unit} {self : Bool}
      {params : List (Param .parsed)} {result : Option TypeExpr} {ss : List (Stmt .parsed)}
      {info : FunSlots} {params' : List (Param .resolved)} {ss' : List (Stmt .resolved)}
      (receiver : info.self.isSome = self) (names : params'.map (·.name) = params.map (·.name))
      (body : stmts (Γ.inner.declareAll (FunDecl.named
        (.mk t name info self params' result (.mk () bt ss' close)))) ss ss' Δ) :
      func Γ (.mk t name u self params result (.mk v bt ss close))
        (.mk t name info self params' result (.mk () bt ss' close))

inductive stmts : Chain → List (Stmt .parsed) → List (Stmt .resolved) → Chain → Prop
  | nil {Γ : Chain} : stmts Γ [] [] Γ
  | cons {Γ Δ Θ : Chain} {s : Stmt .parsed} {s' : Stmt .resolved} {ss : List (Stmt .parsed)}
      {ss' : List (Stmt .resolved)} (head : stmt Γ s s' Δ) (tail : stmts Δ ss ss' Θ) :
      stmts Γ (s :: ss) (s' :: ss') Θ

inductive stmt : Chain → Stmt .parsed → Stmt .resolved → Chain → Prop
  | expr {Γ : Chain} {t : Token} {e : Expr .parsed} {e' : Expr .resolved} (value : expr Γ e e') :
      stmt Γ (.expr t e) (.expr t e') Γ
  | block {Γ : Chain} {b : Block .parsed} {b' : Block .resolved} (body : block Γ b b') :
      stmt Γ (.block b) (.block b') Γ
  /-- The value cannot use the name. -/
  | bind {Γ : Chain} {t : Token} {name : Name} {u : Unit} {b : BindingId} {type : Option TypeExpr}
      {e : Expr .parsed} {e' : Expr .resolved} (value : expr Γ e e') :
      stmt Γ (.bind t name u type e) (.bind t name b type e') (Γ.declare name.text b)
  | ret {Γ : Chain} {t : Token} {e : Option (Expr .parsed)} {e' : Option (Expr .resolved)}
      (value : option Γ e e') : stmt Γ (.ret t e) (.ret t e') Γ
  | loop {Γ : Chain} {t : Token} {e : Expr .parsed} {e' : Expr .resolved} {b : Block .parsed}
      {b' : Block .resolved} (test : expr Γ e e') (body : block Γ b b') :
      stmt Γ (.loop t e b) (.loop t e' b') Γ
  /-- The loop has a scope of its own for its variable, around that of the body. -/
  | each {Γ : Chain} {t : Token} {name : Name} {u : Unit} {l : LoopSlots} {e : Expr .parsed}
      {e' : Expr .resolved} {b : Block .parsed} {b' : Block .resolved} (series : expr Γ e e')
      (body : block (Γ.inner.declare name.text l.item) b b') :
      stmt Γ (.each t name u e b) (.each t name l e' b') Γ
  | leave {Γ : Chain} {t : Token} : stmt Γ (.leave t) (.leave t) Γ
  | next {Γ : Chain} {t : Token} : stmt Γ (.next t) (.next t) Γ
  /-- A function can use its own name. -/
  | func {Γ : Chain} {d : FunDecl .parsed} {d' : FunDecl .resolved} {b : BindingId}
      (name : d'.info.binding = some b) (body : func (Γ.declare d.name.text b) d d') :
      stmt Γ (.func d) (.func d') (Γ.declare d.name.text b)

end

/-- The functions of an `impl` block. -/
inductive funcs (Γ : Chain) : List (FunDecl .parsed) → List (FunDecl .resolved) → Prop
  | nil : funcs Γ [] []
  | cons {d : FunDecl .parsed} {d' : FunDecl .resolved} {ds : List (FunDecl .parsed)}
      {ds' : List (FunDecl .resolved)} (head : func Γ d d') (tail : funcs Γ ds ds') :
      funcs Γ (d :: ds) (d' :: ds')

/-- A statement at top level. Functions were declared before. -/
inductive top : Chain → Stmt .parsed → Stmt .resolved → Chain → Prop
  | func {Γ : Chain} {d : FunDecl .parsed} {d' : FunDecl .resolved} (body : Lexical.func Γ d d') :
      top Γ (.func d) (.func d') Γ
  | impl {Γ : Chain} {t : Token} {name : Name} {ds : List (FunDecl .parsed)}
      {ds' : List (FunDecl .resolved)} (methods : Lexical.funcs Γ ds ds') :
      top Γ (.impl t name ds) (.impl t name ds') Γ
  | record {Γ : Chain} {t : Token} {name : Name} {fs : List FieldDecl} :
      top Γ (.record t name fs) (.record t name fs) Γ
  | union {Γ : Chain} {t : Token} {name : Name} {vs : List VariantDecl} :
      top Γ (.union t name vs) (.union t name vs) Γ
  | use {Γ : Chain} {t : Token} {path : List String} : top Γ (.use t path) (.use t path) Γ
  | other {Γ Δ : Chain} {s : Stmt .parsed} {s' : Stmt .resolved} (hfunc : ∀ d, s ≠ .func d)
      (code : stmt Γ s s' Δ) : top Γ s s' Δ

inductive tops : Chain → List (Stmt .parsed) → List (Stmt .resolved) → Chain → Prop
  | nil {Γ : Chain} : tops Γ [] [] Γ
  | cons {Γ Δ Θ : Chain} {s : Stmt .parsed} {s' : Stmt .resolved} {ss : List (Stmt .parsed)}
      {ss' : List (Stmt .resolved)} (head : top Γ s s' Δ) (tail : tops Δ ss ss' Θ) :
      tops Γ (s :: ss) (s' :: ss') Θ

def variantNames : Stmt .parsed → List String
  | .union _ _ vs => vs.map (·.name)
  | _ => []

def functionName {P : Phase} : Stmt P → List String
  | .func d => [d.name.text]
  | _ => []

def functionBinding : Stmt .resolved → List BindingId
  | .func d => d.info.binding.toList
  | _ => []

/-- What the names of a batch mean, when what could be named before is that of `p`, and `q` is the
program behind it. The variants and functions of the batch are declared before its first statement,
each as a new binding of its name. -/
def batch (p q : Program) (ss : List (Stmt .parsed)) (ss' : List (Stmt .resolved)) : Prop :=
  ∃ (vs : List BindingId) (Δ : Chain),
    List.Forall₂ (fun name b => p.bindings.size ≤ b ∧ (q.binding b).name = name)
        (ss.flatMap variantNames ++ ss.flatMap functionName) (vs ++ ss'.flatMap functionBinding) ∧
      tops (Chain.declareAll [p.scope.get?]
        ((ss.flatMap variantNames ++ ss.flatMap functionName).zip (vs ++ ss'.flatMap functionBinding)))
          ss ss' Δ

end Lexical

end Scripting
