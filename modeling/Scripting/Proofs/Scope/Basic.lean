import Scripting.Resolved.Basic

/-!
# Which variables code may use

`Scoped` says of a tree with slots that every name it reads or assigns was declared before on every
way that leads there. `Slots` tells which variable each slot of a frame holds at some point of the
code; a declaration takes a slot that holds none yet.
-/

namespace Scripting

abbrev Phase.slotted (N C T W : Type) : Phase :=
  { Ref := Slot, Decl := BindingId, Note := N, Call := C, Loop := LoopSlots, Ctor := T, New := W,
    Fun := FunSlots }

/-- The variable that each slot of a frame holds. -/
abbrev Slots := Nat → Option BindingId

/-- What a function gives its code: the variables it captures, and how many slots its frame has. -/
structure Region where
  free : List BindingId
  size : Nat

def Region.top : Region := ⟨[], 0⟩

variable {N C T W : Type}

def FunDecl.paramDecls (d : FunDecl (.slotted N C T W)) : List BindingId :=
  d.info.self.toList ++ d.params.map (·.decl)

def FunDecl.region (d : FunDecl (.slotted N C T W)) : Region :=
  ⟨d.info.free.map (·.binding), d.info.localCount⟩

def FunDecl.entry (d : FunDecl (.slotted N C T W)) : Slots :=
  fun j => d.paramDecls[j]?

variable (p : Program)

def Slots.add (σ : Slots) (b : BindingId) : Slots := fun j =>
  if (p.binding b).storage = .frame ∧ j = (p.binding b).index then some b else σ j

/-- Whether a binding can be declared: a variable of a frame takes a slot that holds none. -/
def Slots.Fresh (R : Region) (σ : Slots) (b : BindingId) : Prop :=
  (p.binding b).storage = .frame →
    (p.binding b).index < R.size ∧ σ (p.binding b).index = none ∧ b ∉ R.free

def Slots.Reads (R : Region) (σ : Slots) (s : Slot) : Prop :=
  match s.place with
  | .global => (p.binding s.binding).storage = .global ∧ (p.binding s.binding).index = s.index
  | .frame => σ s.index = some s.binding
  | .free => (p.binding s.binding).storage = .frame ∧ R.free[s.index]? = some s.binding

def Slots.Captures (R : Region) (σ : Slots) (v : FreeVar) : Prop :=
  (p.binding v.binding).storage = .frame ∧ (p.binding v.binding).captured = true ∧
    if v.fromFrame then σ v.index = some v.binding else R.free[v.index]? = some v.binding

/-- Whether the name of a function can be declared and its closure be made. A function without a slot
in a frame captures nothing. -/
def Slots.Names (R : Region) (σ : Slots) (info : FunSlots) : Prop :=
  match info.binding with
  | none => info.free = []
  | some b => σ.Fresh p R b ∧ ((p.binding b).storage = .global → info.free = []) ∧
      ∀ v ∈ info.free, (σ.add p b).Captures p R v

/-- Whether the parameters of a function stand in the first slots, and the table of functions agrees
on their number. -/
structure FunDecl.Framed (d : FunDecl (.slotted N C T W)) : Prop where
  params : ∀ j b, d.paramDecls[j]? = some b →
    (p.binding b).storage = .frame ∧ (p.binding b).index = j ∧ b ∉ d.region.free
  room : d.paramDecls.length ≤ d.info.localCount
  distinct : d.region.free.Nodup
  listed : ∃ f, p.funs[d.info.id]? = some f ∧ f.arity = d.paramDecls.length

namespace Slots

mutual

def afterPattern (σ : Slots) : Pattern (.slotted N C T W) → Slots
  | .bind _ b => σ.add p b
  | .ctor _ _ _ qs => afterPatterns σ qs
  | .wildcard _ | .literal .. => σ

def afterPatterns (σ : Slots) : List (Pattern (.slotted N C T W)) → Slots
  | [] => σ
  | q :: qs => afterPatterns (afterPattern σ q) qs

end

def afterStmt (σ : Slots) : Stmt (.slotted N C T W) → Slots
  | .bind _ _ b _ _ => σ.add p b
  | .func d =>
    match d.info.binding with
    | some b => σ.add p b
    | none => σ
  | _ => σ

def inLoop (σ : Slots) (l : LoopSlots) : Slots :=
  ((σ.add p l.index).add p l.limit).add p l.item

end Slots

namespace Scoped

mutual

def expr (R : Region) (σ : Slots) : Expr (.slotted N C T W) → Prop
  | .name _ _ _ s => σ.Reads p R s
  | .int .. | .float .. | .string .. | .char .. | .bool .. => True
  | .interpolated _ _ es | .array _ _ es => exprs R σ es
  | .unary _ _ _ e | .tryUnwrap _ _ e | .member _ _ e _ => expr R σ e
  | .binary _ _ _ l r | .assign _ _ l r | .index _ _ l r | .range _ _ l r => expr R σ l ∧ expr R σ r
  | .call _ _ _ f es => expr R σ f ∧ exprs R σ es
  | .new _ _ _ _ fs => inits R σ fs
  | .block b => block R σ b
  | .cond _ _ test body alt => expr R σ test ∧ block R σ body ∧ option R σ alt
  | .cases _ _ subject b as => expr R σ subject ∧ σ.Fresh p R b ∧ arms R (σ.add p b) as

def exprs (R : Region) (σ : Slots) : List (Expr (.slotted N C T W)) → Prop
  | [] => True
  | e :: es => expr R σ e ∧ exprs R σ es

def option (R : Region) (σ : Slots) : Option (Expr (.slotted N C T W)) → Prop
  | none => True
  | some e => expr R σ e

def inits (R : Region) (σ : Slots) : List (FieldInit (.slotted N C T W)) → Prop
  | [] => True
  | .mk _ _ e :: fs => expr R σ e ∧ inits R σ fs

def arms (R : Region) (σ : Slots) : List (Arm (.slotted N C T W)) → Prop
  | [] => True
  | .mk _ q e :: as => pattern R σ q ∧ expr R (σ.afterPattern p q) e ∧ arms R σ as

def pattern (R : Region) (σ : Slots) : Pattern (.slotted N C T W) → Prop
  | .wildcard _ => True
  | .literal _ e => expr R σ e
  | .bind _ b => σ.Fresh p R b
  | .ctor _ _ _ qs => patterns R σ qs

def patterns (R : Region) (σ : Slots) : List (Pattern (.slotted N C T W)) → Prop
  | [] => True
  | q :: qs => pattern R σ q ∧ patterns R (σ.afterPattern p q) qs

def block (R : Region) (σ : Slots) : Block (.slotted N C T W) → Prop
  | .mk _ _ ss _ => stmts R σ ss

def stmts (R : Region) (σ : Slots) : List (Stmt (.slotted N C T W)) → Prop
  | [] => True
  | s :: ss => stmt R σ s ∧ stmts R (σ.afterStmt p s) ss

def stmt (R : Region) (σ : Slots) : Stmt (.slotted N C T W) → Prop
  | .expr _ e => expr R σ e
  | .block b => block R σ b
  | .bind _ _ b _ e => expr R σ e ∧ σ.Fresh p R b
  | .ret _ e => option R σ e
  | .loop _ test b => expr R σ test ∧ block R σ b
  | .each _ _ l series b => expr R σ series ∧ expr R (σ.add p l.index) series ∧
      (σ.Fresh p R l.index ∧ (σ.add p l.index).Fresh p R l.limit ∧
        ((σ.add p l.index).add p l.limit).Fresh p R l.item) ∧ block R (σ.inLoop p l) b
  | .func d => σ.Names p R d.info ∧ func d
  | .impl _ _ ds => funcs ds
  | .leave _ | .next _ | .record .. | .union .. | .use .. => True

/-- The code of a function depends on nothing around it but the cells it captures. -/
def func : FunDecl (.slotted N C T W) → Prop
  | .mk t nm info self params r (.mk n bt ss close) =>
    FunDecl.Framed p (.mk t nm info self params r (.mk n bt ss close)) ∧
      stmts (FunDecl.region (.mk t nm info self params r (.mk n bt ss close)))
        (FunDecl.entry (.mk t nm info self params r (.mk n bt ss close))) ss

/-- The functions of an `impl` block capture nothing. -/
def funcs : List (FunDecl (.slotted N C T W)) → Prop
  | [] => True
  | d :: ds => (d.info.free = [] ∧ func d) ∧ funcs ds

end

theorem func.framed {p : Program} {d : FunDecl (.slotted N C T W)} (h : func p d) : d.Framed p := by
  obtain ⟨t, nm, info, self, params, r, ⟨n, bt, ss, close⟩⟩ := d
  exact h.1

end Scoped

end Scripting
