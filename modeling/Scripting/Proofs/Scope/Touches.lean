import Scripting.Proofs.Scope.Threaded

/-!
# Variables that code touches

`Stores` lists what the code of a function stores into, without the code of the functions inside it.
`Touches` is that together with what the code does with names.
-/

namespace Scripting

/-- What code stores into. -/
inductive Store where
  /-- The place of a variable that is declared. -/
  | declares (b : BindingId)
  /-- The place of a function that is declared. -/
  | names (b : BindingId)
  /-- The places in which a loop keeps where it is. -/
  | counts (l : LoopSlots)
  | assigns (s : Slot)

variable {N C T W : Type}

def Expr.stored : Expr (.slotted N C T W) → List Store
  | .name _ _ _ s => [.assigns s]
  | _ => []

namespace Stores

mutual

def expr : Expr (.slotted N C T W) → List Store
  | .name .. | .int .. | .float .. | .string .. | .char .. | .bool .. => []
  | .interpolated _ _ es | .array _ _ es => exprs es
  | .unary _ _ _ e | .tryUnwrap _ _ e | .member _ _ e _ => expr e
  | .binary _ _ _ l r | .index _ _ l r | .range _ _ l r => expr l ++ expr r
  | .assign _ _ l r => l.stored ++ (expr l ++ expr r)
  | .call _ _ _ f es => expr f ++ exprs es
  | .new _ _ _ _ fs => inits fs
  | .block b => block b
  | .cond _ _ test body alt => expr test ++ (block body ++ option alt)
  | .cases _ _ subject b as => expr subject ++ .declares b :: arms as

def exprs : List (Expr (.slotted N C T W)) → List Store
  | [] => []
  | e :: es => expr e ++ exprs es

def option : Option (Expr (.slotted N C T W)) → List Store
  | none => []
  | some e => expr e

def inits : List (FieldInit (.slotted N C T W)) → List Store
  | [] => []
  | .mk _ _ e :: fs => expr e ++ inits fs

def arms : List (Arm (.slotted N C T W)) → List Store
  | [] => []
  | .mk _ q e :: as => pattern q ++ (expr e ++ arms as)

def pattern : Pattern (.slotted N C T W) → List Store
  | .wildcard _ => []
  | .bind _ b => [.declares b]
  | .literal _ e => expr e
  | .ctor _ _ _ qs => patterns qs

def patterns : List (Pattern (.slotted N C T W)) → List Store
  | [] => []
  | q :: qs => pattern q ++ patterns qs

def block : Block (.slotted N C T W) → List Store
  | .mk _ _ ss _ => stmts ss

def stmts : List (Stmt (.slotted N C T W)) → List Store
  | [] => []
  | s :: ss => stmt s ++ stmts ss

def stmt : Stmt (.slotted N C T W) → List Store
  | .expr _ e => expr e
  | .bind _ _ b _ e => expr e ++ [.declares b]
  | .block b => block b
  | .ret _ e => option e
  | .loop _ e b => expr e ++ block b
  | .each _ _ l e b =>
    expr e ++ .counts l :: .declares l.index :: .declares l.limit :: .declares l.item :: block b
  | .func d => d.info.binding.toList.map .names
  | .impl .. | .leave _ | .next _ | .record .. | .union .. | .use .. => []

end

end Stores

/-- What code does with variables. -/
structure Touches where
  items : List Item
  stores : List Store

namespace Touches

abbrev expr (e : Expr (.slotted N C T W)) : Touches := ⟨Items.expr e, Stores.expr e⟩

abbrev exprs (es : List (Expr (.slotted N C T W))) : Touches := ⟨Items.exprs es, Stores.exprs es⟩

abbrev option (e : Option (Expr (.slotted N C T W))) : Touches := ⟨Items.option e, Stores.option e⟩

abbrev inits (fs : List (FieldInit (.slotted N C T W))) : Touches := ⟨Items.inits fs, Stores.inits fs⟩

abbrev arms (as : List (Arm (.slotted N C T W))) : Touches := ⟨Items.arms as, Stores.arms as⟩

abbrev pattern (q : Pattern (.slotted N C T W)) : Touches := ⟨Items.pattern q, Stores.pattern q⟩

abbrev patterns (qs : List (Pattern (.slotted N C T W))) : Touches :=
  ⟨Items.patterns qs, Stores.patterns qs⟩

abbrev block (b : Block (.slotted N C T W)) : Touches := ⟨Items.block b, Stores.block b⟩

abbrev stmts (ss : List (Stmt (.slotted N C T W))) : Touches := ⟨Items.stmts ss, Stores.stmts ss⟩

abbrev stmt (s : Stmt (.slotted N C T W)) : Touches := ⟨Items.stmt s, Stores.stmt s⟩

/-- What a function does with variables, its parameters included. -/
def func (d : FunDecl (.slotted N C T W)) : Touches :=
  ⟨Items.block d.body, d.paramDecls.map .declares ++ Stores.block d.body⟩

/-- Whether code touches nothing but what other code does. -/
structure Within (t u : Touches) : Prop where
  items : t.items ⊆ u.items
  stores : t.stores ⊆ u.stores

namespace Within

variable {u : Touches} {is js : List Item} {ss ts : List Store}

theorem left (h : Within ⟨is ++ js, ss ++ ts⟩ u) : Within ⟨is, ss⟩ u :=
  ⟨(List.append_subset.mp h.items).1, (List.append_subset.mp h.stores).1⟩

theorem right (h : Within ⟨is ++ js, ss ++ ts⟩ u) : Within ⟨js, ts⟩ u :=
  ⟨(List.append_subset.mp h.items).2, (List.append_subset.mp h.stores).2⟩

theorem tail {i : Item} {s : Store} (h : Within ⟨i :: is, s :: ss⟩ u) : Within ⟨is, ss⟩ u :=
  ⟨(List.cons_subset.mp h.items).2, (List.cons_subset.mp h.stores).2⟩

theorem skip {s : Store} (h : Within ⟨is, s :: ss⟩ u) : Within ⟨is, ss⟩ u :=
  ⟨h.items, (List.cons_subset.mp h.stores).2⟩

end Within

end Touches

end Scripting
