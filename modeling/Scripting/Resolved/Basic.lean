import Scripting.Syntax.Basic
import Scripting.Program.Basic

/-!
# Resolved trees

In a resolved tree every name that is read has a slot, every name that is declared a binding, and
every function the list of variables it captures.
-/

namespace Scripting

/-- Which storage a slot counts in. -/
inductive Place where
  | global
  /-- The frame of the running function. -/
  | frame
  /-- The captured variables of the running function. -/
  | free
deriving DecidableEq, Repr, Inhabited

/-- Where a use of a name finds its value. -/
structure Slot where
  binding : BindingId
  place : Place
  index : Nat
deriving DecidableEq, Repr, Inhabited

/-- A variable that a function captures, and where the function around it finds the cell: in its own
frame, or among the variables it captures itself. -/
structure FreeVar where
  binding : BindingId
  fromFrame : Bool
  index : Nat
deriving DecidableEq, Repr, Inhabited

/-- The bindings of a loop. The limit is the end of a range or the array that is walked; the item is
the loop's variable. -/
structure LoopSlots where
  limit : BindingId
  index : BindingId
  item : BindingId
deriving Inhabited

/-- What name resolution knows of a function declaration. -/
structure FunSlots where
  id : FunId
  /-- The binding of the function's name; the functions of an `impl` block have none. -/
  binding : Option BindingId
  self : Option BindingId
  localCount : Nat
  free : List FreeVar
  /-- 1 for a function at top level. -/
  depth : Nat
deriving Inhabited

abbrev Phase.resolved : Phase :=
  { Ref := Slot, Decl := BindingId, Note := Unit, Call := Unit, Loop := LoopSlots, Ctor := Unit,
    New := Unit, Fun := FunSlots }

namespace Expr

variable {P : Phase}

def nameView? : Expr P → Option (Token × String)
  | name _ tok text _ => some (tok, text)
  | _ => none

def isMember : Expr P → Bool
  | member .. => true
  | _ => false

/-- The segments of a chain of members that starts at a name, with the token of that name. -/
def dotted? : Expr P → Option (Token × List String)
  | name _ tok text _ => some (tok, [text])
  | member _ _ left field => left.dotted?.map fun (tok, path) => (tok, path ++ [field.text])
  | _ => none

end Expr

end Scripting
