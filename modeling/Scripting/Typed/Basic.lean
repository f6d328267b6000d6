import Scripting.Resolved.Basic
import Scripting.Syntax.Printer

/-!
# Typed trees

In a typed tree every expression has its type, every call its target, every constructor pattern the
tag that it tests, and every instantiation the record that it builds.
-/

namespace Scripting

/-- How a call finds what it calls. -/
structure CallInfo where
  /-- What the call was settled to. -/
  target : Option Callable := none
  /-- Whether the target is known at compile time; else the callee is evaluated. -/
  isStatic : Bool := false
  /-- Whether the object before the member is the first argument. -/
  viaReceiver : Bool := false
  /-- The name of the target. -/
  name : String := ""
deriving Inhabited

/-- What a constructor pattern tests: the tag of the value, and fields for its sub-patterns. -/
structure CtorTest where
  tag : String
  fields : List String
deriving Inhabited

/-- The record that an instantiation builds. -/
structure Template where
  typeName : String
  fields : List String
deriving Inhabited

/-- The phase after type checking. A member that names a method has no type of its own. -/
abbrev Phase.typed : Phase :=
  { Ref := Slot, Decl := BindingId, Note := Option Ty, Call := CallInfo, Loop := LoopSlots,
    Ctor := CtorTest, New := Template, Fun := FunSlots }

def Expr.type (e : Expr .typed) : Ty := e.note.getD .any

def Block.type (b : Block .typed) : Ty := b.note.getD .any

mutual

def stmtsTerminate {P : Phase} : List (Stmt P) → Bool
  | [] => false
  | [s] => s.terminates
  | _ :: ss => stmtsTerminate ss

def Block.terminates {P : Phase} : Block P → Bool
  | .mk _ _ ss _ => stmtsTerminate ss

def Stmt.terminates {P : Phase} : Stmt P → Bool
  | .ret .. => true
  | .block b => b.terminates
  | .expr _ e => e.terminates
  | _ => false

def Expr.terminates {P : Phase} : Expr P → Bool
  | .block b => b.terminates
  | .cond _ _ _ body alt => body.terminates && optionTerminates alt
  | _ => false

def optionTerminates {P : Phase} : Option (Expr P) → Bool
  | none => false
  | some e => e.terminates

end

def slotText (place : Place) (index : Nat) (captured : Bool) : String :=
  (match place with
    | .global => "@g"
    | .frame => "@l"
    | .free => "@f") ++ toString index ++ (if captured then "*" else "")

def Program.declaredText (p : Program) (name : String) (b : BindingId) : String :=
  let x := p.binding b
  name ++ slotText (match x.storage with
    | .global => .global
    | .frame => .frame) x.index x.captured

def Style.slots (p : Program) : Style Phase.typed where
  read name s := name ++ slotText s.place s.index (p.binding s.binding).captured
  declared name b := p.declaredText name b
  loopVariable name l := p.declaredText name l.item
  function name f := match f.binding with
    | some b => p.declaredText name b
    | none => name
  receiver f := match f.self with
    | some b => p.declaredText "self" b
    | none => "self"
  subject b := p.declaredText (p.binding b).name b ++ " = "
  method c := if c.viaReceiver then some c.name else none

end Scripting
