/-!
# Faults of the host

What a program can do wrong has a message that says so. A fault is met where the host itself takes
something for granted that does not hold; its text names what was missing.
-/

namespace Scripting

/-- Why the host cannot go on. -/
inductive HostFault where
  /-- Something was asked of a value or of a type that is not there. -/
  | missing
  /-- An item was asked for that lies behind the last one. -/
  | outOfRange (index size : Nat)
  /-- A value is not of the kind that is taken for granted. -/
  | wrongKind (found wanted : String)
  /-- Stands for what follows the parts of a value that holds itself, and never comes to an end. -/
  | endless
deriving DecidableEq, Repr

namespace HostFault

def text : HostFault → String
  | missing => "runtime error: invalid memory address or nil pointer dereference"
  | outOfRange i n =>
    "runtime error: index out of range [" ++ toString i ++ "] with length " ++ toString n
  | wrongKind found wanted =>
    "interface conversion: object.Object is " ++ found ++ ", not " ++ wanted
  | endless => "stack overflow"

/-- What stands in a text for a part that met a fault; `mark` is the letter of its format. -/
def inPlace (mark : Char) (f : HostFault) : String :=
  "%!" ++ mark.toString ++ "(PANIC=String method: " ++ f.text ++ ")"

def answered {α : Type} : Option α → Except HostFault α
  | some a => .ok a
  | none => .error endless

end HostFault

end Scripting
