import Scripting.Ty.Relations

/-!
# Matching arguments against a signature

`Ty.bind` finds the types of a signature's type parameters from the arguments of a call: the first
position where a parameter appears settles it, and a later position must agree. The score of a match
says how closely the parameters fit, which decides between overloads.
-/

namespace Scripting

/-- What a successful match settles. -/
structure Binding.Match where
  subst : Subst
  params : List Ty
  result : Ty
  score : Nat

/-- Why arguments do not match. -/
inductive Ty.BindError where
  /-- The number of arguments. -/
  | count (expected got : Nat)
  /-- A type parameter would get two types. -/
  | conflict (position : Nat) (name : String) (first second : Ty)
  /-- An argument that cannot be stored in its parameter. -/
  | mismatch (position : Nat) (arg param : Ty)
  /-- The signature, or a base of an argument, has absent parts. -/
  | incomplete

def Ty.BindError.message : Ty.BindError → String
  | count e g => "expected " ++ toString e ++ " arguments, got " ++ toString g
  | conflict i x a b =>
    "argument " ++ toString i ++ ": type parameter " ++ x ++ " bound to both " ++ a.shown ++ " and "
      ++ b.shown
  | mismatch i a p =>
    "argument " ++ toString i ++ ": cannot use " ++ a.shown ++ " as " ++ p.shown
  | incomplete => "incomplete signature"

namespace Ty

/-- One parameter for each of `n` arguments; the last parameter of a variadic signature repeats. -/
def expandParams (sig : Signature) (n : Nat) : Except BindError (List Ty) :=
  if !sig.variadic then
    if sig.params.length == n then .ok sig.params else .error (.count sig.params.length n)
  else match sig.params.getLast? with
    | none => .error .incomplete
    | some last =>
      let fixed := sig.params.dropLast
      if n < fixed.length then .error (.count sig.params.length n)
      else .ok (fixed ++ List.replicate (n - fixed.length) last)

def argsOf? (c : TyCon) : Ty → Option (List Ty)
  | app d args => if d.name == c.name then some args else none
  | _ => none

/-- The arguments of the application of the constructor `c` that a type is or has among its bases. -/
def appOf? (bases : Ty → List Ty) (c : TyCon) (t : Ty) : Except BindError (Option (List Ty)) :=
  match t.argsOf? c with
  | some args => .ok (some args)
  | none =>
    match allBases? bases t with
    | some found => .ok (found.findSome? fun b => b.argsOf? c)
    | none => .error .incomplete

mutual

/-- Settles the type parameters `generic` that appear in a parameter from the type of its argument.
What is settled already must agree. -/
def infer (bases : Ty → List Ty) (generic : List String) (position : Nat) :
    Ty → Ty → Subst → Except BindError Subst
  | var x, arg, s =>
    if !generic.contains x then .ok s
    else match s.lookup x with
      | none => .ok (s ++ [(x, arg)])
      | some prev =>
        if !prev.same arg && !arg.isAny && !prev.isAny then
          .error (.conflict position x prev arg)
        else .ok s
  | app c ps, arg, s =>
    match appOf? bases c arg with
    | .ok (some as) =>
      if as.length == ps.length then inferList bases generic position ps as s else .ok s
    | .ok none => .ok s
    | .error e => .error e
  | func ps r _, arg, s =>
    match arg with
    | func as r' _ =>
      if as.length == ps.length then do
        infer bases generic position r r' (← inferList bases generic position ps as s)
      else .ok s
    | _ => .ok s
  | _, _, s => .ok s

def inferList (bases : Ty → List Ty) (generic : List String) (position : Nat) :
    List Ty → List Ty → Subst → Except BindError Subst
  | p :: ps, a :: as, s => do
    inferList bases generic position ps as (← infer bases generic position p a s)
  | _, _, s => .ok s

end

def inferAll (bases : Ty → List Ty) (generic : List String) :
    Nat → List Ty → List Ty → Subst → Except BindError Subst
  | i, p :: ps, a :: as, s => do
    inferAll bases generic (i + 1) ps as (← infer bases generic i p a s)
  | _, _, _, s => .ok s

/-- How closely a parameter fits its argument: an equal type without variables beats an equal type
with variables or a base, a bare type parameter is worth less, and `Any` nothing. -/
def fit (generic : List String) (declared bound arg : Ty) : Except BindError Nat :=
  match declared with
  | var x =>
    if generic.contains x then .ok 1 else .ok (if bound.same arg then 2 else 1)
  | t =>
    if t.isAny then .ok 0
    else if !t.isWhole then .error .incomplete
    else if !t.freeVars.isEmpty then .ok (if bound.same arg then 2 else 1)
    else .ok (if bound.same arg then 3 else 2)

def checkArgs (bases : Ty → List Ty) (generic : List String) (s : Subst) :
    Nat → List Ty → List Ty → Except BindError (List Ty × Nat)
  | i, p :: ps, a :: as =>
    if p.isUnknown then .error .incomplete
    else do
      let bound := s.apply p
      match assignable? bases bound a with
      | none => .error .incomplete
      | some false => .error (.mismatch i a bound)
      | some true =>
        let score ← fit generic p bound a
        let (rest, total) ← checkArgs bases generic s (i + 1) ps as
        return (bound :: rest, score + total)
  | _, _, _ => .ok ([], 0)

/-- Matches argument types against a signature that is generic in `typeParams`. -/
def bind (bases : Ty → List Ty) (sig : Signature) (typeParams : List String) (args : List Ty) :
    Except BindError Binding.Match := do
  let params ← expandParams sig args.length
  let s ← inferAll bases typeParams 1 params args []
  let (bound, score) ← checkArgs bases typeParams s 1 params args
  return ⟨s, bound, s.apply sig.result, score⟩

end Ty

end Scripting
