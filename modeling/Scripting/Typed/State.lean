import Std.Data.TreeMap
import Scripting.Typed.Basic
import Scripting.Program.Modules
import Scripting.Program.Types
import Scripting.Ty.Bind

/-!
# The state of type checking

Failures are collected, one for each place and code. The result type of a function that does not
declare one is inferred when it is first needed, so the state remembers which functions are under way
and which are done.
-/

namespace Scripting

/-- What the body of a function returns, and where. -/
structure Typing.Context where
  func : FunId
  sites : Array (Token × Ty) := #[]

/-- The state of type checking. -/
structure Typing.State where
  program : Program
  errors : Array Diagnostic := #[]
  /-- The function whose body is being checked. -/
  current : Option Typing.Context := none
  /-- The functions whose bodies are under way. -/
  underWay : List FunId := []
  /-- The functions of the batch. -/
  decls : Std.TreeMap FunId (FunDecl .resolved)
  /-- The functions that are done. -/
  done : Std.TreeMap FunId (FunDecl .typed) := {}

abbrev Typing := StateM Typing.State

namespace Typing

/-- Keeps a failure, unless there is one with the same code at the same place. -/
def addError (d : Diagnostic) : Typing Unit :=
  modify fun s =>
    if s.errors.any fun e =>
      e.token.line == d.token.line && e.token.col == d.token.col && e.code == d.code
    then s else { s with errors := s.errors.push d }

def report (code : Diagnostic.Code) (tok : Token) (msg : String) : Typing Unit :=
  addError (.report code tok msg)

def sortedErrors (errors : Array Diagnostic) : List Diagnostic :=
  errors.toList.mergeSort fun a b =>
    a.token.line < b.token.line || (a.token.line == b.token.line && a.token.col ≤ b.token.col)

def program : Typing Program := do return (← get).program

def onProgram (f : Program → Program) : Typing Unit :=
  modify fun s => { s with program := f s.program }

def function (id : FunId) : Typing UserFunction := do
  return (← program).funs.getD id { name := "", paramNames := [], params := [] }

def setType (b : BindingId) (t : Ty) : Typing Unit :=
  onProgram fun p => p.modifyBinding b fun x => { x with type := t }

def addSite (tok : Token) (t : Ty) : Typing Unit :=
  modify fun s => { s with current := s.current.map fun c => { c with sites := c.sites.push (tok, t) } }

def assignable (target value : Ty) : Typing Bool := do return (← program).assignable target value

def complete (s : Signature) : Signature :=
  ⟨s.params.map Ty.orAny, s.result.orAny, s.variadic⟩

def sigType (s : Signature) : Ty := .func s.params s.result s.variadic

def publish (info : FunSlots) : Typing Unit := do
  let f ← function info.id
  if !f.result.isUnknown then
    let t := sigType f.sig
    onProgram fun p => p.modifyFun info.id fun f => { f with signature := t }
    if let some b := info.binding then setType b t

def paramType (type : Option TypeExpr) : Typing Ty := do
  match type with
  | none => return .any
  | some e =>
    match (← program).resolveType e with
    | .ok t => return t
    | .error d =>
      addError d
      return .any

def headerParams : List (Param .resolved) → Typing (List Ty)
  | [] => return []
  | p :: ps => do
    let t ← paramType p.type
    setType p.decl t
    return t :: (← headerParams ps)

def header (d : FunDecl .resolved) : Typing Unit := do
  let id := d.info.id
  let params ← headerParams d.params
  onProgram fun p => p.modifyFun id fun f => { f with params := params }
  match d.info.self, (← function id).owner with
  | some b, some t => setType b t
  | _, _ => pure ()
  if let some e := d.result then
    let t ← paramType (some e)
    onProgram fun p => p.modifyFun id fun f => { f with result := t, declared := true }
  publish d.info

/-- Makes sure that the result of a function is known, checking its body first if need be. A function
that needs its own result must declare it. -/
def settleResult (analyze : FunId → Typing Unit) (id : FunId) (tok : Token) : Typing Unit := do
  let f ← function id
  if f.result.isUnknown then
    if (← get).underWay.contains id then
      report .disagreement tok ("recursive function " ++ f.fullName ++ " needs an explicit return type")
    else analyze id

end Typing

end Scripting
