import Scripting.Typed.Infer
import Scripting.Syntax.Walk

/-!
# Types of functions and batches

Signatures are settled first, for all functions of a batch, then bodies are checked in order. A
function without a declared result returns what all its paths agree on; it is checked where it is
first needed or where it is declared, whichever comes first.
-/

namespace Scripting.Typing

def checkSites (f : UserFunction) (sites : List (Token × Ty)) : Typing Unit :=
  sites.forM fun (tok, t) => do
    if !(← assignable f.result t) then
      report .mismatch tok ("function " ++ f.fullName ++ " returns " ++ t.text ++ ", declared "
        ++ f.result.text)

def joinSites (f : UserFunction) : Option Ty → List (Token × Ty) → Typing (Option Ty)
  | result, [] => return result
  | none, (_, t) :: sites => joinSites f (some t) sites
  | some r, (tok, t) :: sites =>
    match r.join t with
    | some j => joinSites f (some j) sites
    | none => do
      report .disagreement tok ("function " ++ f.fullName ++ " returns both " ++ r.text ++ " and "
        ++ t.text)
      return some .any

/-- The places where a function returns: those met in its body, and its end if control gets there. -/
def allSites (met : List (Token × Ty)) (body : Block .typed) : List (Token × Ty) :=
  if body.terminates then met
  else met ++ [match body.trailing with
    | some e => (e.token, e.type)
    | none => (body.token, .unit)]

def settleSites (info : FunSlots) (sites : List (Token × Ty)) : Typing Unit := do
  let f ← function info.id
  if f.declared then
    if !f.result.isUnit then checkSites f sites
  else
    let t := (← joinSites f none sites).getD .unit
    onProgram fun p => p.modifyFun info.id fun f => { f with result := t }
    publish info

def analyzeBody (analyze : FunId → Typing Unit) (d : FunDecl .resolved) : Typing Unit := do
  let id := d.info.id
  let s ← get
  if s.done.contains id || s.underWay.contains id then return
  let outer := s.current
  modify fun s => { s with underWay := id :: s.underWay, current := some { func := id } }
  let body ← inferBlock analyze d.body
  let met := match (← get).current with
    | some c => c.sites.toList
    | none => []
  settleSites d.info (allSites met body)
  let typed : FunDecl .typed :=
    .mk d.token d.name d.info d.hasSelf (typedParams d.params) d.result body
  modify fun s => { s with
    current := outer
    underWay := s.underWay.erase id
    done := s.done.insert id typed }

/-- Checks a function of the batch. A function inside another one may not have its signature yet.
`n` bounds how many functions can be under way at once. -/
def analyzeUpTo : Nat → FunId → Typing Unit
  | 0, _ => return
  | n + 1, id => do
    match (← get).decls[id]? with
    | none => return
    | some d =>
      if 1 < d.info.depth then header d
      analyzeBody (analyzeUpTo n) d

def headers : List (Stmt .resolved) → Typing Unit
  | [] => return
  | s :: ss => do
    match s with
    | .func d => header d
    | .impl _ _ ds => ds.forM header
    | _ => pure ()
    headers ss

def topStmt (analyze : FunId → Typing Unit) (s : Stmt .resolved) : Typing (Stmt .typed) := do
  match s with
  | .func d =>
    analyze d.info.id
    return .func (← finished d)
  | .impl t name ds =>
    ds.forM fun d => analyze d.info.id
    return .impl t name (← ds.mapM finished)
  | s => inferStmt analyze s

def batch (count : Nat) (stmts : List (Stmt .resolved)) : Typing (List (Stmt .typed)) := do
  headers stmts
  if (← get).errors.isEmpty then stmts.mapM (topStmt (analyzeUpTo (count + 1)))
  else return []

def declsOf (src : Source .resolved) : List (FunDecl .resolved) :=
  src.nodes.filterMap fun
    | .func d => some d
    | _ => none

end Typing

def Source.check (p : Program) (src : Source .resolved) :
    Except (List Diagnostic) (Source .typed) × Program :=
  let decls := Typing.declsOf src
  let table := decls.foldl (fun m d => m.insert d.info.id d) {}
  let (stmts, s) := (Typing.batch decls.length src.stmts).run { program := p, decls := table }
  (if s.errors.isEmpty then .ok { file := src.file, stmts := stmts }
    else .error (Typing.sortedErrors s.errors), s.program)

def Node.type? : Node .typed → Option (Option Ty)
  | .expr e => some e.note
  | .block b => some b.note
  | .stmt (.block b) => some b.note
  | .name _ => some none
  | _ => none

def Source.typeTable (src : Source .typed) : List (Node .typed × Option Ty) :=
  src.nodes.filterMap fun n => n.type?.map fun t => (n, t)

end Scripting
