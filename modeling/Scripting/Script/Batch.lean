import Scripting.Script.Tree

/-!
# Code of batches

The script of a batch first stores the globals whose values are known, then runs the statements. Its
value is that of a trailing expression, or unit.
-/

namespace Scripting

namespace Emit

def initials (line : Int) : List BindingId → Emit Assembly
  | [] => return []
  | b :: bs => do
    let x ← binding b
    let s ← get
    match s.program.initialValue? s.heap x with
    | none => unsupported x.token (Program.noInitialValue x)
    | some (v, heap) =>
      set { s with heap }
      let value ← constant v line
      let code := value ++ (← word .setGlobal x.index line)
      return code ++ (← initials line bs)

def checkOverflow : Emit Unit := do
  match (← get).overflow with
  | some d => throw d
  | none => return

/-- The code of the top-level statements. `line` is that of the last statement before. -/
def topStmts (line : Int) : List (Stmt .typed) → Emit Assembly
  | [] => return Assembly.op .unit line ++ Assembly.op .ret line
  | [.expr tok e] => do
    let code ← expr false e
    return code ++ Assembly.op .ret tok.line
  | s :: ss => do
    let first ← stmt false s
    checkOverflow
    return first ++ (← topStmts s.token.line ss)

def scriptName : String := "<script>"

def batch (src : Source .typed) : Emit Ref := do
  let pending := (← get).program.pending.toList
  let start ← initials src.token.line pending
  let code ← topStmts 0 src.stmts
  checkOverflow
  modifyGet fun s =>
    let chunk := (start ++ code).chunk s.pool.values src.file
    let (r, heap) := s.heap.newFunc { name := scriptName, chunk := some chunk }
    (r, { s with heap })

end Emit

/-- Compiles a typed batch. The script and the functions of the batch are put into the heap. -/
def Source.compile (p : Program) (h : Heap) (src : Source .typed) :
    Except Diagnostic (Ref × Program × Heap) := do
  let (p, h) := p.makeObjects.run h
  let (r, s) ← (Emit.batch src).run
    { program := p, heap := h, stmt := src.token, file := src.file }
  return (r, s.program, s.heap)

end Scripting
