import Scripting.Resolved.Basic
import Scripting.Program.Types

/-!
# Slots for names

Every binding takes a slot of its own: a global one at top level, also inside blocks, else the next
one of the frame of the function around it. Slots are never used again. A function that uses a
variable of a function around it captures the variable, and so do all functions in between.
-/

namespace Scripting

/-- A function that is being resolved. -/
structure Resolve.Frame where
  depth : Nat
  nextSlot : Nat := 0
  free : Array FreeVar := #[]

/-- The state of name resolution. -/
structure Resolve.State where
  program : Program
  /-- The open scopes inside the top level, the innermost first. -/
  scopes : List Scope := []
  /-- The functions around, the innermost first. -/
  frames : List Resolve.Frame := []
  errors : Array Diagnostic := #[]

abbrev Resolve := StateM Resolve.State

namespace Resolve

def report (code : Diagnostic.Code) (tok : Token) (msg : String) : Resolve Unit :=
  modify fun s => { s with errors := s.errors.push (.report code tok msg) }

def onProgram {α : Type} (f : Program → α × Program) : Resolve α :=
  modifyGet fun s => let (a, p) := f s.program; (a, { s with program := p })

def withScope {α : Type} (kind : Scope.Kind) (act : Resolve α) : Resolve α := do
  let outer := (← get).scopes
  modify fun s => { s with
    scopes := ((s.scopes.headD s.program.scope).inside kind) :: s.scopes }
  let a ← act
  modify fun s => { s with scopes := outer }
  return a

def lookup (name : String) : Resolve (Option BindingId) := do
  let s ← get
  match Scope.lookup name s.scopes with
  | some b => return some b
  | none => return s.program.scope.get? name

def newLocal (name : String) (tok : Token) : Resolve BindingId :=
  modifyGet fun s =>
    match s.frames with
    | [] => let (b, p) := s.program.newSlot name tok; (b, { s with program := p })
    | f :: outer =>
      let (b, p) := s.program.addBinding
        { name := name, index := f.nextSlot, storage := .frame, depth := f.depth, token := tok }
      (b, { s with program := p, frames := { f with nextSlot := f.nextSlot + 1 } :: outer })

def defineInner (name : String) (b : BindingId) : Resolve Unit :=
  modify fun s =>
    match s.scopes with
    | [] => s
    | sc :: outer => { s with scopes := sc.define name b :: outer }

/-- Introduces a binding in the innermost scope. It always takes a new slot, even if the name is
bound there already. -/
def declare (name : String) (tok : Token) : Resolve BindingId := do
  if (← get).scopes.isEmpty then onProgram fun p => p.declareGlobal name tok
  else
    let b ← newLocal name tok
    defineInner name b
    return b

def declareHidden (name : String) (tok : Token) : Resolve BindingId := do
  let b ← newLocal name tok
  onProgram fun p => ((), p.modifyBinding b fun x => { x with hidden := true })
  return b

/-- The place of a variable among those that the innermost function captures. Every function between
it and the owner of the variable captures it too. -/
def capture (b : BindingId) (depth index : Nat) : List Frame → Nat × List Frame
  | [] => (0, [])
  | f :: outer =>
    match f.free.findIdx? fun v => v.binding == b with
    | some i => (i, f :: outer)
    | none =>
      let direct := match outer with
        | g :: _ => g.depth == depth
        | [] => true
      if direct then
        (f.free.size, { f with free := f.free.push ⟨b, true, index⟩ } :: outer)
      else
        let (i, outer) := capture b depth index outer
        (f.free.size, { f with free := f.free.push ⟨b, false, i⟩ } :: outer)

def slotFor (b : BindingId) : Resolve Slot := do
  let s ← get
  let x := s.program.binding b
  match x.storage, s.frames with
  | .global, _ => return ⟨b, .global, x.index⟩
  | .frame, [] => return ⟨b, .frame, x.index⟩
  | .frame, f :: _ =>
    if x.depth == f.depth then return ⟨b, .frame, x.index⟩
    else
      modifyGet fun s =>
        let (i, frames) := capture b x.depth x.index s.frames
        (⟨b, .free, i⟩, { s with
          program := s.program.modifyBinding b fun x => { x with captured := true }
          frames := frames })

/-- Reads the global that holds a type as a value; it is shown by the type's qualified name. -/
def readType (d : TypeDef) (tok : Token) : Resolve (Expr .resolved) := do
  let b ← onProgram fun p => p.typeBinding d tok
  return .name () tok d.name (← slotFor b)

/-- The type whose qualified name is the chain of members `left.field`, with the token it starts
at. -/
def memberType? (left : Expr .parsed) (field : Name) : Resolve (Option (TypeDef × Token)) := do
  let p := (← get).program
  return left.dotted?.bind fun (tok, path) =>
    (p.type? (".".intercalate (path ++ [field.text]))).map (·, tok)

def noSlot (tok : Token) (name : String) : Expr .resolved := .name () tok name ⟨0, .global, 0⟩

def readName (tok : Token) (name : String) : Resolve (Expr .resolved) := do
  match ← lookup name with
  | some b => return .name () tok ((← get).program.binding b).name (← slotFor b)
  | none =>
    match (← get).program.resolveTypeName name with
    | .error e =>
      report .ambiguousType tok e.message
      return noSlot tok name
    | .ok (some d) => readType d tok
    | .ok none =>
      report .unbound tok ("undefined identifier " ++ name)
      return noSlot tok name

/-- The slot of a name that is assigned to. Functions, constructors and types cannot be. -/
def assignName (tok : Token) (name : String) : Resolve (Expr .resolved) := do
  match ← lookup name with
  | none =>
    report .unbound tok ("undefined identifier " ++ name)
    return noSlot tok name
  | some b =>
    let x := (← get).program.binding b
    if x.callable.isSome || !x.typeValue.isUnknown then
      report .badBinding tok ("cannot assign to " ++ name)
      return noSlot tok name
    else return .name () tok x.name (← slotFor b)

end Resolve

end Scripting
