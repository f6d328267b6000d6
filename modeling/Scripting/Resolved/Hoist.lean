import Scripting.Resolved.Tree
import Scripting.Program.Modules

/-!
# Declarations of a batch

The declarations of a batch count before any of its bodies: modules first, then the names of types,
then their fields and variants, then functions. So bodies can use what is declared further down.
-/

namespace Scripting

/-- What the declarations of a statement were given in advance. -/
inductive Resolve.Hoisted where
  | nothing
  | func (id : FunId) (binding : BindingId)
  | impl (ids : List FunId)

namespace Resolve

def useModule (load : String → Except LoadError HostModule) (tok : Token) (path : List String) :
    Resolve Unit := do
  let name := ".".intercalate path
  match ← onProgram (Program.useModule load name).run with
  | .ok () => return
  | .error e => report .unbound tok ("cannot use module " ++ name ++ ": " ++ e.message)

def declareType (name : Name) (kind : TypeDef.Kind) : Resolve (Option TypeId) := do
  match (← get).program.addType { name := name.text, kind := kind } with
  | .error msg =>
    report .badBinding name.token msg
    return none
  | .ok (id, p) =>
    modify fun s => { s with program := p }
    return some id

def fields : (seen : List String) → List FieldDecl → Resolve (List Field)
  | _, [] => return []
  | seen, f :: fs => do
    if seen.contains f.name then
      report .badBinding f.token ("duplicate field " ++ f.name)
      fields seen fs
    else match (← get).program.resolveType f.type with
      | .ok t => return ⟨f.name, t⟩ :: (← fields (f.name :: seen) fs)
      | .error d =>
        modify fun s => { s with errors := s.errors.push d }
        fields (f.name :: seen) fs

def variants (union : String) : (seen : List String) → List VariantDecl →
    Resolve (Option (List Variant))
  | _, [] => return some []
  | seen, v :: vs => do
    if seen.contains v.name then
      report .badBinding v.token ("duplicate variant " ++ v.name ++ " in union " ++ union)
      return none
    else
      let fs ← fields [] v.fields
      let rest ← variants union (v.name :: seen) vs
      return rest.map fun rest => ⟨v.name, fs, none, none⟩ :: rest

def defineRecord (id : TypeId) (decls : List FieldDecl) : Resolve Unit := do
  let fs ← fields [] decls
  onProgram fun p => ((), p.modifyType id fun d => { d with fields := fs })

def defineUnion (id : TypeId) (name : Name) (decls : List VariantDecl) : Resolve Unit := do
  match ← variants name.text [] decls with
  | none => return
  | some vs =>
    onProgram fun p =>
      ((), (p.modifyType id fun d => { d with variants := vs }).bindVariants id name.token)

def addMethod (d : TypeDef) (m : FunDecl .parsed) : Resolve FunId := do
  let id ← onProgram fun p => p.addFun { userFunction m with owner := some d.type }
  onProgram fun p => ((), p.addMethod d.id id)
  return id

def addMethods (d : TypeDef) (methods : List (FunDecl .parsed)) : Resolve (List FunId) :=
  methods.mapM (addMethod d)

/-- Declares the functions of an `impl` block. Only records and unions can have them. -/
def declareImpl (name : Name) (methods : List (FunDecl .parsed)) : Resolve Hoisted := do
  match (← get).program.resolveTypeName name.text with
  | .error e =>
    report .ambiguousType name.token e.message
    return .nothing
  | .ok none =>
    report .unbound name.token ("unknown type " ++ name.text)
    return .nothing
  | .ok (some d) =>
    if d.kind == .record || d.kind == .union then return .impl (← addMethods d methods)
    else
      report .badBinding name.token
        ("cannot add methods to " ++ d.kind.name ++ " type " ++ d.name)
      return .nothing

def declareFunction (d : FunDecl .parsed) : Resolve Hoisted := do
  let b ← onProgram fun p => p.declareGlobal d.name.text d.name.token
  let id ← bindFunction d b
  onProgram fun p => ((), (p.addFunction d.name.text id).addPending b)
  return .func id b

def hoist (load : String → Except LoadError HostModule) (stmts : List (Stmt .parsed)) :
    Resolve (List Hoisted) := do
  stmts.forM fun
    | .use tok path => useModule load tok path
    | _ => return
  let types ← stmts.mapM fun
    | .record _ name _ => declareType name .record
    | .union _ name _ => declareType name .union
    | _ => return none
  (stmts.zip types).forM fun
    | (.record _ _ decls, some id) => defineRecord id decls
    | (.union _ name decls, some id) => defineUnion id name decls
    | _ => return
  stmts.mapM fun
    | .impl _ name methods => declareImpl name methods
    | .func d => declareFunction d
    | _ => return .nothing

def topStmt (h : Hoisted) (s : Stmt .parsed) : Resolve (Stmt .resolved) := do
  match s, h with
  | .func d, .func id b => return .func (← func id (some b) d)
  | .impl t name methods, .impl ids => return .impl t name (← funcs ids methods)
  | .record t name fields, _ => return .record t name fields
  | .union t name variants, _ => return .union t name variants
  | .use t path, _ => return .use t path
  | s, _ => stmt s

def batch (load : String → Except LoadError HostModule) (stmts : List (Stmt .parsed)) :
    Resolve (List (Stmt .resolved)) := do
  let hoisted ← hoist load stmts
  if (← get).errors.isEmpty then (hoisted.zip stmts).mapM fun (h, s) => topStmt h s
  else return []

end Resolve

/-- Resolves a batch against a program. The program is given back also if that fails, because it has
used up slots and type numbers. -/
def Source.resolve (load : String → Except LoadError HostModule) (p : Program)
    (src : Source .parsed) : Except (List Diagnostic) (Source .resolved) × Program :=
  let (stmts, s) := (Resolve.batch load src.stmts).run { program := p }
  (if s.errors.isEmpty then .ok { file := src.file, stmts := stmts } else .error s.errors.toList,
    s.program)

end Scripting
