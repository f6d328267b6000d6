import Scripting.Resolved.State

/-!
# Resolving trees

Statements are resolved in order, so a name means the nearest binding that was declared before it.
The value of a declaration is resolved before its name is bound.
-/

namespace Scripting.Resolve

def userFunction {P : Phase} (d : FunDecl P) : UserFunction :=
  { name := d.name.text
    paramNames := d.params.map fun p => p.name.text
    params := d.params.map fun _ => .unknown
    hasSelf := d.hasSelf }

def bindFunction {P : Phase} (d : FunDecl P) (b : BindingId) : Resolve FunId := do
  let id ← onProgram fun p => p.addFun (userFunction d)
  onProgram fun p => ((), p.modifyBinding b fun x => { x with callable := some (.user id) })
  return id

/-- Declares a function inside a block or function, before its body is resolved, so that the body can
call it. -/
def declareNested {P : Phase} (d : FunDecl P) : Resolve (FunId × BindingId) := do
  let b ← declare d.name.text d.name.token
  let id ← bindFunction d b
  if ((← get).program.binding b).storage == .global then
    onProgram fun p => ((), p.addPending b)
  return (id, b)

def declareParams : List (Param .parsed) → Resolve (List (Param .resolved))
  | [] => return []
  | p :: ps => do
    let b ← declare p.name.text p.name.token
    return ⟨p.name, b, p.type⟩ :: (← declareParams ps)

/-- Opens the frame of a function around `act`, which gives the function's parts. -/
def withFrame {α : Type} (act : Resolve α) : Resolve (α × Frame) := do
  let depth := match (← get).frames with
    | f :: _ => f.depth + 1
    | [] => 1
  modify fun s => { s with frames := { depth } :: s.frames }
  let a ← withScope .function act
  let frame := (← get).frames.headD { depth }
  modify fun s => { s with frames := s.frames.tail }
  return (a, frame)

mutual

def expr : Expr .parsed → Resolve (Expr .resolved)
  | .name _ t text _ => readName t text
  | .int _ t v => return .int () t v
  | .float _ t v => return .float () t v
  | .string _ t v => return .string () t v
  | .char _ t v => return .char () t v
  | .bool _ t v => return .bool () t v
  | .interpolated _ t parts => return .interpolated () t (← exprs parts)
  | .array _ t elems => return .array () t (← exprs elems)
  | .unary _ t op r => return .unary () t op (← expr r)
  | .binary _ t op l r => do
    let l ← expr l
    return .binary () t op l (← expr r)
  | .assign _ t target value => do
    let v ← expr value
    match target.nameView? with
    | some (tok, name) => return .assign () t (← assignName tok name) v
    | none =>
      let e ← expr target
      if target.isMember && !e.isMember then
        report .badBinding target.token "cannot assign to a type"
      return .assign () t e v
  | .call _ t _ callee args => do
    let f ← expr callee
    return .call () t () f (← exprs args)
  | .member _ t left field => do
    -- A chain of members may be a qualified type name; the longest one wins.
    match ← memberType? left field with
    | some (d, tok) => readType d tok
    | none => return .member () t (← expr left) field
  | .index _ t l i => do
    let l ← expr l
    return .index () t l (← expr i)
  | .new _ t _ path fields => return .new () t () path (← inits fields)
  | .tryUnwrap _ t v => return .tryUnwrap () t (← expr v)
  | .range _ t a b => do
    let a ← expr a
    return .range () t a (← expr b)
  | .block b => return .block (← block b)
  | .cond _ t test body alt => do
    let test ← expr test
    let body ← block body
    return .cond () t test body (← option alt)
  | .cases _ t subject _ arms_ => do
    let subject ← expr subject
    let b ← declareHidden "$match" t
    return .cases () t subject b (← arms arms_)

def exprs : List (Expr .parsed) → Resolve (List (Expr .resolved))
  | [] => return []
  | e :: es => do
    let e ← expr e
    return e :: (← exprs es)

def option : Option (Expr .parsed) → Resolve (Option (Expr .resolved))
  | none => return none
  | some e => return some (← expr e)

def inits : List (FieldInit .parsed) → Resolve (List (FieldInit .resolved))
  | [] => return []
  | .mk t name v :: fs => do
    let v ← expr v
    return .mk t name v :: (← inits fs)

def arms : List (Arm .parsed) → Resolve (List (Arm .resolved))
  | [] => return []
  | .mk t p body :: as => do
    let arm ← withScope .block do
      let p ← pattern p
      return .mk t p (← expr body)
    return arm :: (← arms as)

def pattern : Pattern .parsed → Resolve (Pattern .resolved)
  | .wildcard t => return .wildcard t
  | .literal t v => return .literal t (← expr v)
  | .bind name _ => return .bind name (← declare name.text name.token)
  | .ctor t _ path args => return .ctor t () path (← patterns args)

def patterns : List (Pattern .parsed) → Resolve (List (Pattern .resolved))
  | [] => return []
  | p :: ps => do
    let p ← pattern p
    return p :: (← patterns ps)

def block : Block .parsed → Resolve (Block .resolved)
  | .mk _ t ss close => return .mk () t (← withScope .block (stmts ss)) close

/-- Resolves a function: the receiver and the parameters take the first slots of its frame. -/
def func (id : FunId) (binding : Option BindingId) : FunDecl .parsed → Resolve (FunDecl .resolved)
  | .mk t name _ hasSelf params result (.mk _ bt ss close) => do
    let ((self, params, ss), frame) ← withFrame do
      let self ← if hasSelf then some <$> declare "self" t else pure none
      let params ← declareParams params
      return (self, params, ← stmts ss)
    onProgram fun p => ((), p.modifyFun id fun f =>
      { f with localCount := frame.nextSlot, freeCount := frame.free.size })
    let info : FunSlots := ⟨id, binding, self, frame.nextSlot, frame.free.toList, frame.depth⟩
    return .mk t name info hasSelf params result (.mk () bt ss close)

def funcs : List FunId → List (FunDecl .parsed) → Resolve (List (FunDecl .resolved))
  | id :: ids, d :: ds => do
    let d ← func id none d
    return d :: (← funcs ids ds)
  | _, _ => return []

def stmts : List (Stmt .parsed) → Resolve (List (Stmt .resolved))
  | [] => return []
  | s :: ss => do
    let s ← stmt s
    return s :: (← stmts ss)

def stmt : Stmt .parsed → Resolve (Stmt .resolved)
  | .expr t v => return .expr t (← expr v)
  | .block b => return .block (← block b)
  | .bind t name _ type v => do
    let v ← expr v
    return .bind t name (← declare name.text name.token) type v
  | .ret t v => return .ret t (← option v)
  | .loop t test body => do
    let test ← expr test
    return .loop t test (← block body)
  | .each t name _ series body => do
    let series ← expr series
    withScope .block do
      let (index, limit) ← if series.rangeBounds?.isSome then do
          let index ← declareHidden "$index" t
          pure (index, ← declareHidden "$end" t)
        else do
          let array ← declareHidden "$array" t
          pure (← declareHidden "$index" t, array)
      let item ← declare name.text name.token
      return .each t name ⟨limit, index, item⟩ series (← block body)
  | .leave t => return .leave t
  | .next t => return .next t
  | .func d => do
    let (id, b) ← declareNested d
    return .func (← func id (some b) d)
  | .impl t name _ => do
    report .badBinding t "impl blocks must be declared at the top level"
    return .impl t name []
  | .record t name fields => do
    report .badBinding t "declarations of this kind must be at the top level"
    return .record t name fields
  | .union t name variants => do
    report .badBinding t "declarations of this kind must be at the top level"
    return .union t name variants
  | .use t path => do
    report .badBinding t "declarations of this kind must be at the top level"
    return .use t path

end

end Scripting.Resolve
