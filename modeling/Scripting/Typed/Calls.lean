import Scripting.Typed.State

/-!
# Settling calls

A call through a name is settled to what the name is bound to. A call through a member is settled by
trying groups of candidates: the methods of every value, the functions of the type's `impl` blocks,
the host methods of the type and its bases, then extensions. The first group with a match wins; in it
the candidate whose parameters fit best.
-/

namespace Scripting.Typing

/-- What is called: a value, or a member of a value. -/
inductive Callee where
  | plain (f : Expr .typed)
  | member (token : Token) (left : Expr .typed) (field : Name)

def signatureOf (analyze : FunId → Typing Unit) (tok : Token) (c : Callable) :
    Typing (Signature × List String) := do
  if let .user f := c then settleResult analyze f tok
  let p ← program
  let sig := p.callableSig c
  match c with
  | .ctor t i => return (sig, ((p.variant? t i).map fun x => x.1.typeParams).getD [])
  | .host h => return (complete sig, (p.hosts[h]?.map HostFunction.typeParams).getD [])
  | _ => return (complete sig, [])

/-- The best match among candidates: the candidate, the match, and another candidate that fits as
well, if there is one. -/
abbrev Selection := Option (Callable × Binding.Match × Option Callable)

def prefer (best : Selection) (c : Callable) (m : Binding.Match) : Selection :=
  match best with
  | none => some (c, m, none)
  | some (c', m', tie) =>
    if m'.score < m.score then some (c, m, none)
    else if m.score == m'.score then some (c', m', some c)
    else some (c', m', tie)

/-- Matches the arguments against every candidate and keeps the one that fits best. -/
def select (analyze : FunId → Typing Unit) (tok : Token) (args : List Ty) :
    Selection → List Callable → Typing Selection
  | best, [] => return best
  | best, c :: cs => do
    let (sig, typeParams) ← signatureOf analyze tok c
    match Ty.bind (← program).bases sig typeParams args with
    | .ok m => select analyze tok args (prefer best c m) cs
    | .error _ => select analyze tok args best cs

def callValue (tok : Token) (sig : Signature) (args : List Ty) : Typing Ty := do
  let t := sigType sig
  match Ty.bind (← program).bases sig t.freeVars args with
  | .ok m => return m.result.close
  | .error e =>
    report .mismatch tok ("cannot call " ++ t.text ++ " with " ++ Ty.listText args ++ ": " ++ e.message)
    return sig.result.close

def callCallable (analyze : FunId → Typing Unit) (tok : Token) (c : Callable) (args : List Ty) :
    Typing (Ty × Bool) := do
  let p ← program
  let nullary : Option (TypeDef × Variant) := match c with
    | .ctor t i => (p.variant? t i).filter fun x => x.2.isNullary
    | _ => none
  match nullary with
  | some (d, v) =>
    report .mismatch tok (v.tag ++ " takes no arguments and is not called")
    return (d.type.close, false)
  | none =>
    let (sig, typeParams) ← signatureOf analyze tok c
    match Ty.bind (← program).bases sig typeParams args with
    | .ok m => return (m.result.close, true)
    | .error e =>
      report .mismatch tok ("cannot call " ++ p.callableName c ++ " with " ++ Ty.listText args ++ ": "
        ++ e.message)
      return (sig.result.close, false)

def settledTo (p : Program) (c : Callable) (isStatic viaReceiver : Bool) : CallInfo :=
  ⟨some c, isStatic, viaReceiver, p.callableName c⟩

/-- A call of a value. A function that is bound to a global is called directly; a nested one is a
closure that exists only at run time. -/
def callPlain (analyze : FunId → Typing Unit) (tok : Token) (f : Expr .typed)
    (args : List (Expr .typed)) : Typing (Expr .typed) := do
  let types := args.map Expr.type
  let p ← program
  let named := match f with
    | .name _ _ _ slot => (p.binding slot.binding).callable.map fun c => (c, slot.place)
    | _ => none
  match named with
  | some (c, place) =>
    let (t, settled) ← callCallable analyze tok c types
    let info := if settled then settledTo p c (place == .global) false else {}
    return .call (some t) tok info f args
  | none =>
    match f.type.signature? with
    | some sig => return .call (some (← callValue tok (complete sig) types)) tok {} f args
    | none =>
      if !f.type.isAny then report .mismatch tok (f.type.text ++ " is not callable")
      return .call (some .any) tok {} f args

def hostCandidates (p : Program) (d : TypeDef) (recv : Ty) (name : String) : List Callable :=
  let defs := d :: (Ty.allBases p.bases recv).filterMap p.defOf?
  let ids := (defs.map TypeDef.id).eraseDups
  ids.flatMap fun id =>
    match p.typeById? id with
    | none => []
    | some d => (p.hostMethodsOf d name).filterMap fun (h, f) =>
      if f.receiver.isSome then some (.host h) else none

/-- The functions of a type's `impl` blocks with a name, those with a receiver or those without. -/
def implCandidates (p : Program) (d : TypeDef) (name : String) (withSelf : Bool) : List Callable :=
  d.methods.filterMap fun id =>
    (p.funs[id]?).bind fun f =>
      if f.name == name && f.hasSelf == withSelf then some (.user id) else none

/-- The groups of candidates for a method of a value, in the order they are tried. -/
def memberCandidates (p : Program) (recv : Ty) (name : String) : List (List Callable) :=
  let natives := match Native.method? name with
    | some f => [[Callable.native f.name]]
    | none => []
  let ofType := match p.defOf? recv with
    | some d => [implCandidates p d name true, hostCandidates p d recv name]
    | none => []
  natives ++ ofType ++ [(p.extensionsNamed name).map fun x => .host x.1]

def selectGroup (analyze : FunId → Typing Unit) (tok : Token) (args : List Ty) :
    List (List Callable) → Typing Selection
  | [] => return none
  | g :: gs => do
    match ← select analyze tok args none g with
    | some s => return some s
    | none => selectGroup analyze tok args gs

/-- The type of a field that can be read or assigned; everything can be on `Any`. -/
def fieldType? (t : Ty) (name : String) : Typing (Option Ty) := do
  if t.isAny then return some .any
  else return ((← program).fieldType? t name).map Ty.close

/-- A call through a type: of a variant, of an `impl` function without receiver, or of a static host
function. -/
def callStatic (analyze : FunId → Typing Unit) (tok : Token) (callee : Expr .typed) (name : String)
    (t : Ty) (args : List (Expr .typed)) : Typing (Expr .typed) := do
  let types := args.map Expr.type
  let p ← program
  match p.defOf? t with
  | none =>
    report .noOverload tok ("no function " ++ name ++ " on " ++ t.text)
    return .call (some .any) tok {} callee args
  | some d =>
    match d.variantIndex? name with
    | some i =>
      let (r, settled) ← callCallable analyze tok (.ctor d.id i) types
      let info := if settled then settledTo p (.ctor d.id i) true false else {}
      return .call (some r) tok info callee args
    | none =>
      let hosts := (p.hostMethodsOf d name).filterMap fun (h, f) =>
        if f.receiver.isNone then some (Callable.host h) else none
      match ← select analyze tok types none (implCandidates p d name false ++ hosts) with
      | some (c, _, some tie) =>
        report .noOverload tok ("ambiguous call " ++ d.name ++ "." ++ name ++ " with "
          ++ Ty.listText types ++ ": " ++ p.callableName c ++ " and " ++ p.callableName tie)
        return .call (some .any) tok {} callee args
      | some (c, m, none) =>
        return .call (some m.result.close) tok (settledTo p c true false) callee args
      | none =>
        report .noOverload tok ("no function " ++ d.name ++ "." ++ name ++ " matches "
          ++ Ty.listText types)
        return .call (some .any) tok {} callee args

/-- A call through a member of a value, which may also be a field that holds a function. -/
def callMember (analyze : FunId → Typing Unit) (tok mtok : Token) (left : Expr .typed) (field : Name)
    (args : List (Expr .typed)) : Typing (Expr .typed) := do
  let types := args.map Expr.type
  let recv := left.type
  let p ← program
  let unsettled : Typing (Expr .typed) := do
    report .noOverload tok ("no method " ++ field.text ++ " on " ++ recv.text ++ " matches "
      ++ Ty.listText types)
    return .call (some .any) tok {} (.member none mtok left field) args
  match ← selectGroup analyze tok (recv :: types) (memberCandidates p recv field.text) with
  | some (c, _, some tie) =>
    report .noOverload tok ("ambiguous call " ++ field.text ++ " on " ++ recv.text ++ " with "
      ++ Ty.listText types ++ ": " ++ p.callableName c ++ " and " ++ p.callableName tie)
    return .call (some .any) tok {} (.member none mtok left field) args
  | some (c, m, none) =>
    return .call (some m.result.close) tok (settledTo p c true true) (.member none mtok left field)
      args
  | none =>
    let held ← if recv.isAny then pure none else fieldType? recv field.text
    match held with
    | none => unsettled
    | some t =>
      match t.signature? with
      | some sig =>
        let r ← callValue tok (complete sig) types
        return .call (some r) tok {} (.member (some t) mtok left field) args
      | none =>
        if t.isAny then
          return .call (some .any) tok {} (.member (some t) mtok left field) args
        else unsettled

def call (analyze : FunId → Typing Unit) (tok : Token) (callee : Callee) (args : List (Expr .typed)) :
    Typing (Expr .typed) :=
  match callee with
  | .plain f => callPlain analyze tok f args
  | .member mtok left field =>
    match left.type with
    | .type t => callStatic analyze tok (.member none mtok left field) field.text t args
    | _ => callMember analyze tok mtok left field args

end Scripting.Typing
