import Scripting.Typed.Calls

/-!
# Types of expressions

Each function takes a resolved tree and gives the typed one. `analyze` checks the body of a function
whose result is needed; it is a parameter, so that the recursion here follows the tree.
-/

namespace Scripting.Typing

def arithmetic? (l r : Ty) : Option Ty :=
  if l.isAny || r.isAny then some .any
  else if l.same .int && r.same .int then some .int
  else if l.isNumeric && r.isNumeric then some .double
  else none

def areOrdered (l r : Ty) : Bool :=
  (l.isNumeric && r.isNumeric) || (l.same r && (l.same .string || l.same .char))

def isIntLike (t : Ty) : Bool := t.same .int || t.isAny

def isBoolLike (t : Ty) : Bool := t.same .bool || t.isAny

def binaryType? (op : BinaryOp) (l r : Ty) : Option Ty :=
  let dynamic := l.isAny || r.isAny
  match op with
  | .add => if l.same .string || r.same .string then some .string else arithmetic? l r
  | .sub | .mul | .div | .mod | .pow => arithmetic? l r
  | .eq | .ne => some .bool
  | .lt | .le | .gt | .ge => if dynamic || areOrdered l r then some .bool else none
  | .and | .or => if (dynamic || l.same .bool) && isBoolLike r then some .bool else none
  | .pipe =>
    if dynamic then some .any
    else if l.same .int && r.same .int then some .int
    else if l.same .bool && r.same .bool then some .bool
    else none
  | .bitAnd | .bitXor | .shiftLeft | .shiftRight =>
    if isIntLike l && isIntLike r then some .int else none

def binary (tok : Token) (op : BinaryOp) (l r : Expr .typed) : Typing (Expr .typed) := do
  match binaryType? op l.type r.type with
  | some t => return .binary (some t) tok op l r
  | none =>
    report .mismatch tok ("operator " ++ op.symbol ++ " not defined for " ++ l.type.text ++ " and "
      ++ r.type.text)
    return .binary (some .any) tok op l r

def unary (tok : Token) (op : UnaryOp) (r : Expr .typed) : Typing (Expr .typed) := do
  let t := r.type
  match op with
  | .neg =>
    if t.isNumeric || t.isAny then return .unary (some t) tok op r
    else
      report .mismatch tok ("cannot negate " ++ t.text)
      return .unary (some .any) tok op r
  | .not =>
    if !isBoolLike t then report .mismatch tok ("operator ! needs Bool, got " ++ t.text)
    return .unary (some .bool) tok op r

/-- Whether an expression names a function with a global slot; a variant without fields is none. -/
def isGlobalFunction (e : Expr .resolved) : Typing Bool := do
  let p ← program
  match e with
  | .name _ _ _ slot =>
    if slot.place != .global then return false
    else match (p.binding slot.binding).callable with
      | none => return false
      | some (.ctor t i) => return ((p.variant? t i).map fun x => !x.2.isNullary).getD false
      | some _ => return true
  | _ => return false

def slotType (analyze : FunId → Typing Unit) (tok : Token) (slot : Slot) : Typing Ty := do
  let b := (← program).binding slot.binding
  match b.callable with
  | some (.user f) =>
    settleResult analyze f tok
    return sigType (complete (← function f).sig)
  | some (.ctor ..) => return b.type.close
  | _ => return b.type.orAny

def member (tok : Token) (left : Expr .typed) (field : Name) : Typing (Expr .typed) := do
  let p ← program
  match left.type with
  | .type t =>
    let read := do
      let d ← p.defOf? t
      if d.kind == .union then
        let v ← d.variants.find? fun v => v.tag == field.text
        let b ← v.binding
        return (v.tag, b)
      else none
    match read with
    | some (tag, b) =>
      let x := p.binding b
      return .name (some x.type.close) field.token tag ⟨b, .global, x.index⟩
    | none =>
      report .mismatch field.token ("type " ++ t.text ++ " has no member " ++ field.text)
      return .member (some .any) tok left field
  | t =>
    match ← fieldType? t field.text with
    | some ft => return .member (some ft) tok left field
    | none =>
      report .mismatch field.token ("type " ++ t.text ++ " has no field " ++ field.text)
      return .member (some .any) tok left field

def assignedField (left : Ty) (field : Name) (vtok : Token) (vt : Ty) : Typing Ty := do
  match ← fieldType? left field.text with
  | none =>
    report .mismatch field.token ("type " ++ left.text ++ " has no field " ++ field.text)
    return .any
  | some ft =>
    if !(← assignable ft vt) then
      report .mismatch vtok ("cannot assign " ++ vt.text ++ " to field " ++ field.text ++ " of type "
        ++ ft.text)
    return ft

def assignedSlot (name : String) (slot : Slot) (vtok : Token) (vt : Ty) : Typing Ty := do
  let t := ((← program).binding slot.binding).type
  if t.isUnknown then return vt
  else
    if !(← assignable t vt) then
      report .mismatch vtok ("cannot assign " ++ vt.text ++ " to " ++ name ++ " of type " ++ t.text)
    return t

def elementType : Option Ty → List (Expr .typed) → Typing (Option Ty)
  | t, [] => return t
  | none, e :: es => elementType (some e.type) es
  | some t, e :: es =>
    match t.join e.type with
    | some j => elementType (some j) es
    | none => do
      report .disagreement e.token ("array elements have different types: " ++ t.text ++ " and "
        ++ e.type.text)
      elementType (some t) es

/-- Only an array can be indexed, and only by an integer literal; the result is an option. -/
def index (tok : Token) (l i : Expr .typed) : Typing (Expr .typed) := do
  match l.type.elem?, i with
  | some t, .int .. => return .index (some (.optionOf t)) tok l i
  | _, _ =>
    report .unsupported tok ("indexing " ++ l.type.text ++ " with " ++ i.type.text
      ++ " is not supported; index an array with an integer literal")
    return .index (some .any) tok l i

/-- Checks the fields of an instantiation and gives the names of those that are right. -/
def givenFields (t : Ty) (d : TypeDef) : (given : List String) → List (FieldInit .typed) →
    Typing (List String)
  | given, [] => return given
  | given, f :: fs => do
    if given.contains f.name then
      report .mismatch f.token ("field " ++ f.name ++ " given twice")
      givenFields t d given fs
    else match (← program).fieldType? t f.name with
      | none =>
        report .mismatch f.token ("type " ++ d.name ++ " has no field " ++ f.name)
        givenFields t d given fs
      | some ft =>
        if !(← assignable ft f.value.type) then
          report .mismatch f.value.token ("cannot use " ++ f.value.type.text ++ " as " ++ ft.text
            ++ " for field " ++ f.name)
        givenFields t d (f.name :: given) fs

def instantiation (tok : Token) (path : List String) (fields : List (FieldInit .typed)) :
    Typing (Expr .typed) := do
  let p ← program
  match p.resolveType (.named tok path []) with
  | .error d =>
    addError d
    return .new (some .any) tok default path fields
  | .ok t =>
    match (p.defOf? t).filter fun d => d.kind == .record with
    | none =>
      report .mismatch tok (t.text ++ " is not a record type")
      return .new (some .any) tok default path fields
    | some d =>
      let given ← givenFields t d [] fields
      d.fieldNames.forM fun name =>
        if given.contains name then pure ()
        else report .mismatch tok ("missing field " ++ name ++ " in " ++ d.name)
      return .new (some t) tok ⟨d.name, d.fieldNames⟩ path fields

/-- Unwraps an option or result. The failure leaves the function, so that is a place where it
returns. -/
def tryUnwrap (tok : Token) (v : Expr .typed) : Typing (Expr .typed) := do
  let t := v.type
  let parts : Option (String × Ty × Ty) := match t with
    | .app c (a :: rest) =>
      if c.name == "Option" then some (c.name, a, .optionOf .any)
      else if c.name == "Result" then some (c.name, a, .resultOf .any (rest.headD .unknown))
      else none
    | _ => none
  if t.isAny then return .tryUnwrap (some .any) tok v
  else match parts with
    | none =>
      report .mismatch tok ("try needs an Option or Result, got " ++ t.text)
      return .tryUnwrap (some .any) tok v
    | some (con, payload, failure) =>
      if let some c := (← get).current then
        let f ← function c.func
        if f.declared then
          let fits := f.result.isAny || (f.result.con?.map fun k => k.name == con).getD false
          if !fits then
            report .mismatch tok ("try on " ++ t.text ++ " cannot return from " ++ f.fullName
              ++ ", which returns " ++ f.result.text)
        else addSite tok failure
      return .tryUnwrap (some payload) tok v

def expectCondition (e : Expr .typed) : Typing Unit := do
  if !isBoolLike e.type then
    report .mismatch e.token ("condition must be Bool, got " ++ e.type.text)

/-- The type of a conditional: what its branches agree on, without those that do not come back. -/
def condType (body : Block .typed) (alt : Option (Expr .typed)) : Ty :=
  match alt with
  | none => .unit
  | some e =>
    if body.terminates then e.type
    else if e.terminates then body.type
    else (body.type.join e.type).getD .unit

def joinArm (result : Option Ty) (body : Expr .typed) : Typing (Option Ty) := do
  if body.terminates then return result
  else match result with
    | none => return some body.type
    | some t =>
      match t.join body.type with
      | some j => return some j
      | none =>
        report .disagreement body.token ("match arms have different types: " ++ t.text ++ " and "
          ++ body.type.text)
        return some t

/-- The constructor that a pattern's name means, for a subject of some type: a variant of the
subject's own union or of the union before the last segment, or a global constructor. -/
def patternVariant? (p : Program) (path : List String) (subject : Ty) : Option (TypeDef × Variant) :=
  let last := path.getLastD ""
  let variantOf (d : TypeDef) : Option (TypeDef × Variant) :=
    if d.kind == .union then (d.variants.find? fun v => v.tag == last).map (d, ·) else none
  match path.dropLast with
  | [] =>
    match (p.defOf? subject).bind variantOf with
    | some x => some x
    | none =>
      match (p.scope.get? last).bind fun b => (p.binding b).callable with
      | some (.ctor t i) => p.variant? t i
      | _ => none
  | owner =>
    match p.resolveTypeName (".".intercalate owner) with
    | .ok (some d) => variantOf d
    | _ => none

def variantTest (tok : Token) (d : TypeDef) (v : Variant) (argc : Nat) (subject : Ty) :
    Typing (Option (CtorTest × List Ty)) := do
  let tag := d.name ++ "." ++ v.tag
  let other := (subject.con?.map fun c => !subject.isAny && c.name != d.name).getD false
  if other then
    report .mismatch tok ("pattern " ++ tag ++ " cannot match " ++ subject.text)
    return none
  else if 0 < argc && argc != v.fields.length then
    report .mismatch tok ("variant " ++ tag ++ " has " ++ toString v.fields.length
      ++ " fields, pattern gives " ++ toString argc)
    return none
  else
    let args := if subject.isAny then d.type.args else subject.args
    let types := v.fields.map fun f => (d.instantiate f.type args).close
    return some (⟨tag, v.fieldNames⟩, types)

def typeTest (tok : Token) (path : List String) (argc : Nat) :
    Typing (Option (CtorTest × List Ty)) := do
  let name := ".".intercalate path
  match (← program).resolveTypeName name with
  | .error e =>
    report .ambiguousType tok e.message
    return none
  | .ok none =>
    report .unbound tok ("undefined pattern " ++ name)
    return none
  | .ok (some d) =>
    if argc == 0 then return some (⟨d.name, []⟩, [])
    else if d.kind != .record || argc != d.fields.length then
      report .mismatch tok ("pattern " ++ name ++ " expects " ++ toString d.fields.length
        ++ " fields, got " ++ toString argc)
      return none
    else return some (⟨d.name, d.fieldNames⟩, d.fields.map fun f => f.type.close)

def ctorTest (tok : Token) (path : List String) (argc : Nat) (subject : Ty) :
    Typing (Option (CtorTest × List Ty)) := do
  match patternVariant? (← program) path subject with
  | some (d, v) => variantTest tok d v argc subject
  | none => typeTest tok path argc

def typedParams (ps : List (Param .resolved)) : List (Param .typed) :=
  ps.map fun p => ⟨p.name, p.decl, p.type⟩

def finished (d : FunDecl .resolved) : Typing (FunDecl .typed) := do
  match (← get).done[d.info.id]? with
  | some t => return t
  | none =>
    return .mk d.token d.name d.info d.hasSelf (typedParams d.params) d.result
      (.mk none d.body.token [] d.body.close)

def nested (analyze : FunId → Typing Unit) (d : FunDecl .resolved) : Typing (FunDecl .typed) := do
  header d
  analyze d.info.id
  finished d

def expectBound (e : Expr .typed) : Typing Unit := do
  if !isIntLike e.type then
    report .mismatch e.token ("range bounds must be Int, got " ++ e.type.text)

def itemType (e : Expr .typed) : Typing Ty := do
  match e.type.elem? with
  | some t => return t
  | none =>
    if !e.type.isAny then report .mismatch e.token ("cannot iterate over " ++ e.type.text)
    return .any

def boundType (name : String) (type : Option TypeExpr) (v : Expr .typed) : Typing Ty := do
  match type with
  | none => return v.type
  | some e =>
    match (← program).resolveType e with
    | .error d =>
      addError d
      return v.type
    | .ok t =>
      if !(← assignable t v.type) then
        report .mismatch v.token ("cannot use " ++ v.type.text ++ " as " ++ t.text
          ++ " in declaration of " ++ name)
      return t

def blockOf (tok : Token) (stmts : List (Stmt .typed)) (close : Token) : Block .typed :=
  let t := match stmts.getLast? with
    | some (.expr _ e) => e.type
    | _ => .unit
  .mk (some t) tok stmts close

variable (analyze : FunId → Typing Unit)

mutual

def infer : Expr .resolved → Typing (Expr .typed)
  | .name _ t text slot => return .name (some (← slotType analyze t slot)) t text slot
  | .int _ t v => return .int (some .int) t v
  | .float _ t v => return .float (some .double) t v
  | .string _ t v => return .string (some .string) t v
  | .char _ t v => return .char (some .char) t v
  | .bool _ t v => return .bool (some .bool) t v
  | .interpolated _ t parts => return .interpolated (some .string) t (← inferAll parts)
  | .array _ t elems => do
    let es ← inferAll elems
    return .array (some (.arrayOf ((← elementType none es).getD .any))) t es
  | .unary _ t op r => do unary t op (← infer r)
  | .binary _ t op l r => do
    -- A value piped into a call becomes its first argument.
    let left := infer l
    let right := infer r
    match if op == .pipe then piped r else none with
    | some call => call left
    | none =>
      if op == .pipe && (← isGlobalFunction r) then
        let f ← right
        call analyze t (.plain f) [← left]
      else
        let l ← left
        binary t op l (← right)
  | .assign _ t target value => do
    let v ← infer value
    match target with
    | .name _ nt text slot =>
      let tt ← assignedSlot text slot v.token v.type
      return .assign (some v.type) t (.name (some tt) nt text slot) v
    | .member _ mt left field =>
      let l ← infer left
      let ft ← assignedField l.type field v.token v.type
      return .assign (some v.type) t (.member (some ft) mt l field) v
    | _ =>
      report .unsupported t "cannot assign to this expression"
      return .assign (some v.type) t (.bool none t false) v
  | .call _ t _ f args => do
    let c ← (memberCallee f).getD (Callee.plain <$> infer f)
    call analyze t c (← inferAll args)
  | .member _ t left field => do member t (← infer left) field
  | .index _ t l i => do
    let l ← infer l
    index t l (← infer i)
  | .new _ t _ path fields => do instantiation t path (← inferInits fields)
  | .tryUnwrap _ t v => do tryUnwrap t (← infer v)
  | .range _ t a b => do
    let a ← infer a
    let b ← infer b
    report .unsupported t "a range can only be iterated by a for loop"
    return .range (some .any) t a b
  | .block b => return .block (← inferBlock b)
  | .cond _ t test body alt => do
    let test ← infer test
    expectCondition test
    let body ← inferBlock body
    let alt ← inferOption alt
    return .cond (some (condType body alt)) t test body alt
  | .cases _ t subject b arms => do
    let subject ← infer subject
    setType b subject.type
    let (arms, result) ← inferArms subject.type none arms
    return .cases (some (result.getD .unit)) t subject b arms

def memberCallee : Expr .resolved → Option (Typing Callee)
  | .member _ t left field => some do return .member t (← infer left) field
  | _ => none

def piped : Expr .resolved → Option (Typing (Expr .typed) → Typing (Expr .typed))
  | .call _ t _ f args => some fun left => do
    let c ← (memberCallee f).getD (Callee.plain <$> infer f)
    let first ← left
    call analyze t c (first :: (← inferAll args))
  | _ => none

def inferAll : List (Expr .resolved) → Typing (List (Expr .typed))
  | [] => return []
  | e :: es => do
    let e ← infer e
    return e :: (← inferAll es)

def inferOption : Option (Expr .resolved) → Typing (Option (Expr .typed))
  | none => return none
  | some e => return some (← infer e)

def inferInits : List (FieldInit .resolved) → Typing (List (FieldInit .typed))
  | [] => return []
  | .mk t name v :: fs => do
    let v ← infer v
    return .mk t name v :: (← inferInits fs)

def inferArms (subject : Ty) (result : Option Ty) : List (Arm .resolved) →
    Typing (List (Arm .typed) × Option Ty)
  | [] => return ([], result)
  | .mk t p body :: as => do
    let p ← pattern subject p
    let body ← infer body
    let (rest, result) ← inferArms subject (← joinArm result body) as
    return (.mk t p body :: rest, result)

def pattern (subject : Ty) : Pattern .resolved → Typing (Pattern .typed)
  | .wildcard t => return .wildcard t
  | .bind name b => do
    setType b subject
    return .bind name b
  | .literal t v => do
    let v ← infer v
    if !(← assignable subject v.type) then
      report .mismatch t ("cannot match " ++ v.type.text ++ " against " ++ subject.text)
    return .literal t v
  | .ctor t _ path args => do
    match ← ctorTest t path args.length subject with
    | none => return .ctor t default path []
    | some (test, types) => return .ctor t test path (← patterns types args)

def patterns (types : List Ty) : List (Pattern .resolved) → Typing (List (Pattern .typed))
  | [] => return []
  | p :: ps => do
    let p ← pattern (types.headD .any) p
    return p :: (← patterns types.tail ps)

def inferBlock : Block .resolved → Typing (Block .typed)
  | .mk _ t ss close => return blockOf t (← inferStmts ss) close

def inferStmts : List (Stmt .resolved) → Typing (List (Stmt .typed))
  | [] => return []
  | s :: ss => do
    let s ← inferStmt s
    return s :: (← inferStmts ss)

/-- A statement below the top level, or one at top level that declares no function. -/
def inferStmt : Stmt .resolved → Typing (Stmt .typed)
  | .expr t v => return .expr t (← infer v)
  | .block b => return .block (← inferBlock b)
  | .bind t name b type v => do
    let v ← infer v
    setType b (← boundType name.text type v)
    return .bind t name b type v
  | .ret t v => do
    let v ← inferOption v
    addSite t ((v.map Expr.type).getD .unit)
    return .ret t v
  | .loop t test body => do
    let test ← infer test
    expectCondition test
    return .loop t test (← inferBlock body)
  | .each t name slots (.range _ rt a b) body => do
    let a ← infer a
    let b ← infer b
    expectBound a
    expectBound b
    setType slots.limit .int
    setType slots.index .int
    setType slots.item .int
    return .each t name slots (.range (some .int) rt a b) (← inferBlock body)
  | .each t name slots series body => do
    let series ← infer series
    let item ← itemType series
    setType slots.limit series.type
    setType slots.index .int
    setType slots.item item
    return .each t name slots series (← inferBlock body)
  | .leave t => return .leave t
  | .next t => return .next t
  | .func d => return .func (← nested analyze d)
  | .impl t name _ => return .impl t name []
  | .record t name fields => return .record t name fields
  | .union t name variants => return .union t name variants
  | .use t path => return .use t path

end

end Scripting.Typing
