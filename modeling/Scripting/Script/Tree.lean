import Scripting.Script.State

/-!
# Code of expressions and statements

The code of an expression leaves one value on the stack, that of a statement leaves the stack as it
was. `inLoop` says whether a loop of the same function is around.
-/

namespace Scripting.Emit

open Assembly (op)

def instruction? : BinaryOp → Option Opcode
  | .add => some .add
  | .sub => some .sub
  | .mul => some .mul
  | .div => some .div
  | .mod => some .mod
  | .eq => some .eq
  | .ne => some .ne
  | .lt => some .lt
  | .le => some .le
  | .gt => some .gt
  | .ge => some .ge
  | .pipe => some .bitOr
  | _ => none

/-- Evaluates the right operand only if the left one is true (`and`), or false (`or`); otherwise the
left value is the result. -/
def shortCircuit (isOr : Bool) (left right : Assembly) (line : Int) : Assembly :=
  left ++ op .dup line ++ (if isOr then op .not line else [])
    ++ Assembly.guarded (op .pop line ++ right) line

def ordered (inits : List (String × Emit Assembly)) : List String → Emit Assembly
  | [] => return []
  | f :: fs => do
    let first ← (inits.lookup f).getD (return [])
    return first ++ (← ordered inits fs)

def build (t : Template) (tok : Token) : Emit Assembly := do
  if maxByte < t.fields.length then
    unsupported tok ("record " ++ t.typeName ++ " has more than 255 fields")
  let const ← intern (← template t)
  checkWord .new const tok.line
  return [⟨tok.line, .op .new [const, t.fields.length]⟩]

def joinParts (count : Nat) (tok : Token) : Emit Assembly := do
  let fn ← constant ((Native.object? "concat").getD .absent) tok.line
  return fn ++ (← call count tok)

def enter (tok : Token) : Emit Unit := modify fun s => { s with stmt := tok }

/-- Sets up a walk through a range: the index starts at its start and goes up to its end. -/
def walkRange (slots : LoopSlots) (start stop : Emit Assembly) (line : Int) : Emit Assembly := do
  let code := (← start) ++ (← declare slots.index line)
  let code := code ++ (← stop)
  return code ++ (← declare slots.limit line)

def walkArray (slots : LoopSlots) (items : Emit Assembly) (line : Int) : Emit Assembly := do
  let code := (← items) ++ (← declare slots.limit line)
  let code := code ++ (← constant (.int 0) line)
  return code ++ (← declare slots.index line)

def loopItem (slots : LoopSlots) (isRange : Bool) (line : Int) : Emit Assembly := do
  if isRange then load slots.index line
  else
    let items ← load slots.limit line
    return items ++ (← load slots.index line) ++ op .getElem line

def eachLoop (slots : LoopSlots) (isRange : Bool) (body : Emit Assembly) (line : Int) :
    Emit Assembly := do
  let index ← load slots.index line
  let limit ← load slots.limit line
  let test := index ++ limit ++ (if isRange then [] else op .len line) ++ op .lt line
  let item ← loopItem slots isRange line
  let head := item ++ (← declare slots.item line)
  let body ← body
  let index ← load slots.index line
  let one ← constant (.int 1) line
  let step := index ++ one ++ op .add line ++ (← assign slots.index line)
  return Assembly.countLoop test head body step line

mutual

def expr (inLoop : Bool) : Expr .typed → Emit Assembly
  | .name _ tok _ slot => loadSlot slot tok.line
  | .int _ tok n => constant (.int n) tok.line
  | .float _ tok x => constant (.float (.ofFloat x)) tok.line
  | .string _ tok s => constant (.str s) tok.line
  | .char _ tok c => constant (.char (Int32.ofNat c.toNat)) tok.line
  | .bool _ tok b => constant (.bool b) tok.line
  | .interpolated _ tok ps => do
    if ps.isEmpty then constant (.str "") tok.line
    else
      let code ← parts inLoop tok.line ps
      return code ++ (← joinParts ps.length tok)
  | .array _ tok es => do
    let code ← exprs inLoop es
    return code ++ (← word .makeArray es.length tok.line)
  | .unary _ tok o right => do
    let code ← expr inLoop right
    return code ++ op (match o with | .neg => .neg | .not => .not) tok.line
  | .binary _ tok o left right => do
    let left := expr inLoop left
    let right := expr inLoop right
    match o with
    | .and => return shortCircuit false (← left) (← right) tok.line
    | .or => return shortCircuit true (← left) (← right) tok.line
    | o =>
      match instruction? o with
      | none => unsupported tok ("operator " ++ o.symbol ++ " has no lowering")
      | some c =>
        let code ← left
        return code ++ ((← right) ++ op c tok.line)
  | .assign _ tok target value => store inLoop tok (expr inLoop value) target
  | .call _ tok info callee args => do
    let first := if info.viaReceiver then (receiver inLoop callee).getD (return []) else return []
    let code := (← first) ++ (← exprs inLoop args)
    let count := args.length + if info.viaReceiver then 1 else 0
    let callee := expr inLoop callee
    let target ←
      match info.isStatic, info.target with
      | true, some c => constant ((← get).program.object c) tok.line
      | true, none => unsupported tok "call has no resolved target"
      | false, _ => callee
    return code ++ target ++ (← call count tok)
  | .member _ _ left field => do
    let code ← expr inLoop left
    return code ++ (← named .getField field.text field.token.line)
  | .index _ tok left index => do
    let code := (← expr inLoop left) ++ (← expr inLoop index)
    return code ++ op .getIndex tok.line
  | .new _ tok t _ fields => do
    let code ← ordered (inits inLoop fields) t.fields
    return code ++ (← build t tok)
  | .tryUnwrap _ tok value => do
    return (← expr inLoop value) ++ op .unwrapOrReturn tok.line
  | .range _ tok _ _ => unsupported tok "a range can only be iterated by a for loop"
  | .block body => blockValue inLoop body
  | .cond _ tok test body alt => do
    let code ← expr inLoop test
    match optional inLoop alt with
    | some alt =>
      let yes ← blockValue inLoop body
      return code ++ Assembly.choice yes (← alt) tok.line
    | none =>
      let yes ← block inLoop body
      return code ++ Assembly.guarded yes tok.line ++ op .unit tok.line
  | .cases _ tok subject decl as => do
    let code ← expr inLoop subject
    let code := code ++ (← declare decl tok.line)
    return code ++ (← arms inLoop (load decl tok.line) tok.line as)

def exprs (inLoop : Bool) : List (Expr .typed) → Emit Assembly
  | [] => return []
  | e :: es => do
    let first ← expr inLoop e
    return first ++ (← exprs inLoop es)

def optional (inLoop : Bool) : Option (Expr .typed) → Option (Emit Assembly)
  | none => none
  | some e => some (expr inLoop e)

def receiver (inLoop : Bool) : Expr .typed → Option (Emit Assembly)
  | .member _ _ left _ => some (expr inLoop left)
  | _ => none

def store (inLoop : Bool) (tok : Token) (value : Emit Assembly) : Expr .typed → Emit Assembly
  | .name _ t _ slot => do
    let code ← value
    return code ++ op .dup tok.line ++ (← storeSlot slot t.line)
  | .member _ _ left field => do
    let object ← expr inLoop left
    let code ← value
    return object ++ op .dup tok.line ++ code ++ (← named .setField field.text tok.line)
      ++ op .popBelow tok.line
  | _ => unsupported tok "cannot assign to this expression"

def parts (inLoop : Bool) (line : Int) : List (Expr .typed) → Emit Assembly
  | [] => return []
  | e :: es => do
    let value := expr inLoop e
    let first ← match e.stringValue? with
      | some s => constant (.str s) line
      | none => (· ++ op .toText line) <$> value
    return first ++ (← parts inLoop line es)

def inits (inLoop : Bool) : List (FieldInit .typed) → List (String × Emit Assembly)
  | [] => []
  | .mk _ name value :: fs => (name, expr inLoop value) :: inits inLoop fs

def arms (inLoop : Bool) (subject : Emit Assembly) (line : Int) : List (Arm .typed) → Emit Assembly
  | [] => return op .unit line
  | .mk tok pat body :: as => do
    let tests ← pattern inLoop subject pat
    let body ← expr inLoop body
    return Assembly.arm tests body (← arms inLoop subject line as) tok.line

/-- The tests of a pattern against the value that `subject` pushes. Names are bound as they are
met. -/
def pattern (inLoop : Bool) (subject : Emit Assembly) : Pattern .typed → Emit Assembly
  | .wildcard _ => return []
  | .bind name decl => do
    let code ← subject
    return code ++ (← declare decl name.token.line)
  | .literal tok value => do
    let code := (← subject) ++ (← expr inLoop value)
    return code ++ op .eq tok.line ++ [⟨tok.line, .exit .miss⟩]
  | .ctor tok test _ args => do
    let code := (← subject) ++ (← named .checkType test.tag tok.line)
    let code := code ++ [⟨tok.line, .exit .miss⟩]
    if test.fields.length < args.length then
      unsupported tok ("pattern gives " ++ toString args.length ++ " fields, value has "
        ++ toString test.fields.length)
    return code ++ (← patterns inLoop subject tok.line test.fields args)

def patterns (inLoop : Bool) (subject : Emit Assembly) (line : Int) :
    List String → List (Pattern .typed) → Emit Assembly
  | f :: fs, p :: ps => do
    let field : Emit Assembly := do
      let code ← subject
      return code ++ (← named .getField f line)
    let first ← pattern inLoop field p
    return first ++ (← patterns inLoop subject line fs ps)
  | _, _ => return []

def block (inLoop : Bool) : Block .typed → Emit Assembly
  | .mk _ _ ss _ => stmts inLoop ss

/-- The code of a block that leaves the value of its last expression, or unit. -/
def blockValue (inLoop : Bool) : Block .typed → Emit Assembly
  | .mk _ _ ss close => stmtsValue inLoop close.line ss

def stmts (inLoop : Bool) : List (Stmt .typed) → Emit Assembly
  | [] => return []
  | s :: ss => do
    let first ← stmt inLoop s
    return first ++ (← stmts inLoop ss)

/-- The code of statements that leaves the value of the last expression, or unit. -/
def stmtsValue (inLoop : Bool) (line : Int) : List (Stmt .typed) → Emit Assembly
  | [] => return op .unit line
  | [.expr _ e] => expr inLoop e
  | s :: ss => do
    let first ← stmt inLoop s
    return first ++ (← stmtsValue inLoop line ss)

/-- The code of a function body. It returns the value of the last expression, or unit if `isUnit`
says that the value does not matter. -/
def body (isUnit : Bool) (line : Int) : List (Stmt .typed) → Emit Assembly
  | [] => return op .unit line ++ op .ret line
  | [.ret tok value] => returned false tok value
  | [.expr tok e] =>
    if isUnit then do
      enter tok
      let code ← expr false e
      return code ++ op .pop tok.line ++ op .unit line ++ op .ret line
    else do
      let code ← expr false e
      return code ++ op .ret tok.line
  | s :: ss => do
    let first ← stmt false s
    return first ++ (← body isUnit line ss)

def returned (inLoop : Bool) (tok : Token) : Option (Expr .typed) → Emit Assembly
  | none => return op .unit tok.line ++ op .ret tok.line
  | some e => do
    let code ← expr inLoop e
    return code ++ op .ret tok.line

def func : FunDecl .typed → Emit Unit
  | .mk tok _ info _ params _ (.mk _ _ ss close) =>
    withBody info fun f => do
      let self ← match info.self with
        | some b => paramCell b tok.line
        | none => pure []
      let cells ← params.mapM fun p => paramCell p.decl tok.line
      let isUnit := f.result.isUnknown || f.result.isUnit
      return self ++ cells.flatten ++ (← body isUnit close.line ss)

def funcs : List (FunDecl .typed) → Emit Unit
  | [] => return
  | d :: ds => do
    func d
    funcs ds

def bounds (inLoop : Bool) : Expr .typed → Option (Emit Assembly × Emit Assembly)
  | .range _ _ start stop => some (expr inLoop start, expr inLoop stop)
  | _ => none

def stmt (inLoop : Bool) : Stmt .typed → Emit Assembly
  | .expr tok e => do
    enter tok
    let code ← expr inLoop e
    return code ++ op .pop tok.line
  | .bind tok _ decl _ value => do
    enter tok
    let code ← expr inLoop value
    return code ++ (← declare decl tok.line)
  | .block b => do
    enter b.token
    block inLoop b
  | .ret tok value => do
    enter tok
    returned inLoop tok value
  | .loop tok test b => do
    enter tok
    let test ← expr inLoop test
    return Assembly.whileLoop test (← block true b) tok.line
  | .each tok _ slots series b => do
    enter tok
    let items := expr inLoop series
    let range := bounds inLoop series
    let start ← match range with
      | some (start, stop) => walkRange slots start stop tok.line
      | none => walkArray slots items tok.line
    return start ++ (← eachLoop slots range.isSome (block true b) tok.line)
  | .leave tok => do
    enter tok
    if inLoop then return [⟨tok.line, .exit .leave⟩]
    else unsupported tok "break outside of a loop"
  | .next tok => do
    enter tok
    if inLoop then return [⟨tok.line, .exit .next⟩]
    else unsupported tok "continue outside of a loop"
  | .func d => do
    enter d.token
    func d
    nested d.info d.token
  | .impl tok _ ds => do
    enter tok
    funcs ds
    return []
  | .record tok _ _ | .union tok _ _ | .use tok _ => do
    enter tok
    return []

end

end Scripting.Emit
