import Scripting.Script.Batch

/-!
# Which code a tree has

`Lowers` relates typed trees and their code without the state of code generation. Where a constant
stands is a fact about the finished pool, and what a record's constructor is a fact about the batch.
The code of a function declared in a tree is not part of it: it has a pool of its own.
-/

namespace Scripting

/-- What code is generated against: the program, the finished pool of the function, the constructors
of the batch, and the functions that are compiled with it. -/
structure Lowering where
  program : Program
  pool : Array Value
  template : Template → Value → Prop
  compiled : FunDecl .typed → Prop

namespace Lowering

open Assembly (op)
open Emit (maxWord maxByte)

variable (K : Lowering)

/-- Whether a constant, or one that counts as the same, stands at a place of the pool. -/
def Holds (k : Nat) (v : Value) : Prop := ∃ w, K.pool[k]? = some w ∧ w.constKey = v.constKey

def word (c : Opcode) (n : Nat) (line : Int) : Assembly := [⟨line, .op c [n]⟩]

def Const (v : Value) (line : Int) (c : Assembly) : Prop :=
  ∃ k, K.Holds k v ∧ k ≤ maxWord ∧ c = word .const k line

/-- An instruction whose operand is a name. -/
def Named (o : Opcode) (name : String) (line : Int) (c : Assembly) : Prop :=
  ∃ k, K.Holds k (.str name) ∧ k ≤ maxWord ∧ c = word o k line

def loadOp (x : Binding) : Opcode :=
  match x.storage, x.captured with
  | .global, _ => .getGlobal
  | .frame, true => .getCell
  | .frame, false => .getLocal

def declareOp (x : Binding) : Opcode :=
  match x.storage, x.captured with
  | .global, _ => .setGlobal
  | .frame, true => .makeCell
  | .frame, false => .setLocal

def assignOp (x : Binding) : Opcode :=
  match x.storage, x.captured with
  | .global, _ => .setGlobal
  | .frame, true => .setCell
  | .frame, false => .setLocal

def Addressed (b : BindingId) : Prop := (K.program.binding b).index ≤ maxWord

def load (b : BindingId) (line : Int) : Assembly :=
  word (loadOp (K.program.binding b)) (K.program.binding b).index line

def declare (b : BindingId) (line : Int) : Assembly :=
  word (declareOp (K.program.binding b)) (K.program.binding b).index line

def assign (b : BindingId) (line : Int) : Assembly :=
  word (assignOp (K.program.binding b)) (K.program.binding b).index line

def loadSlotOp (s : Slot) : Opcode :=
  match s.place with
  | .global => .getGlobal
  | .free => .getUpvalue
  | .frame => if (K.program.binding s.binding).captured then .getCell else .getLocal

def storeSlotOp (s : Slot) : Opcode :=
  match s.place with
  | .global => .setGlobal
  | .free => .setUpvalue
  | .frame => if (K.program.binding s.binding).captured then .setCell else .setLocal

def paramCell (b : BindingId) (line : Int) : Assembly :=
  if (K.program.binding b).captured then
    word .getLocal (K.program.binding b).index line ++ word .makeCell (K.program.binding b).index line
  else []

def call (count : Nat) (line : Int) : Assembly := [⟨line, .op .call [count]⟩]

/-- Code that pushes a closure. Of a function that is not listed there is none. -/
def Closure (info : FunSlots) (line : Int) (c : Assembly) : Prop :=
  match K.program.funs[info.id]? with
  | none => c = []
  | some f => info.free.length ≤ maxByte ∧ (∀ v ∈ info.free, v.index ≤ maxWord) ∧
      ∃ k, K.Holds k ((f.ref.map Value.func).getD .absent) ∧ k ≤ maxWord ∧
        c = [⟨line, .closure k (info.free.map fun v => ⟨v.fromFrame, v.index⟩)⟩]

def Nested (info : FunSlots) (line : Int) (c : Assembly) : Prop :=
  match info.binding with
  | none => c = []
  | some b =>
    match (K.program.binding b).storage, (K.program.binding b).captured with
    | .global, _ => c = []
    | .frame, true => K.Addressed b ∧ ∃ f, K.Closure info line f ∧
        c = op .unit line ++ word .makeCell (K.program.binding b).index line ++ f
          ++ word .setCell (K.program.binding b).index line
    | .frame, false => K.Addressed b ∧ ∃ f, K.Closure info line f ∧
        c = f ++ word .setLocal (K.program.binding b).index line

def Build (t : Template) (line : Int) (c : Assembly) : Prop :=
  t.fields.length ≤ maxByte ∧ ∃ k v, K.template t v ∧ K.Holds k v ∧ k ≤ maxWord ∧
    c = [⟨line, .op .new [k, t.fields.length]⟩]

def Ordered (inits : List (String × (Assembly → Prop))) : List String → Assembly → Prop
  | [], c => c = []
  | f :: fs, c => ∃ a b, ((inits.lookup f).getD (· = [])) a ∧ Ordered inits fs b ∧ c = a ++ b

def eachTest (slots : LoopSlots) (isRange : Bool) (line : Int) : Assembly :=
  K.load slots.index line ++ K.load slots.limit line ++ (if isRange then [] else op .len line)
    ++ op .lt line

def eachHead (slots : LoopSlots) (isRange : Bool) (line : Int) : Assembly :=
  (if isRange then K.load slots.index line
    else K.load slots.limit line ++ K.load slots.index line ++ op .getElem line)
    ++ K.declare slots.item line

def eachStep (slots : LoopSlots) (k : Nat) (line : Int) : Assembly :=
  K.load slots.index line ++ word .const k line ++ op .add line ++ K.assign slots.index line

def EachLoop (slots : LoopSlots) (isRange : Bool) (body : Assembly) (line : Int) (c : Assembly) :
    Prop :=
  K.Addressed slots.index ∧ K.Addressed slots.limit ∧ K.Addressed slots.item ∧
    ∃ k, K.Holds k (.int 1) ∧ k ≤ maxWord ∧ c = Assembly.countLoop (K.eachTest slots isRange line)
      (K.eachHead slots isRange line) body (K.eachStep slots k line) line

def unaryOp : UnaryOp → Opcode
  | .neg => .neg
  | .not => .not

def Binary (o : BinaryOp) (a b : Assembly) (line : Int) (c : Assembly) : Prop :=
  match o with
  | .and => c = Emit.shortCircuit false a b line
  | .or => c = Emit.shortCircuit true a b line
  | o => ∃ i, Emit.instruction? o = some i ∧ c = a ++ (b ++ op i line)

def Target (info : CallInfo) (line : Int) (callee : Assembly → Prop) (c : Assembly) : Prop :=
  match info.isStatic, info.target with
  | true, some f => K.Const (K.program.object f) line c
  | true, none => False
  | false, _ => callee c

end Lowering

namespace Lowers

open Assembly (op)
open Emit (maxWord maxByte)
open Lowering (word call)

mutual

def expr (K : Lowering) (inLoop : Bool) : Expr .typed → Assembly → Prop
  | .name _ tok _ slot, c => slot.index ≤ maxWord ∧ c = word (K.loadSlotOp slot) slot.index tok.line
  | .int _ tok n, c => K.Const (.int n) tok.line c
  | .float _ tok x, c => K.Const (.float (.ofFloat x)) tok.line c
  | .string _ tok s, c => K.Const (.str s) tok.line c
  | .char _ tok x, c => K.Const (.char (Int32.ofNat x.toNat)) tok.line c
  | .bool _ tok b, c => K.Const (.bool b) tok.line c
  | .interpolated _ tok ps, c =>
    if ps.isEmpty then K.Const (.str "") tok.line c
    else ps.length ≤ maxByte ∧ ∃ a f, parts K inLoop tok.line ps a ∧
      K.Const ((Native.object? "concat").getD .absent) tok.line f ∧
        c = a ++ (f ++ call ps.length tok.line)
  | .array _ tok es, c => es.length ≤ maxWord ∧ ∃ a, exprs K inLoop es a ∧
      c = a ++ word .makeArray es.length tok.line
  | .unary _ tok o right, c => ∃ a, expr K inLoop right a ∧ c = a ++ op (Lowering.unaryOp o) tok.line
  | .binary _ tok o left right, c => ∃ a b, expr K inLoop left a ∧ expr K inLoop right b ∧
      Lowering.Binary o a b tok.line c
  | .assign _ tok target value, c => ∃ v, expr K inLoop value v ∧ store K inLoop tok v target c
  | .call _ tok info callee args, c =>
    args.length + (if info.viaReceiver then 1 else 0) ≤ maxByte ∧ ∃ a b t,
      (if info.viaReceiver then receiver K inLoop callee a else a = []) ∧ exprs K inLoop args b ∧
        K.Target info tok.line (expr K inLoop callee) t ∧
          c = a ++ b ++ t ++ call (args.length + if info.viaReceiver then 1 else 0) tok.line
  | .member _ _ left field, c => ∃ a b, expr K inLoop left a ∧
      K.Named .getField field.text field.token.line b ∧ c = a ++ b
  | .index _ tok left index, c => ∃ a b, expr K inLoop left a ∧ expr K inLoop index b ∧
      c = a ++ b ++ op .getIndex tok.line
  | .new _ tok t _ fields, c => ∃ a b, Lowering.Ordered (inits K inLoop fields) t.fields a ∧
      K.Build t tok.line b ∧ c = a ++ b
  | .tryUnwrap _ tok value, c => ∃ a, expr K inLoop value a ∧ c = a ++ op .unwrapOrReturn tok.line
  | .range .., _ => False
  | .block body, c => blockValue K inLoop body c
  | .cond _ tok test body alt, c => ∃ t, expr K inLoop test t ∧
      match optional K inLoop alt with
      | some alt => ∃ y n, blockValue K inLoop body y ∧ alt n ∧ c = t ++ Assembly.choice y n tok.line
      | none => ∃ y, block K inLoop body y ∧ c = t ++ Assembly.guarded y tok.line ++ op .unit tok.line
  | .cases _ tok subject decl as, c => K.Addressed decl ∧ ∃ s a, expr K inLoop subject s ∧
      arms K inLoop (· = K.load decl tok.line) tok.line as a ∧ c = s ++ K.declare decl tok.line ++ a

def exprs (K : Lowering) (inLoop : Bool) : List (Expr .typed) → Assembly → Prop
  | [], c => c = []
  | e :: es, c => ∃ a b, expr K inLoop e a ∧ exprs K inLoop es b ∧ c = a ++ b

def optional (K : Lowering) (inLoop : Bool) : Option (Expr .typed) → Option (Assembly → Prop)
  | none => none
  | some e => some (expr K inLoop e)

def receiver (K : Lowering) (inLoop : Bool) : Expr .typed → Assembly → Prop
  | .member _ _ left _, c => expr K inLoop left c
  | _, c => c = []

def store (K : Lowering) (inLoop : Bool) (tok : Token) (v : Assembly) : Expr .typed → Assembly → Prop
  | .name _ t _ slot, c => slot.index ≤ maxWord ∧
      c = v ++ op .dup tok.line ++ word (K.storeSlotOp slot) slot.index t.line
  | .member _ _ left field, c => ∃ o s, expr K inLoop left o ∧
      K.Named .setField field.text tok.line s ∧
        c = o ++ op .dup tok.line ++ v ++ s ++ op .popBelow tok.line
  | _, _ => False

def parts (K : Lowering) (inLoop : Bool) (line : Int) : List (Expr .typed) → Assembly → Prop
  | [], c => c = []
  | e :: es, c => ∃ a b, (match e.stringValue? with
      | some s => K.Const (.str s) line a
      | none => ∃ v, expr K inLoop e v ∧ a = v ++ op .toText line) ∧
        parts K inLoop line es b ∧ c = a ++ b

def inits (K : Lowering) (inLoop : Bool) : List (FieldInit .typed) → List (String × (Assembly → Prop))
  | [] => []
  | .mk _ name value :: fs => (name, expr K inLoop value) :: inits K inLoop fs

/-- The arms of a match; `subject` is the code of what they test. -/
def arms (K : Lowering) (inLoop : Bool) (subject : Assembly → Prop) (line : Int) :
    List (Arm .typed) → Assembly → Prop
  | [], c => c = op .unit line
  | .mk tok pat body :: as, c => ∃ t b r, pattern K inLoop subject pat t ∧ expr K inLoop body b ∧
      arms K inLoop subject line as r ∧ c = Assembly.arm t b r tok.line

def pattern (K : Lowering) (inLoop : Bool) (subject : Assembly → Prop) :
    Pattern .typed → Assembly → Prop
  | .wildcard _, c => c = []
  | .bind name decl, c => K.Addressed decl ∧ ∃ s, subject s ∧ c = s ++ K.declare decl name.token.line
  | .literal tok value, c => ∃ s v, subject s ∧ expr K inLoop value v ∧
      c = s ++ v ++ op .eq tok.line ++ [⟨tok.line, .exit .miss⟩]
  | .ctor tok test _ args, c => args.length ≤ test.fields.length ∧ ∃ s t r, subject s ∧
      K.Named .checkType test.tag tok.line t ∧ patterns K inLoop subject tok.line test.fields args r ∧
        c = s ++ t ++ [⟨tok.line, .exit .miss⟩] ++ r

def patterns (K : Lowering) (inLoop : Bool) (subject : Assembly → Prop) (line : Int) :
    List String → List (Pattern .typed) → Assembly → Prop
  | f :: fs, q :: qs, c => ∃ a b,
      pattern K inLoop (fun x => ∃ s n, subject s ∧ K.Named .getField f line n ∧ x = s ++ n) q a ∧
        patterns K inLoop subject line fs qs b ∧ c = a ++ b
  | _, _, c => c = []

def block (K : Lowering) (inLoop : Bool) : Block .typed → Assembly → Prop
  | .mk _ _ ss _, c => stmts K inLoop ss c

def blockValue (K : Lowering) (inLoop : Bool) : Block .typed → Assembly → Prop
  | .mk _ _ ss close, c => stmtsValue K inLoop close.line ss c

def stmts (K : Lowering) (inLoop : Bool) : List (Stmt .typed) → Assembly → Prop
  | [], c => c = []
  | s :: ss, c => ∃ a b, stmt K inLoop s a ∧ stmts K inLoop ss b ∧ c = a ++ b

def stmtsValue (K : Lowering) (inLoop : Bool) (line : Int) : List (Stmt .typed) → Assembly → Prop
  | [], c => c = op .unit line
  | [.expr _ e], c => expr K inLoop e c
  | s :: ss, c => ∃ a b, stmt K inLoop s a ∧ stmtsValue K inLoop line ss b ∧ c = a ++ b

def bounds (K : Lowering) (inLoop : Bool) : Expr .typed → Option ((Assembly → Prop) × (Assembly → Prop))
  | .range _ _ start stop => some (expr K inLoop start, expr K inLoop stop)
  | _ => none

def returned (K : Lowering) (inLoop : Bool) (tok : Token) : Option (Expr .typed) → Assembly → Prop
  | none, c => c = op .unit tok.line ++ op .ret tok.line
  | some e, c => ∃ a, expr K inLoop e a ∧ c = a ++ op .ret tok.line

def stmt (K : Lowering) (inLoop : Bool) : Stmt .typed → Assembly → Prop
  | .expr tok e, c => ∃ a, expr K inLoop e a ∧ c = a ++ op .pop tok.line
  | .bind tok _ decl _ value, c => K.Addressed decl ∧ ∃ a, expr K inLoop value a ∧
      c = a ++ K.declare decl tok.line
  | .block b, c => block K inLoop b c
  | .ret tok value, c => returned K inLoop tok value c
  | .loop tok test b, c => ∃ t a, expr K inLoop test t ∧ block K true b a ∧
      c = Assembly.whileLoop t a tok.line
  | .each tok _ slots series b, c => K.Addressed slots.index ∧ K.Addressed slots.limit ∧
      ∃ start a l, block K true b a ∧
        K.EachLoop slots (bounds K inLoop series).isSome a tok.line l ∧ c = start ++ l ∧
        match bounds K inLoop series with
        | some (lo, hi) => ∃ x y, lo x ∧ hi y ∧
            start = x ++ K.declare slots.index tok.line ++ y ++ K.declare slots.limit tok.line
        | none => ∃ x z, expr K inLoop series x ∧ K.Const (.int 0) tok.line z ∧
            start = x ++ K.declare slots.limit tok.line ++ z ++ K.declare slots.index tok.line
  | .leave tok, c => inLoop = true ∧ c = [⟨tok.line, .exit .leave⟩]
  | .next tok, c => inLoop = true ∧ c = [⟨tok.line, .exit .next⟩]
  | .func d, c => K.compiled d ∧ K.Nested d.info d.token.line c
  | .impl _ _ ds, c => (∀ d ∈ ds, K.compiled d) ∧ c = []
  | .record .., c | .union .., c | .use .., c => c = []

end

def body (K : Lowering) (isUnit : Bool) (line : Int) : List (Stmt .typed) → Assembly → Prop
  | [], c => c = op .unit line ++ op .ret line
  | [.ret tok value], c => returned K false tok value c
  | [.expr tok e], c => ∃ a, expr K false e a ∧
      c = if isUnit then a ++ op .pop tok.line ++ op .unit line ++ op .ret line
        else a ++ op .ret tok.line
  | s :: ss, c => ∃ a b, stmt K false s a ∧ body K isUnit line ss b ∧ c = a ++ b

/-- The code of a function; `f` is its table entry. -/
def func (K : Lowering) (f : UserFunction) : FunDecl .typed → Assembly → Prop
  | .mk tok _ info _ params _ (.mk _ _ ss close), c =>
    (∀ b ∈ info.self.toList ++ params.map (·.decl), (K.program.binding b).captured = true →
      K.Addressed b) ∧
    ∃ a, body K (f.result.isUnknown || f.result.isUnit) close.line ss a ∧
      c = (info.self.toList ++ params.map (·.decl)).flatMap (fun b => K.paramCell b tok.line) ++ a

def topStmts (K : Lowering) (line : Int) : List (Stmt .typed) → Assembly → Prop
  | [], c => c = op .unit line ++ op .ret line
  | [.expr tok e], c => ∃ a, expr K false e a ∧ c = a ++ op .ret tok.line
  | s :: ss, c => ∃ a b, stmt K false s a ∧ topStmts K s.token.line ss b ∧ c = a ++ b

def initials (K : Lowering) (line : Int) : List (Nat × Value) → Assembly → Prop
  | [], c => c = []
  | (i, v) :: rest, c => i ≤ maxWord ∧ ∃ a b, K.Const v line a ∧ initials K line rest b ∧
      c = a ++ word .setGlobal i line ++ b

end Lowers

end Scripting
