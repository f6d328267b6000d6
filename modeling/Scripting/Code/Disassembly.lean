import Scripting.Code.Chunk

/-!
# Decoding and listing code

`Chunk.decode?` splits the code of a chunk into instructions; it has no answer if the last one is cut
off so that it cannot be read. `Chunk.disassemble?` lists them one a line.
-/

namespace Scripting

/-- Where a closure finds a captured variable: in a local slot of the function that makes it, or
among that function's own captured variables. -/
structure Capture where
  isLocal : Bool
  index : Nat
deriving DecidableEq, Repr, Inhabited

/-- A decoded instruction. -/
structure Decoded where
  offset : Nat
  byte : UInt8
  operands : List Nat
  captures : List Capture
  /-- How many bytes it takes. -/
  size : Nat

namespace Chunk

def operands? (c : Chunk) : (widths : List Nat) → (offset : Nat) → Option (List Nat)
  | [], _ => some []
  | w :: ws, offset => do
    let n ← if w == 1 then (c.code[offset]?).map (·.toNat) else c.peekWord? w offset
    let rest ← c.operands? ws (offset + w)
    return n :: rest

def captures? (c : Chunk) : (n offset : Nat) → Option (List Capture)
  | 0, _ => some []
  | n + 1, offset => do
    let flag ← c.code[offset]?
    let index ← c.peekWord? 2 (offset + 1)
    let rest ← c.captures? n (offset + 3)
    return ⟨flag == 1, index⟩ :: rest

def widthsOf (b : UInt8) : List Nat :=
  match Opcode.ofByte? b with
  | some op => op.widths
  | none => []

/-- The length of the instruction at an offset. Only the count of captured variables is read. -/
def instructionLength? (c : Chunk) (offset : Nat) : Option Nat := do
  let b ← c.code[offset]?
  let fixed := 1 + totalWidth (widthsOf b)
  if Opcode.ofByte? b == some .closure then
    let n ← c.code[offset + 3]?
    return fixed + 3 * n.toNat
  else return fixed

def decodeAt? (c : Chunk) (offset : Nat) : Option Decoded := do
  let b ← c.code[offset]?
  let size ← c.instructionLength? offset
  let operands ← c.operands? (widthsOf b) (offset + 1)
  let captures ←
    if Opcode.ofByte? b == some .closure then
      c.captures? (operands.getD 1 0) (offset + 4)
    else some []
  return ⟨offset, b, operands, captures, size⟩

/-- The instructions from an offset on. Each takes a byte at least, so as many rounds as there are
bytes are enough. -/
def decodeFrom? (c : Chunk) : (rounds offset : Nat) → Option (List Decoded)
  | 0, _ => some []
  | n + 1, offset =>
    if offset < c.code.size then do
      let d ← c.decodeAt? offset
      let rest ← c.decodeFrom? n (offset + d.size)
      return d :: rest
    else some []

def decode? (c : Chunk) : Option (List Decoded) := c.decodeFrom? c.code.size 0

def padLeft (width : Nat) (fill : Char) (s : String) : String :=
  String.ofList (List.replicate (width - s.length) fill) ++ s

/-- A number with at least `width` places; zeros go behind the sign, blanks before it. -/
def padNumber (width : Nat) (zeros : Bool) (n : Int) : String :=
  if zeros then
    if n < 0 then "-" ++ padLeft (width - 1) '0' (toString n.natAbs)
    else padLeft width '0' (toString n)
  else padLeft width ' ' (toString n)

def padRight (width : Nat) (s : String) : String :=
  s ++ String.ofList (List.replicate (width - s.length) ' ')

def constantText? (h : Heap) (c : Chunk) (i : Nat) : Option String :=
  match c.constants[i]? with
  | some .absent => none
  | some v => h.inspect? v
  | none => some "?"

def detail? (h : Heap) (c : Chunk) (d : Decoded) : Option String := do
  let named ←
    if (Opcode.ofByte? d.byte).any Opcode.namesConstant then
      (c.constantText? h (d.operands.headD 0)).map fun s => " '" ++ s ++ "'"
    else some ""
  return named ++ String.join (d.captures.map fun k =>
    (if k.isLocal then " local:" else " free:") ++ toString k.index)

/-- The rows of a listing; a line number is shown where it changes. Every instruction must have one,
and every constant that is shown a text. -/
def rows? (h : Heap) (c : Chunk) : Int → List Decoded → Option (List String)
  | _, [] => some []
  | previous, d :: ds => do
    let line ← c.lines[d.offset]?
    let row := padNumber 4 true d.offset ++ " "
      ++ (if line == previous then "   | " else padNumber 4 false line ++ " ")
      ++ padRight 16 (Opcode.nameOfByte d.byte)
      ++ String.join (d.operands.map fun n => " " ++ toString n)
      ++ (← c.detail? h d) ++ "\n"
    return row :: (← c.rows? h line ds)

def disassemble? (h : Heap) (c : Chunk) (name : String) : Option String := do
  let rows ← c.rows? h (-1) (← c.decode?)
  return "== " ++ name ++ " ==\n" ++ String.join rows

def functionRefs (constants : List Value) : List Ref :=
  constants.filterMap fun
    | .func r => some r
    | _ => none

end Chunk

namespace Heap

/-- Collects the functions reachable through constants, depth first, each once, in the order they
are first met; one without a body leads no further. `n` bounds the depth; the number of functions is
enough. -/
def reachFuncs (h : Heap) : Nat → (seen : List Ref) → List Ref → List Ref
  | 0, seen, _ => seen
  | n + 1, seen, refs =>
    refs.foldl (fun seen r =>
      if seen.contains r then seen
      else match h.func? r with
        | none => seen
        | some f =>
          let constants := f.chunk.map fun c => c.constants.toList
          h.reachFuncs n (seen ++ [r]) (Chunk.functionRefs (constants.getD []))) seen

def functionsOf (h : Heap) (c : Chunk) : List Ref :=
  h.reachFuncs (h.funcs.size + 1) [] (Chunk.functionRefs c.constants.toList)

/-- The bodies among functions, each under its name; a function without one is passed over. -/
def bodiesOf (h : Heap) (refs : List Ref) : List (String × Chunk) :=
  refs.filterMap fun r => do
    let f ← h.func? r
    return (f.name, ← f.chunk)

def disassembleAll? (h : Heap) (c : Chunk) (name : String) : Option String := do
  let first ← c.disassemble? h name
  let rest ← (h.bodiesOf (h.functionsOf c)).mapM fun (n, body) => body.disassemble? h n
  return String.join (first :: rest)

end Heap

end Scripting
