import Scripting.Code.Disassembly

/-!
# Code with relative jumps

An assembly is a list of instructions, each with its source line, whose jumps count instructions. It
can be put behind or before other code without change. `Assembly.chunk` places it: every jump gets
the offset of the instruction that it goes to.
-/

namespace Scripting

/-- Where control goes when a piece of code is left early. -/
inductive Exit where
  /-- Behind the innermost loop. -/
  | leave
  /-- To the next round of the innermost loop. -/
  | next
  /-- To the next arm of a match, if the value on top of the stack is false. -/
  | miss
deriving DecidableEq, Repr

/-- An instruction whose place in the code is not known yet. -/
inductive Asm where
  /-- An instruction with its operands, but no jump and no `closure`. -/
  | op (code : Opcode) (operands : List Nat)
  | closure (const : Nat) (captures : List Capture)
  /-- Skips instructions. -/
  | skip (count : Nat)
  /-- Skips instructions if the value on top of the stack is false. -/
  | skipIfFalse (count : Nat)
  /-- Goes back as many instructions. -/
  | back (count : Nat)
  /-- A jump that the code around it settles. -/
  | exit (kind : Exit)
deriving Repr

/-- An instruction on a source line. -/
structure Asm.Line where
  line : Int
  asm : Asm
deriving Repr

abbrev Assembly := List Asm.Line

namespace Asm

def size : Asm → Nat
  | op c _ => 1 + totalWidth c.widths
  | closure _ captures => 4 + 3 * captures.length
  | skip _ | skipIfFalse _ | back _ | exit _ => 5

def captureBytes (c : Capture) : List UInt8 :=
  (if c.isLocal then 1 else 0) :: littleEndian 2 c.index

/-- The bytes of an instruction. `start` gives the offset of each instruction of the code, and `i` is
the place of this one. -/
def bytes (start : Nat → Nat) (i : Nat) : Asm → List UInt8
  | op c operands => c.byte :: (c.widths.zip operands).flatMap fun (w, n) => littleEndian w n
  | closure const captures =>
    Opcode.closure.byte :: littleEndian 2 const
      ++ littleEndian 1 captures.length ++ captures.flatMap captureBytes
  | skip n => Opcode.jump.byte :: littleEndian 4 (start (i + 1 + n))
  | skipIfFalse n => Opcode.jumpIfFalse.byte :: littleEndian 4 (start (i + 1 + n))
  | back n => Opcode.loop.byte :: littleEndian 4 (start (i - n))
  | exit _ => Opcode.jump.byte :: littleEndian 4 (start (i + 1))

end Asm

namespace Assembly

def op (c : Opcode) (line : Int) : Assembly := [⟨line, .op c []⟩]

def starts (code : Assembly) : Array Nat :=
  code.foldl (fun xs l => xs.push (xs.back?.getD 0 + l.asm.size)) #[0]

/-- Writes instructions one behind the other; the first of them has place `i`. -/
def write (start : Nat → Nat) : Nat → Chunk → Assembly → Chunk
  | _, c, [] => c
  | i, c, l :: ls => write start (i + 1) (c.writeBytes (l.asm.bytes start i) l.line) ls

def chunk (code : Assembly) (constants : Array Value) (file : String) : Chunk :=
  let xs := code.starts
  code.write (fun i => xs.getD i 0) 0 { constants := constants, file := file }

/-- Settles exits of one kind. `jump` is given how many instructions of the code stand before and
behind the exit. -/
def settle (kind : Exit) (jump : (before behind : Nat) → Asm) (code : Assembly) : Assembly :=
  let size := code.length
  code.mapIdx fun i l =>
    match l.asm with
    | .exit k => if k = kind then { l with asm := jump i (size - i - 1) } else l
    | _ => l

/-- Runs code while a test holds:

    test; leave if false; body; back

The next round starts with the test. -/
def whileLoop (test body : Assembly) (line : Int) : Assembly :=
  let body := body.settle .leave fun _ behind => .skip (behind + 1)
  let body := body.settle .next fun before _ => .back (test.length + 1 + before)
  test ++ [⟨line, .skipIfFalse (body.length + 1)⟩] ++ body
    ++ [⟨line, .back (test.length + 1 + body.length)⟩]

/-- Runs code while a test holds, with a step behind each round:

    test; leave if false; head; body; step; back

The next round starts with the step. -/
def countLoop (test head body step : Assembly) (line : Int) : Assembly :=
  let body := body.settle .leave fun _ behind => .skip (behind + step.length + 1)
  let body := body.settle .next fun _ behind => .skip behind
  let round := head ++ body ++ step
  test ++ [⟨line, .skipIfFalse (round.length + 1)⟩] ++ round
    ++ [⟨line, .back (test.length + 1 + round.length)⟩]

def choice (yes no : Assembly) (line : Int) : Assembly :=
  [⟨line, .skipIfFalse (yes.length + 1)⟩] ++ yes ++ [⟨line, .skip no.length⟩] ++ no

def guarded (code : Assembly) (line : Int) : Assembly :=
  ⟨line, .skipIfFalse code.length⟩ :: code

/-- One arm of a match: tests, then the body and a jump over `rest`, the code for a value that the
tests refuse. -/
def arm (tests body rest : Assembly) (line : Int) : Assembly :=
  (tests.settle .miss fun _ behind => .skipIfFalse (behind + body.length + 1))
    ++ body ++ [⟨line, .skip rest.length⟩] ++ rest

end Assembly

end Scripting
