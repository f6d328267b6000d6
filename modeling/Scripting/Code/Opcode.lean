/-!
# The instruction set

Each instruction is one byte followed by operands of fixed widths, little-endian. `closure` alone has
a tail: a descriptor of three bytes for each captured variable.
-/

namespace Scripting

/-- Instructions. -/
inductive Opcode where
  | const | pop | popBelow | dup | unit
  | add | sub | mul | div | mod | neg
  | eq | ne | lt | le | gt | ge
  | bitOr | not
  | getLocal | setLocal | getGlobal | setGlobal
  | makeCell | getCell | setCell | getUpvalue | setUpvalue | closure
  | jump | jumpIfFalse | loop
  | call | ret
  | getField | setField | new | makeArray | getIndex | getElem | len | checkType | toText
  | unwrapOrReturn
deriving DecidableEq, Repr, Inhabited

namespace Opcode

def all : List Opcode :=
  [const, pop, popBelow, dup, unit, add, sub, mul, div, mod, neg, eq, ne, lt, le, gt, ge, bitOr, not,
   getLocal, setLocal, getGlobal, setGlobal, makeCell, getCell, setCell, getUpvalue, setUpvalue,
   closure, jump, jumpIfFalse, loop, call, ret, getField, setField, new, makeArray, getIndex,
   getElem, len, checkType, toText, unwrapOrReturn]

def byte : Opcode → UInt8
  | const => 0 | pop => 1 | popBelow => 2 | dup => 3 | unit => 4
  | add => 5 | sub => 6 | mul => 7 | div => 8 | mod => 9 | neg => 10
  | eq => 11 | ne => 12 | lt => 13 | le => 14 | gt => 15 | ge => 16
  | bitOr => 17 | not => 18
  | getLocal => 19 | setLocal => 20 | getGlobal => 21 | setGlobal => 22
  | makeCell => 23 | getCell => 24 | setCell => 25 | getUpvalue => 26 | setUpvalue => 27
  | closure => 28
  | jump => 29 | jumpIfFalse => 30 | loop => 31
  | call => 32 | ret => 33
  | getField => 34 | setField => 35 | new => 36 | makeArray => 37 | getIndex => 38 | getElem => 39
  | len => 40 | checkType => 41 | toText => 42 | unwrapOrReturn => 43

def ofByte? (b : UInt8) : Option Opcode := all[b.toNat]?

def name : Opcode → String
  | const => "CONST" | pop => "POP" | popBelow => "POP_BELOW" | dup => "DUP" | unit => "UNIT"
  | add => "ADD" | sub => "SUB" | mul => "MUL" | div => "DIV" | mod => "MOD" | neg => "NEG"
  | eq => "EQ" | ne => "NE" | lt => "LT" | le => "LE" | gt => "GT" | ge => "GE"
  | bitOr => "BOR" | not => "NOT"
  | getLocal => "GET_LOCAL" | setLocal => "SET_LOCAL"
  | getGlobal => "GET_GLOBAL" | setGlobal => "SET_GLOBAL"
  | makeCell => "MAKE_CELL" | getCell => "GET_CELL" | setCell => "SET_CELL"
  | getUpvalue => "GET_UPVALUE" | setUpvalue => "SET_UPVALUE" | closure => "CLOSURE"
  | jump => "JUMP" | jumpIfFalse => "JUMP_IF_FALSE" | loop => "LOOP"
  | call => "CALL" | ret => "RETURN"
  | getField => "GET_FIELD" | setField => "SET_FIELD" | new => "NEW" | makeArray => "MAKE_ARRAY"
  | getIndex => "GET_INDEX" | getElem => "GET_ELEM" | len => "LEN" | checkType => "CHECK_TYPE"
  | toText => "TO_STRING" | unwrapOrReturn => "UNWRAP_OR_RETURN"

def ofName? (s : String) : Option Opcode := all.find? fun op => op.name == s

def nameOfByte (b : UInt8) : String :=
  match ofByte? b with
  | some op => op.name
  | none => "UNKNOWN"

def widths : Opcode → List Nat
  | const | getLocal | setLocal | getGlobal | setGlobal | makeCell | getCell | setCell
  | getUpvalue | setUpvalue | getField | setField | makeArray | checkType => [2]
  | closure | new => [2, 1]
  | jump | jumpIfFalse | loop => [4]
  | call => [1]
  | _ => []

def namesConstant : Opcode → Bool
  | const | getField | setField | new | checkType | closure => true
  | _ => false

end Opcode

def totalWidth (widths : List Nat) : Nat := widths.foldr (fun w n => w + n) 0

end Scripting
