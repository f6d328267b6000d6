import Scripting.Command.Report

/-!
# Reading batches line by line

A batch ends with a line after which every bracket that was opened is closed. One engine is extended
with each batch.
-/

namespace Scripting

namespace Nesting

/-- What a line is inside of. -/
structure State where
  /-- How many more brackets were opened than closed. -/
  depth : Int := 0
  /-- The quote that a literal started with. -/
  quote : Option Char := none
  /-- Whether a backslash came just before, in a literal. -/
  escaped : Bool := false
  /-- Whether a slash came just before, outside a literal. -/
  slash : Bool := false

def opens (c : Char) : Bool := c == '\x7b' || c == '(' || c == '['
def closes (c : Char) : Bool := c == '\x7d' || c == ')' || c == ']'

def inLiteral (s : State) (q c : Char) : State :=
  if s.escaped then { s with escaped := false }
  else if c == '\\' then { s with escaped := true }
  else if c == q then { s with quote := none }
  else s

/-- Counts the brackets of the characters that are left; two slashes start a comment. -/
def count (s : State) : List Char → Int
  | [] => s.depth
  | c :: cs =>
    match s.quote with
    | some q => count (inLiteral s q c) cs
    | none =>
      if c == '"' || c == '\'' then count { s with quote := some c, slash := false } cs
      else if c == '/' then if s.slash then s.depth else count { s with slash := true } cs
      else if opens c then count { s with depth := s.depth + 1, slash := false } cs
      else if closes c then count { s with depth := s.depth - 1, slash := false } cs
      else count { s with slash := false } cs

end Nesting

/-- How many more brackets a line opens than it closes. Literals and comments do not count. -/
def nesting (line : String) : Int := Nesting.count {} line.toList

/-- Where an interactive session stands. -/
structure Repl where
  engine : Engine
  /-- The lines of the batch so far. -/
  batch : String := ""
  depth : Int := 0

namespace Repl

def file : String := "<repl>"

def prompt (s : Repl) : String := if s.batch.isEmpty then "jz> " else "... "

def evaluate (r : Report) (source : String) (e : Engine) : Printed × Engine :=
  match e.extend source file Engine.unlimited with
  | (.rejected ds, e) =>
    let (out, e) := e.takeOutput
    (⟨out, r.text source (.diagnostics ds)⟩, e)
  | (.ran o, e) =>
    let (p, _, e) := e.showRun r source o
    (p, e)

def addLine (s : Repl) (line : String) : Repl :=
  if line.isEmpty then s
  else { s with
    batch := s.batch ++ line ++ (if line.endsWith "\n" then "" else "\n")
    depth := s.depth + nesting line }

/-- Takes a line, and runs the batch if it is complete or the input is at its end. A batch of blanks is
passed over. -/
def feed (r : Report) (s : Repl) (line : String) (atEnd : Bool) : Printed × Repl :=
  let s := s.addLine line
  if 0 < s.depth && !atEnd then ({}, s)
  else if (Text.trim s.batch).isEmpty then ({}, { engine := s.engine })
  else
    let (p, e) := evaluate r s.batch s.engine
    (p, { engine := e })

def feedAll (r : Report) (prompts : Bool) (s : Repl) : List String → Printed
  | [] => {}
  | line :: lines =>
    let asked : Printed := ⟨if prompts then s.prompt else "", ""⟩
    if lines.isEmpty then asked ++ (s.feed r line true).1
    else
      let (p, s) := s.feed r (line ++ "\n") false
      asked ++ p ++ feedAll r prompts s lines

def session (r : Report) (prompts : Bool) (e : Engine) (input : String) : Printed :=
  feedAll r prompts { engine := e } (input.splitOn "\n")

end Repl

end Scripting
