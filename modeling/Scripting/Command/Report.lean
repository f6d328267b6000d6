import Scripting.Engine.Bundle

/-!
# Reporting failures

Diagnostics are shown with the line of source they are about and a mark under its column. Everything
else is one line.
-/

namespace Scripting

/-- What a command writes to its two streams. -/
structure Printed where
  out : String := ""
  err : String := ""

instance : Append Printed where
  append a b := ⟨a.out ++ b.out, a.err ++ b.err⟩

/-- Why a command stops. -/
inductive Command.Error where
  | diagnostics (ds : List Diagnostic)
  | message (text : String)

namespace Command.Error

/-- A failure to load a module; if it is a type that cannot be read, that is what is reported. -/
def ofLoad (e : LoadError) : Command.Error :=
  match e.cause with
  | some d => .diagnostics [d]
  | none => .message e.message

def ofCollect : Bundle.CollectError → Command.Error
  | .message text => .message text
  | .fault => .message "the script cannot be stored"

end Command.Error

/-- How failures are shown. -/
structure Report where
  /-- Whether what matters is painted red. -/
  color : Bool

namespace Report

def paint (r : Report) (s : String) : String :=
  if r.color then "\x1b[31m" ++ s ++ "\x1b[0m" else s

def paintFirst (r : Report) (part s : String) : String :=
  match s.splitOn part with
  | before :: after@(_ :: _) => before ++ r.paint part ++ part.intercalate after
  | _ => s

/-- A line of a text, counted from 1, without the return characters at its end. -/
def sourceLine (source : String) (n : Int) : String :=
  if n ≤ 0 then ""
  else
    let line := ((source.splitOn "\n")[n.toNat - 1]?).getD ""
    String.ofList (line.toList.reverse.dropWhile (· == '\r')).reverse

/-- The line under a line of source that marks a column. A column too far right is not marked. -/
def caret (r : Report) (line : String) (col : Int) : String :=
  if 0 < col && col ≤ line.utf8ByteSize + 1 then
    "  " ++ String.ofList (List.replicate (col.toNat - 1) ' ') ++ r.paint "^" ++ "\n"
  else ""

def diagnostic (r : Report) (source : String) (d : Diagnostic) : String :=
  let head := r.paintFirst ("error [" ++ d.code.text ++ "]") d.text ++ "\n"
  let line := sourceLine source d.token.line
  if line.isEmpty then head else head ++ "  " ++ line ++ "\n" ++ r.caret line d.token.col

def text (r : Report) (source : String) : Command.Error → String
  | .diagnostics ds => String.join (ds.map (r.diagnostic source))
  | .message m => r.paint "Error:" ++ " " ++ m ++ "\n"

end Report

def Heap.resultLine (h : Heap) : Value → String
  | .absent => ""
  | .unit => ""
  | v => (h.inspect? v).getD "" ++ "\n"

namespace Engine

def unlimited : Nat := Nat.pow 2 60

def showRun (e : Engine) (r : Report) (source : String) (o : Outcome) : Printed × Bool × Engine :=
  let (out, e) := e.takeOutput
  match o with
  | .value v => (⟨out ++ e.heap.resultLine v, ""⟩, true, e)
  | .failed d => (⟨out, r.diagnostic source d⟩, false, e)
  | .crashed | .unfinished => (⟨out, r.text source (.message "the script cannot be run")⟩, false, e)

end Engine

end Scripting
