import Scripting.Command.Perform

/-!
# The program

The command line on real files and streams. Everything that decides something is in `Terminal` and
`Repl`; here bytes are moved.
-/

namespace Scripting.Main

def cause : IO.Error → FileError.Cause
  | .noFileOrDirectory .. => .missing
  | .inappropriateType .. => .notDirectory
  | .alreadyExists .. => .occupied
  | e => .other (toString e)

def attempt {α : Type} (operation path : String) (act : IO α) : IO (Except FileError α) := do
  match ← act.toBaseIO with
  | .ok a => return .ok a
  | .error e => return .error ⟨operation, path, cause e⟩

def isThere (path : String) : IO Bool := do
  match ← (IO.FS.realPath path).toBaseIO with
  | .ok _ => return true
  | .error _ => return false

def isDir (path : String) : IO Bool := do
  match ← (IO.FS.realPath path).toBaseIO with
  | .ok p => p.isDir
  | .error _ => return false

/-- Reads a file; a directory is told apart because the system opens it all the same. -/
def readFile (path : String) : IO (Except FileError Bytes) := do
  if ← isDir path then return .error ⟨"read", path, .isDirectory⟩
  attempt "open" path (do return (← IO.FS.readBinFile path).toList)

def writeFile (path : String) (bytes : Bytes) : IO (Except FileError Unit) := do
  if ← isDir path then return .error ⟨"open", path, .isDirectory⟩
  attempt "open" path (IO.FS.writeBinFile path ⟨bytes.toArray⟩)

def cacheHome : IO (Option String) := do
  match ← IO.getEnv "XDG_CACHE_HOME", ← IO.getEnv "HOME" with
  | some dir, home =>
    if !dir.isEmpty then return some dir
    else return home.map (· ++ "/.cache")
  | none, home => return home.map (· ++ "/.cache")

def disk : IO (Disk IO) := do
  return {
    workDir := (← IO.currentDir).toString
    cacheHome := ← cacheHome
    read := readFile
    write := writeFile
    isThere := isThere
    makeDirs := fun path => attempt "mkdir" path (IO.FS.createDirAll path) }

def newId : IO String := do
  let digits := (Hex.encode (← IO.getRandomBytes 16).toList).toList
  let group (start count : Nat) : String := String.ofList ((digits.drop start).take count)
  return "-".intercalate [group 0 8, group 8 4, group 12 4, group 16 4, group 20 12]

partial def readAll (input : IO.FS.Stream) (before : ByteArray) : IO Bytes := do
  let more ← input.read 65536
  if more.isEmpty then return before.toList else readAll input (before ++ more)

def terminal : IO (Terminal IO) := do
  let input ← IO.getStdin
  return {
    disk := ← disk
    input := readAll input .empty
    newId := newId
    report := ⟨← (← IO.getStderr).isTty⟩
    interactive := ← input.isTty }

def write (p : Printed) : IO Unit := do
  let out ← IO.getStdout
  out.putStr p.out
  out.flush
  (← IO.getStderr).putStr p.err

/-- Answers each line as soon as it is typed. -/
partial def converse (r : Report) (input : IO.FS.Stream) (s : Repl) : IO Unit := do
  write ⟨s.prompt, ""⟩
  let line ← input.getLine
  let atEnd := !line.endsWith "\n"
  let (p, s) := s.feed r line atEnd
  write p
  if atEnd then return else converse r input s

def session (t : Terminal IO) : IO UInt32 := do
  match ← (t.engineFor "" "").run with
  | .error e =>
    write (t.stop e).printed
    return 1
  | .ok (_, e) =>
    converse t.report (← IO.getStdin) { engine := e }
    return 0

def run (args : List String) : IO UInt32 := do
  let t ← terminal
  let c := Command.parse t.interactive args
  match c, t.interactive with
  | .repl, true => session t
  | c, _ =>
    let r ← t.perform c
    write r.printed
    return UInt32.ofNat r.code

end Scripting.Main

def main (args : List String) : IO UInt32 := Scripting.Main.run args
