import Scripting.Command.Basic
import Scripting.Command.Repl
import Scripting.Bundle.Cache
import Scripting.Engine.Configured
import Scripting.Code.Disassembly

/-!
# Performing commands
-/

namespace Scripting

/-- What a command works with. -/
structure Terminal (m : Type → Type) where
  disk : Disk m
  /-- All of the input that is left. -/
  input : m Bytes
  /-- A new identity for a bundle. -/
  newId : m String
  report : Report
  /-- Whether the input is typed. -/
  interactive : Bool

/-- What a command writes, and the code that it ends with. -/
structure Command.Result where
  printed : Printed := {}
  code : Nat := 0

namespace Terminal

variable {m : Type → Type} [Monad m] (t : Terminal m)

/-- A failure, with the source it is about. -/
structure Trouble where
  cause : Command.Error
  source : String := ""

abbrev Task (m : Type → Type) := ExceptT Trouble m

def stopWith (text : String) : Command.Result := ⟨⟨"", text⟩, 1⟩

def done (text : String) : Command.Result := ⟨⟨text, ""⟩, 0⟩

def stop (e : Trouble) : Command.Result := stopWith (t.report.text e.source e.cause)

def readBytes (path : String) : m (Except FileError Bytes) := do
  if path == "-" then return .ok (← t.input) else t.disk.read path

def displayName (path : String) : String := if path == "-" then "<stdin>" else path

def readSource (path : String) : Task m String := do
  match ← t.readBytes path with
  | .ok bytes => return bytes.text
  | .error e => throw ⟨.message ("reading input: " ++ e.message), ""⟩

def engineFor (path source : String) : Task m (Config × Engine) := do
  let dir := if path == "-" || path.isEmpty then "." else Path.parent path
  match ← (Config.find t.disk dir : m (Except String Config)) with
  | .error text => throw ⟨.message text, source⟩
  | .ok c =>
    match ← (c.engine t.disk : m (Except LoadError Engine)) with
    | .error e => throw ⟨.ofLoad e, source⟩
    | .ok e => return (c, e)

def defaultCachePath : String :=
  match t.disk.cacheHome with
  | none => Path.join ".jitzu" "bundles.db"
  | some dir => Path.join dir "jitzu/bundles.db"

/-- A script that is ready to run. -/
structure Compiled where
  source : String
  engine : Engine
  script : Ref

def compileThrough (cachePath source path : String) (e : Engine) : Task m Compiled := do
  match ← (Cache.openFile t.disk cachePath : m (Except Cache.OpenError Cache)) with
  | .error err => throw ⟨.message err.message, source⟩
  | .ok c =>
    let (result, c, e) := e.compileCached c source (displayName path) (← t.newId)
    match ← (Cache.saveFile t.disk cachePath c : m (Except Cache.OpenError Unit)) with
    | .error err => throw ⟨.message err.message, source⟩
    | .ok () =>
      match result with
      | .ok x => return ⟨source, e, x.script⟩
      | .error (.rejected ds) => throw ⟨.diagnostics ds, source⟩
      | .error (.notStorable err) => throw ⟨.ofCollect err, source⟩

/-- Compiles a file, through a cache if the project has one or one is asked for. -/
def compile (path : String) (useCache : Bool) : Task m Compiled := do
  let source ← t.readSource path
  let (c, e) ← t.engineFor path source
  let cachePath := if c.cachePath.isEmpty && useCache then t.defaultCachePath else c.cachePath
  if cachePath.isEmpty then
    match e.compile source (displayName path) with
    | (.error ds, _) => throw ⟨.diagnostics ds, source⟩
    | (.ok script, e) => return ⟨source, e, script⟩
  else t.compileThrough cachePath source path e

def execute (x : Compiled) : Command.Result :=
  let (o, e) := x.engine.run x.script Engine.unlimited
  let (printed, isDone, _) := e.showRun t.report x.source o
  ⟨printed, if isDone then 0 else 1⟩

def run (path : String) (o : Command.Options) : Task m Command.Result := do
  return t.execute (← t.compile path o.useCache)

def bundleExtension : String := ".jzb"

def bundlePath (path : String) (o : Command.Options) : String :=
  if !o.output.isEmpty then o.output
  else (if path == "-" then "stdin" else Path.withoutExtension path) ++ bundleExtension

def build (path : String) (o : Command.Options) : Task m Command.Result := do
  let x ← t.compile path false
  match x.engine.bundle x.script (displayName path) (← t.newId) with
  | .error e => throw ⟨.ofCollect e, x.source⟩
  | .ok b =>
    let bytes := b.encode
    let out := bundlePath path o
    match ← t.disk.write out bytes with
    | .error e => return stopWith ("Error writing bundle: " ++ e.message ++ "\n")
    | .ok () =>
      return done ("Compiled " ++ displayName path ++ " -> " ++ out ++ "\n"
        ++ "Bytecode size: " ++ toString bytes.length ++ " bytes\n")

def exec (path : String) : Task m Command.Result := do
  match ← t.readBytes path with
  | .error e => return stopWith ("Error reading bundle: " ++ e.message ++ "\n")
  | .ok bytes =>
    let (_, e) ← t.engineFor path ""
    match e.loadBundle bytes with
    | (.error err, _) => throw ⟨.ofLoad err, ""⟩
    | (.ok script, e) => return t.execute ⟨"", e, script⟩

def checked (path : String) : Task m (Source .typed × Program) := do
  let source ← t.readSource path
  let (_, e) ← t.engineFor path source
  match e.check source (displayName path) with
  | (.error ds, _) => throw ⟨.diagnostics ds, source⟩
  | (.ok r, _) => return r

def check (path : String) : Task m Command.Result := do
  let _ ← t.checked path
  return done (displayName path ++ ": ok\n")

def ast (path : String) : Task m Command.Result := do
  let (src, p) ← t.checked path
  return done (src.text (Style.slots p))

def disasm (path : String) : Task m Command.Result := do
  let x ← t.compile path false
  let listing := do
    let f ← x.engine.heap.func? x.script
    x.engine.heap.disassembleAll? (← f.chunk) (displayName path)
  return done (listing.getD "")

def repl : Task m Command.Result := do
  let (_, e) ← t.engineFor "" ""
  let input ← t.input
  return ⟨Repl.session t.report t.interactive e (Bytes.text input), 0⟩

def onFile (action : Command.Action) (path : String) (o : Command.Options) : Task m Command.Result :=
  match action with
  | .run => t.run path o
  | .build => t.build path o
  | .exec => t.exec path
  | .check => t.check path
  | .disasm => t.disasm path
  | .ast => t.ast path
  | .hostgen => throw ⟨.message "loading packages: no toolchain", ""⟩

def perform (c : Command) : m Command.Result := do
  let result ← (match c with
    | .help => return done Command.usage
    | .repl => t.repl
    | .onFile action path o => t.onFile action path o
    | .misused text => return ⟨⟨"", text⟩, 2⟩ : Task m Command.Result).run
  match result with
  | .ok r => return r
  | .error e => return t.stop e

end Terminal

end Scripting
