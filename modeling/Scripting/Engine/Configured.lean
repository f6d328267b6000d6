import Scripting.Config.Basic
import Scripting.Files.Basic
import Scripting.Engine.Basic

/-!
# Engines for a place

A script is compiled under the configuration that is nearest above it. The configuration and the
manifests that it names are read from files.
-/

namespace Scripting

def firstWhere {m : Type → Type} [Monad m] {α : Type} (test : α → m Bool) : List α → m (Option α)
  | [] => return none
  | x :: xs => do if ← test x then return some x else firstWhere test xs

namespace Config

variable {m : Type → Type} [Monad m]

def candidates (dir : String) : List String :=
  (Path.ancestors dir).flatMap fun d => fileNames.map (Path.join d)

def load (disk : Disk m) (path : String) : m (Except String Config) := do
  match ← disk.read path with
  | .error e => return .error ("reading config " ++ path ++ ": " ++ e.message)
  | .ok bytes =>
    match parse bytes.text path with
    | .error f => return .error (f.message path)
    | .ok c => return .ok { c with dir := Path.absolute disk.workDir (Path.parent path) }

def find (disk : Disk m) (dir : String) : m (Except String Config) := do
  match ← firstWhere disk.isThere (candidates (Path.absolute disk.workDir dir)) with
  | none => return .ok {}
  | some path => load disk path

end Config

def Manifest.load {m : Type → Type} [Monad m] (disk : Disk m) (path : String) :
    m (Except String Manifest) := do
  match ← disk.read path with
  | .error e => return .error ("reading manifest " ++ path ++ ": " ++ e.message)
  | .ok bytes => return Manifest.ofDocument path (Document.ofYaml? bytes.text)

def Config.setup {m : Type → Type} [Monad m] (c : Config) (disk : Disk m) : m Engine.Setup := do
  let manifests ← c.manifestPaths.mapM fun path => do return (path, ← Manifest.load disk path)
  return { manifests, preload := c.preload }

def Config.engine {m : Type → Type} [Monad m] (c : Config) (disk : Disk m) :
    m (Except LoadError Engine) := do
  return Engine.new (← c.setup disk)

end Scripting
