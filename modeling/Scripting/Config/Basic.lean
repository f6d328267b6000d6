import Scripting.Document.Yaml
import Scripting.Document.Toml
import Scripting.Files.Basic
import Scripting.Text.Quoted

/-!
# Project configurations

A configuration names the manifests of a project, the modules in scope without a `use`, and the place of
the bundle cache. Its paths start from the directory of the file that it was read from.
-/

namespace Scripting

/-- The configuration of a project. -/
structure Config where
  /-- Manifest files. -/
  manifests : List String := []
  /-- Modules in scope without a `use`. -/
  preload : List String := ["System"]
  /-- The cache file; there is no cache if it is empty. -/
  cache : String := ""
  /-- How much is logged. -/
  verbosity : Int := 0
  /-- Whether compiled code is listed. -/
  disasm : Bool := false
  /-- The directory that relative paths start from. -/
  dir : String := ""

namespace Config

/-- What is wrong with a configuration. -/
inductive Fault where
  | unreadable
  | verbosity (given : Int)
  | emptyModule (index : Nat)
  | duplicateModule (index : Nat) (name : String)
  | emptyManifest (index : Nat)

def Fault.message (path : String) : Fault → String
  | unreadable => "parsing " ++ path
  | verbosity n => path ++ ": verbosity must be 0, 1 or 2, got " ++ toString n
  | emptyModule i => path ++ ": preload[" ++ toString i ++ "]: module name is empty"
  | duplicateModule i name =>
    path ++ ": preload[" ++ toString i ++ "]: duplicate module " ++ Text.quoted name
  | emptyManifest i => path ++ ": manifests[" ++ toString i ++ "]: path is empty"

def preloadFault? (seen : List String) : List String → Option Fault
  | [] => none
  | name :: names =>
    if name.isEmpty then some (.emptyModule seen.length)
    else if seen.contains name then some (.duplicateModule seen.length name)
    else preloadFault? (seen ++ [name]) names

def fault? (c : Config) : Option Fault :=
  if c.verbosity < 0 || 2 < c.verbosity then some (.verbosity c.verbosity)
  else preloadFault? [] c.preload <|> (c.manifests.idxOf? "").map .emptyManifest

open Document (readText readInt readBool readList readRecord field Reading Rules)

def read (r : Rules) : Document → Reading Config :=
  readRecord fun e => do
    let manifests ← field r e "manifests" [] (readList (readText r))
    let preload ← field r e "preload" ["System"] (readList (readText r))
    let cache ← field r e "cache" "" (readText r)
    let verbosity ← field r e "verbosity" 0 (readInt r)
    let disasm ← field r e "disasm" false (readBool r)
    return { manifests, preload, cache, verbosity, disasm }

/-- The document in a text, and its rules. The extension of the path tells the format. -/
def document? (text path : String) : Rules × Option Document :=
  if path.endsWith ".toml" then (.typed, Document.ofToml? text) else (.block, Document.ofYaml? text)

def parse (text path : String) : Except Fault Config :=
  let (r, d) := document? text path
  match d.map (read r) with
  | some (.ok c) =>
    let c := c.getD {}
    match c.fault? with
    | some f => .error f
    | none => .ok c
  | _ => .error .unreadable

def resolve (c : Config) (path : String) : String :=
  if Path.isAbsolute path || c.dir.isEmpty then path else Path.join c.dir path

def manifestPaths (c : Config) : List String := c.manifests.map c.resolve

def cachePath (c : Config) : String := if c.cache.isEmpty then "" else c.resolve c.cache

/-- The names of configuration files; of two in one directory the first counts. -/
def fileNames : List String := ["jitzu.yaml", "jitzu.yml", "jitzu.toml"]

end Config

end Scripting
