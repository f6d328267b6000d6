/-!
# Files

A path is a text whose parts are divided by slashes. It is absolute if it starts with one. `Path.clean`
gives the shortest spelling that names the same place without looking at any file.

What the commands ask of a file system, and a file system as a value. `Disk` is the interface: its
operations run in any monad, so that the commands work on real files and on `Files` alike. `Files` holds
the contents of files by their place; a directory is there if something was made below it.
-/

namespace Scripting

namespace Path

def isAbsolute (path : String) : Bool := path.startsWith "/"

def parts (path : String) : List String :=
  (path.splitOn "/").filter fun p => p != "" && p != "."

/-- Adds a part below the parts so far, which come last first. A step up takes the last part away; at
the root it does nothing, and above a relative start it is kept. -/
def descend (rooted : Bool) (above : List String) (part : String) : List String :=
  if part == ".." then
    match above with
    | [] => if rooted then [] else [".."]
    | top :: rest => if top == ".." then ".." :: above else rest
  else part :: above

def reduce (rooted : Bool) (ps : List String) : List String :=
  (ps.foldl (descend rooted) []).reverse

def clean (path : String) : String :=
  let body := "/".intercalate (reduce (isAbsolute path) (parts path))
  if isAbsolute path then "/" ++ body
  else if body.isEmpty then "." else body

def join (base path : String) : String :=
  if base.isEmpty then (if path.isEmpty then "" else clean path)
  else if path.isEmpty then clean base
  else clean (base ++ "/" ++ path)

def parent (path : String) : String :=
  clean (String.ofList (path.toList.reverse.dropWhile (· != '/')).reverse)

def extension (path : String) : String :=
  let name := (path.toList.reverse.takeWhile (· != '/')).reverse
  if name.contains '.' then String.ofList ('.' :: (name.reverse.takeWhile (· != '.')).reverse) else ""

def withoutExtension (path : String) : String :=
  (path.dropEnd (extension path).length).toString

def absolute (workDir path : String) : String :=
  if isAbsolute path then clean path else join workDir path

def ancestors (dir : String) : List String :=
  let names := (parts dir).reverse
  (List.range (names.length + 1)).map fun i => "/" ++ "/".intercalate (names.drop i).reverse

end Path

/-- What is wrong with a path. -/
inductive FileError.Cause where
  | missing
  | notDirectory
  | isDirectory
  | occupied
  | other (text : String)

def FileError.Cause.text : FileError.Cause → String
  | missing => "no such file or directory"
  | notDirectory => "not a directory"
  | isDirectory => "is a directory"
  | occupied => "file exists"
  | other text => text

/-- An operation on a path that failed. -/
structure FileError where
  operation : String
  path : String
  cause : FileError.Cause

def FileError.message (e : FileError) : String :=
  e.operation ++ " " ++ e.path ++ ": " ++ e.cause.text

abbrev Bytes := List UInt8

/-- The text that bytes stand for. A byte that is part of no character reads as U+FFFD. -/
def Bytes.text (bytes : Bytes) : String :=
  match String.fromUTF8? ⟨bytes.toArray⟩ with
  | some s => s
  | none => go bytes.length bytes
where
  /-- Reads the longest character in front, of at most four bytes. -/
  first? (bytes : Bytes) : Option (String × Bytes) :=
    [1, 2, 3, 4].findSome? fun n =>
      (String.fromUTF8? ⟨(bytes.take n).toArray⟩).map fun s => (s, bytes.drop n)
  go : Nat → Bytes → String
    | 0, _ => ""
    | _, [] => ""
    | n + 1, b :: bytes =>
      match first? (b :: bytes) with
      | some (s, rest) => s ++ go n rest
      | none => "\uFFFD" ++ go n bytes

/-- The operations that commands need. -/
structure Disk (m : Type → Type) where
  /-- The directory that relative paths start from. -/
  workDir : String
  /-- Where programs keep what they can make again. -/
  cacheHome : Option String
  read : String → m (Except FileError Bytes)
  write : String → Bytes → m (Except FileError Unit)
  /-- Whether a path names a file or a directory. -/
  isThere : String → m Bool
  /-- Makes a directory and those above it. -/
  makeDirs : String → m (Except FileError Unit)

/-- Files by their place, and the directories made for them. -/
structure Files where
  files : List (List String × Bytes) := []
  dirs : List (List String) := [[]]

namespace Files

abbrev Place := List String

def file? (f : Files) (p : Place) : Option Bytes := f.files.lookup p

def isDir (f : Files) (p : Place) : Bool := f.dirs.contains p

def upTo (p : Place) : List Place := (List.range (p.length + 1)).map p.take

def addDir (f : Files) (p : Place) : Files :=
  { f with dirs := f.dirs ++ (upTo p).filter fun q => !f.dirs.contains q }

def put (f : Files) (p : Place) (bytes : Bytes) : Files :=
  let f := f.addDir p.dropLast
  { f with files := (p, bytes) :: f.files.filter fun x => x.1 != p }

/-- Follows parts from a directory to a place. Every part but the last must be a directory. -/
def walk (f : Files) : Place → List String → Except FileError.Cause Place
  | at_, [] => .ok at_
  | at_, part :: parts =>
    if !f.isDir at_ then .error (if (f.file? at_).isSome then .notDirectory else .missing)
    else if part == "" || part == "." then walk f at_ parts
    else if part == ".." then walk f at_.dropLast parts
    else walk f (at_ ++ [part]) parts

def partsFrom (workDir path : String) : List String :=
  (if Path.isAbsolute path then [] else workDir.splitOn "/") ++ path.splitOn "/"

def place (f : Files) (workDir path : String) : Except FileError.Cause Place :=
  if path.isEmpty then .error .missing else f.walk [] (partsFrom workDir path)

def read (workDir path : String) (f : Files) : Except FileError Bytes :=
  match f.place workDir path with
  | .error c => .error ⟨"open", path, c⟩
  | .ok p =>
    match f.file? p with
    | some bytes => .ok bytes
    | none => .error (if f.isDir p then ⟨"read", path, .isDirectory⟩ else ⟨"open", path, .missing⟩)

def write (workDir path : String) (bytes : Bytes) (f : Files) : Except FileError Unit × Files :=
  match f.place workDir path with
  | .error c => (.error ⟨"open", path, c⟩, f)
  | .ok p =>
    if f.isDir p || path.endsWith "/" then (.error ⟨"open", path, .isDirectory⟩, f)
    else if (f.file? p).isNone && !f.isDir p.dropLast then (.error ⟨"open", path, .missing⟩, f)
    else (.ok (), f.put p bytes)

def isThere (workDir path : String) (f : Files) : Bool :=
  match f.place workDir path with
  | .error _ => false
  | .ok p => (f.file? p).isSome || f.isDir p

def makeDirs (workDir path : String) (f : Files) : Except FileError Unit × Files :=
  let p := Path.parts (Path.absolute workDir path)
  match (upTo p).find? fun q => (f.file? q).isSome with
  | none => (.ok (), f.addDir p)
  | some q =>
    if q == p then (.error ⟨"mkdir", path, .notDirectory⟩, f)
    else (.error ⟨"mkdir", "/" ++ "/".intercalate q ++ "/", .occupied⟩, f)

def disk (workDir : String) (cacheHome : Option String) : Disk (StateM Files) where
  workDir := workDir
  cacheHome := cacheHome
  read := fun path => do return (← get).read workDir path
  write := fun path bytes => modifyGet (write workDir path bytes)
  isThere := fun path => do return (← get).isThere workDir path
  makeDirs := fun path => modifyGet (makeDirs workDir path)

def below (f : Files) (dir : String) : List String :=
  let d := Path.parts dir
  let names := f.files.filterMap fun x =>
    if d.isPrefixOf x.1 then some ("/".intercalate (x.1.drop d.length)) else none
  names.mergeSort fun a b => a ≤ b

end Files

end Scripting
