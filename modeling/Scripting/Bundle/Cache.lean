import Scripting.Cbor.Decode
import Scripting.Digest.Sha256
import Scripting.Files.Basic
import Scripting.Text.Hex

/-!
# The bundle cache

Compiled scripts by the source and the modules they were compiled from. The source file of an entry
is kept so that older versions of the same file can be removed. On disk the scripts of a cache are in one
file: a mark, and behind it a list of entries. An empty file is an empty cache.
-/

namespace Scripting

/-- A stored script. -/
structure Cache.Entry where
  key : String
  sourceFile : String
  data : List UInt8

/-- Stored scripts; no two have one key. -/
structure Cache where
  entries : List Cache.Entry := []

namespace Cache

def version : String := "jzb1"

/-- What a key is made from: the version, each module behind a zero byte, and the source behind a
byte that is one. -/
def keyBytes (source : String) (modules : List String) : List UInt8 :=
  version.toUTF8.toList ++ modules.flatMap (fun m => 0 :: m.toUTF8.toList)
    ++ 1 :: source.toUTF8.toList

def key (source : String) (modules : List String) : String :=
  Hex.encode (Sha256.digest (keyBytes source modules))

/-- A key that is too short for the log. -/
structure ShortKey where
  key : String

/-- The log shows the first twelve bytes of a key, which the host takes for granted. -/
def logged (key : String) : Except ShortKey Unit :=
  if key.utf8ByteSize < 12 then .error ⟨key⟩ else .ok ()

def get? (c : Cache) (key : String) : Except ShortKey (Option (List UInt8)) :=
  match c.entries.find? fun e => e.key == key with
  | none => .ok none
  | some e => (logged key).map fun () => some e.data

/-- Stores a script, in place of one under the same key. The key is logged when it is stored. -/
def put (c : Cache) (key sourceFile : String) (data : List UInt8) : Except ShortKey Unit × Cache :=
  (logged key, { entries := ⟨key, sourceFile, data⟩ :: c.entries.filter fun e => e.key != key })

def Entry.isStale (sourceFile keep : String) (e : Entry) : Bool :=
  e.sourceFile == sourceFile && e.key != keep

/-- Removes the scripts of a file except the one under a key, and tells how many they were. -/
def prune (c : Cache) (sourceFile keep : String) : Nat × Cache :=
  ((c.entries.filter (Entry.isStale sourceFile keep)).length,
    { entries := c.entries.filter fun e => !e.isStale sourceFile keep })

def size (c : Cache) : Nat := c.entries.length

def mark : Bytes := "jitzu bundle cache 1\n".toUTF8.toList

def Entry.item (e : Entry) : Cbor.Item :=
  .array [.text e.key, .text e.sourceFile, .bytes e.data]

def Entry.ofItem? : Cbor.Item → Option Entry
  | .array [.text key, .text sourceFile, .bytes data] => some ⟨key, sourceFile, data⟩
  | _ => none

def encode (c : Cache) : Bytes := mark ++ (Cbor.Item.array (c.entries.map Entry.item)).encode

def decode? (bytes : Bytes) : Option Cache :=
  if bytes.isEmpty then some {}
  else if mark.isPrefixOf bytes then do
    match ← Cbor.decode? (bytes.drop mark.length) with
    | .array items => return { entries := ← items.mapM Entry.ofItem? }
    | _ => none
  else none

/-- Why a cache file cannot be used. -/
inductive OpenError where
  | directory (cause : FileError)
  | unusable
  | notCache

def OpenError.message : OpenError → String
  | directory e => "creating cache directory: " ++ e.message
  | unusable => "setting busy timeout: unable to open database file: out of memory (14)"
  | notCache => "creating table: file is not a database (26)"

variable {m : Type → Type} [Monad m]

def openFile (disk : Disk m) (path : String) : m (Except OpenError Cache) := do
  match ← disk.makeDirs (Path.parent path) with
  | .error e => return .error (.directory e)
  | .ok () =>
    match ← disk.read path with
    | .ok bytes => return (match decode? bytes with
      | some c => .ok c
      | none => .error .notCache)
    | .error ⟨_, _, .missing⟩ =>
      match ← disk.write path ({} : Cache).encode with
      | .ok () => return .ok {}
      | .error _ => return .error .unusable
    | .error _ => return .error .unusable

def saveFile (disk : Disk m) (path : String) (c : Cache) : m (Except OpenError Unit) := do
  match ← disk.write path c.encode with
  | .ok () => return .ok ()
  | .error _ => return .error .unusable

end Cache

end Scripting
