import Scripting.Engine.Configured
import Scripting.Files.Basic
import Scripting.Text.Hex
import Scripting.Typed.Analyze

/-!
# Answering an editor

An editor opens, changes and closes files, and gets the diagnostics of each version. It names a file by an
address such as `file:///dir/a%20b`. It asks what stands at a place and where that is declared, and for the
canonical layout of a file. `references` lists every declaration and every use of a checked batch in source
order; for a call through a member, the method comes before the member itself.
-/

namespace Scripting

namespace Editor

/-- A range of characters on lines; everything counts from 0. -/
structure Range where
  startLine : Nat
  startChar : Nat
  endLine : Nat
  endChar : Nat
deriving DecidableEq, Repr

def Range.ofToken (t : Token) : Range :=
  let line := (t.line - 1).toNat
  let start := (t.col - 1).toNat
  ⟨line, start, line, start + t.lexeme.length⟩

/-- A token and what it names. -/
structure Reference where
  token : Token
  binding : Option Binding := none
  callable : Option Callable := none
  type : Ty := .unknown
  isField : Bool := false

namespace Reference

def declared (p : Program) (name : Name) (b : BindingId) : List Reference :=
  let x := p.binding b
  if x.hidden then [] else [{ token := name.token, binding := some x, type := x.type }]

def ofNode (p : Program) : Node .typed → List Reference
  | .stmt (.bind _ name b _ _) => declared p name b
  | .stmt (.each _ name loop _ _) => declared p name loop.item
  | .pattern (.bind name b) => declared p name b
  | .func d =>
    { token := d.name.token, binding := d.info.binding.map p.binding
      callable := some (.user d.info.id) }
      :: d.params.flatMap fun x => declared p x.name x.decl
  | .expr (.name type tok _ slot) =>
    let x := p.binding slot.binding
    if x.hidden then []
    else [{ token := tok, binding := some x, callable := x.callable, type := type.getD .unknown }]
  | .expr (.call _ _ info (.member _ _ _ field) _) =>
    match info.target with
    | some c => [{ token := field.token, callable := some c }]
    | none => []
  | .expr (.member type _ _ field) =>
    [{ token := field.token, type := type.getD .unknown, isField := true }]
  | _ => []

/-- Whether the token of a reference covers a place. An empty token covers one character. -/
def covers (r : Reference) (line char : Nat) : Bool :=
  r.token.line == line + 1 && r.token.col ≤ char + 1
    && (char : Int) + 1 < r.token.col + max r.token.lexeme.length 1

def slotText (b : Binding) : String :=
  b.storage.name ++ " slot " ++ toString b.index ++ (if b.captured then ", captured" else "")

def fenced (text : String) : String := "```jitzu\n" ++ text ++ "\n```"

/-- What a reference names: the type of a function, or else the type of a field or a variable. -/
def heading? (p : Program) (r : Reference) : Option String :=
  match r.callable with
  | some c => some ("fun " ++ p.callableName c ++ (p.callableSig c).text)
  | none =>
    if r.isField then
      if r.type.isUnknown then none else some ("(field) " ++ r.token.lexeme ++ ": " ++ r.type.text)
    else r.binding.map fun b => b.name ++ ": " ++ (if r.type.isUnknown then "?" else r.type.text)

def description? (p : Program) (r : Reference) : Option String :=
  (heading? p r).map fun text =>
    fenced text ++ (match r.binding with
      | some b => "\n\n" ++ slotText b
      | none => "")

end Reference

end Editor

def Source.references (src : Source .typed) (p : Program) : List Editor.Reference :=
  src.nodes.flatMap (Editor.Reference.ofNode p)

def Source.declaredAt? (src : Source .typed) (id : FunId) : Option Token :=
  src.nodes.findSome? fun
    | .func d => if d.info.id == id then some d.name.token else none
    | _ => none

namespace Uri

/-- The bytes of a text in which a percent sign and two digits stand for one byte. -/
def unescape? : List Char → Option Bytes
  | [] => some []
  | '%' :: a :: b :: cs => do
    let hi ← Hex.digit? a
    let lo ← Hex.digit? b
    return UInt8.ofNat (hi * 16 + lo) :: (← unescape? cs)
  | '%' :: _ => none
  | c :: cs => do return c.toString.toUTF8.toList ++ (← unescape? cs)

def scheme : String := "file://"

def isControl (c : Char) : Bool := c.toNat < 0x20 || c.toNat == 0x7F

/-- The path of what follows the scheme. A host in front of it, a query and a fragment are left out.
There is none if control characters or broken escapes are in the way. -/
def filePath? (rest : List Char) : Option Bytes := do
  let shown := rest.takeWhile (· != '#')
  guard (!shown.any isControl)
  let bytes ← unescape? ((shown.takeWhile (· != '?')).dropWhile (· != '/'))
  let _ ← unescape? (rest.drop (shown.length + 1))
  return bytes

/-- The path that an address means. An address with another scheme is itself a path, and so is what
follows the scheme of an address that cannot be read. -/
def path (uri : String) : String :=
  if uri.startsWith scheme then
    let rest := uri.toList.drop scheme.length
    match filePath? rest with
    | some bytes => bytes.text
    | none => String.ofList rest
  else uri

end Uri

namespace Editor

/-- One version of an open file. -/
structure OpenFile where
  uri : String
  path : String
  text : String
  /-- Why the file does not compile. -/
  errors : List Diagnostic := []
  /-- The checked file. -/
  checked : Option (Source .typed × Program) := none
  references : List Reference := []

namespace OpenFile

def check (uri text : String) (e : Engine) : OpenFile :=
  let path := Uri.path uri
  match (e.check text path).1 with
  | .error ds => { uri, path, text, errors := ds }
  | .ok (src, p) => { uri, path, text, checked := some (src, p), references := src.references p }

def reference? (f : OpenFile) (line char : Nat) : Option Reference :=
  f.references.find? fun r => r.covers line char

def hover? (f : OpenFile) (line char : Nat) : Option (String × Range) := do
  let r ← f.reference? line char
  let (_, p) ← f.checked
  let text ← r.description? p
  return (text, .ofToken r.token)

/-- Where the thing at a place is declared. What the host provides is declared nowhere. -/
def definition? (f : OpenFile) (line char : Nat) : Option Range := do
  let r ← f.reference? line char
  match r.binding.filter fun b => 0 < b.token.line with
  | some b => return .ofToken b.token
  | none =>
    match r.callable with
    | some (.user id) =>
      let (src, _) ← f.checked
      return .ofToken (← src.declaredAt? id)
    | _ => none

def whole (text : String) : Range :=
  let lines := text.splitOn "\n"
  ⟨0, 0, lines.length - 1, (lines.getLast?.getD "").length⟩

/-- The change that gives a file its canonical layout. A file with comments or errors is left alone. -/
def formatted? (f : OpenFile) : Option (Range × String) :=
  if 1 < (f.text.splitOn "//").length then none
  else
    match Source.format f.text f.path with
    | .error _ => none
    | .ok text => if text == f.text then none else some (whole f.text, text)

end OpenFile

def message (d : Diagnostic) : String := d.code.category ++ ": " ++ d.message

/-- What an editor is told about a file. -/
structure Published where
  uri : String
  errors : List Diagnostic

def serverName : String := "jitzu-lsp"
def serverVersion : String := "0.1.0"

/-- The open files, by their addresses. -/
structure Server where
  files : List (String × OpenFile) := []

namespace Server

variable {m : Type → Type} [Monad m]

def engineFor (disk : Disk m) (path : String) : m (Option Engine) := do
  let c := match ← Config.find disk (Path.parent path) with
    | .ok c => c
    | .error _ => {}
  match ← c.engine disk with
  | .ok e => return some e
  | .error _ => return (Engine.new {}).toOption

def update (disk : Disk m) (uri text : String) (s : Server) : m (Published × Server) := do
  let f := match ← engineFor disk (Uri.path uri) with
    | some e => OpenFile.check uri text e
    | none => { uri, path := Uri.path uri, text }
  return (⟨uri, f.errors⟩, { files := (uri, f) :: s.files.filter fun x => x.1 != uri })

def change (disk : Disk m) (uri : String) (texts : List String) (s : Server) :
    m (Option Published × Server) := do
  match texts.getLast? with
  | none => return (none, s)
  | some text =>
    let (p, s) ← s.update disk uri text
    return (some p, s)

def close (s : Server) (uri : String) : Published × Server :=
  (⟨uri, []⟩, { files := s.files.filter fun x => x.1 != uri })

def file? (s : Server) (uri : String) : Option OpenFile := s.files.lookup uri

end Server

end Editor

end Scripting
