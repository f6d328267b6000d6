import Scripting.Document.Basic

/-!
# Block documents

Mappings and sequences laid out by indentation, and inside them mappings and sequences in brackets.
Reading keeps the column of the next character, because a line belongs to the innermost collection
that starts left of it. Anchors, tags, explicit keys and literal blocks are not read.
-/

namespace Scripting.Document.Yaml

/-- Where reading stands. -/
structure Cursor where
  rest : List Char
  /-- The column of the next character. -/
  col : Nat

namespace Cursor

def drop (c : Cursor) (n : Nat) : Cursor := ⟨c.rest.drop n, c.col + n⟩

def blanks (c : Cursor) : Cursor := c.drop (c.rest.takeWhile isBlank).length

/-- Whether the line is over, but for a comment. A comment has a blank or nothing in front of it. -/
def atLineEnd (c : Cursor) : Bool :=
  match c.rest with
  | [] => true
  | ch :: _ => ch == '\n' || ch == '#'

end Cursor

def nextLine (rest : List Char) : Cursor :=
  match _h : rest.dropWhile (· != '\n') with
  | [] => ⟨[], 0⟩
  | _ :: line =>
    let spaces := (line.takeWhile (· == ' ')).length
    let body := line.drop spaces
    if (Cursor.mk body 0).blanks.atLineEnd then nextLine line else ⟨body, spaces⟩
termination_by rest.length
decreasing_by
  have hle := (List.dropWhile_suffix (l := rest) (· != '\n')).length_le
  rw [_h] at hle
  exact Nat.lt_of_lt_of_le (Nat.lt_succ_self _) hle

def endLine? (c : Cursor) : Option Cursor :=
  if c.blanks.atLineEnd then some (nextLine c.rest) else none

def isAllowed (c : Char) : Bool :=
  let n := c.toNat
  n == 9 || n == 10 || n == 13 || 0x20 ≤ n && n ≤ 0x7E || n == 0x85
    || 0xA0 ≤ n && n ≤ 0xFFFD && n != 0xFEFF || 0x10000 ≤ n

def escapes : List (Char × Char) :=
  [('0', '\x00'), ('a', '\x07'), ('b', '\x08'), ('t', '\t'), ('\t', '\t'), ('n', '\n'), ('v', '\x0b'),
    ('f', '\x0c'), ('r', '\r'), ('e', '\x1b'), (' ', ' '), ('"', '"'), ('\'', '\''), ('/', '/'),
    ('\\', '\\'), ('N', '\u0085'), ('_', '\u00a0'), ('L', '\u2028'), ('P', '\u2029')]

def escape? : List Char → Option (Char × List Char)
  | 'x' :: cs => coded? 2 cs
  | cs => escaped? escapes cs

/-- What a line end inside a scalar becomes: one is a space, and each further one is kept. -/
def folded (breaks : Nat) : List Char :=
  if breaks ≤ 1 then [' '] else List.replicate (breaks - 1) '\n'

def passBreaks (cs : List Char) : Nat × List Char :=
  let gap := cs.takeWhile fun c => isBlank c || c == '\n'
  (gap.count '\n', cs.drop gap.length)

def doubleQuoted? : (fuel : Nat) → List Char → Option (List Char × List Char)
  | 0, _ => none
  | fuel + 1, cs =>
    match cs with
    | [] => none
    | '"' :: cs => some ([], cs)
    | '\\' :: '\n' :: cs => doubleQuoted? fuel (cs.dropWhile isBlank)
    | '\\' :: cs => do
      let (c, cs) ← escape? cs
      let (text, rest) ← doubleQuoted? fuel cs
      return (c :: text, rest)
    | c :: cs' =>
      if isBlank c || c == '\n' then do
        let (breaks, after) := passBreaks cs
        let gap := if breaks == 0 then cs.takeWhile isBlank else folded breaks
        let (text, rest) ← doubleQuoted? fuel after
        return (gap ++ text, rest)
      else do
        let (text, rest) ← doubleQuoted? fuel cs'
        return (c :: text, rest)

def singleQuoted? : (fuel : Nat) → List Char → Option (List Char × List Char)
  | 0, _ => none
  | fuel + 1, cs =>
    match cs with
    | [] => none
    | '\'' :: '\'' :: cs => do
      let (text, rest) ← singleQuoted? fuel cs
      return ('\'' :: text, rest)
    | '\'' :: cs => some ([], cs)
    | c :: cs' =>
      if isBlank c || c == '\n' then do
        let (breaks, after) := passBreaks cs
        let gap := if breaks == 0 then cs.takeWhile isBlank else folded breaks
        let (text, rest) ← singleQuoted? fuel after
        return (gap ++ text, rest)
      else do
        let (text, rest) ← singleQuoted? fuel cs'
        return (c :: text, rest)

def quoted? : List Char → Option (List Char × List Char)
  | '"' :: cs => doubleQuoted? (cs.length + 1) cs
  | '\'' :: cs => singleQuoted? (cs.length + 1) cs
  | _ => none

def isGap : List Char → Bool
  | [] => true
  | c :: _ => isBlank c || c == '\n'

def startsPlain : List Char → Bool
  | [] => false
  | c :: cs =>
    if c == '-' || c == '?' || c == ':' then !isGap cs
    else !isBlank c && !(",[]\x7b\x7d#&*!|>'\"%@\x60".toList.contains c)

def endsPlain (inFlow : Bool) : List Char → Bool
  | [] => true
  | '\n' :: _ => true
  | ':' :: cs => isGap cs
  | c :: cs =>
    isBlank c && cs.head? == some '#' || inFlow && ",[]\x7b\x7d".toList.contains c

/-- The part of a scalar without quotes that stands on this line, without blanks at its end. -/
def plainRun (inFlow : Bool) : List Char → List Char × List Char
  | [] => ([], [])
  | c :: cs =>
    if endsPlain inFlow (c :: cs) then ([], c :: cs)
    else
      let (text, rest) := plainRun inFlow cs
      if isBlank c && text.isEmpty then ([], c :: rest) else (c :: text, rest)

def flowGap : (fuel : Nat) → List Char → List Char
  | 0, cs => cs
  | fuel + 1, cs =>
    match cs with
    | '#' :: cs => flowGap fuel (cs.dropWhile (· != '\n'))
    | c :: cs' => if isBlank c || c == '\n' then flowGap fuel cs' else cs
    | [] => []

def skip (cs : List Char) : List Char := flowGap cs.length cs

def keyText? : Document → Option String
  | .scalar s _ => some s
  | _ => none

def plainFlow : (fuel : Nat) → List Char → List Char × List Char
  | 0, cs => ([], cs)
  | fuel + 1, cs =>
    let (text, rest) := plainRun true cs
    let (breaks, after) := passBreaks rest
    if breaks == 0 || !startsPlain after || text.isEmpty then (text, rest)
    else
      let (more, rest) := plainFlow fuel after
      (text ++ folded breaks ++ more, rest)

mutual

def flow? : (fuel : Nat) → List Char → Option (Document × List Char)
  | 0, _ => none
  | fuel + 1, cs =>
    match cs with
    | '[' :: cs => do
      let (items, rest) ← flowItems? fuel (skip cs)
      return (.seq items, rest)
    | '\x7b' :: cs => do
      let (entries, rest) ← flowEntries? fuel (skip cs)
      return (.map entries, rest)
    | cs =>
      match quoted? cs with
      | some (text, rest) => some (.scalar (String.ofList text) false, rest)
      | none =>
        if startsPlain cs then
          let (text, rest) := plainFlow cs.length cs
          some (.scalar (String.ofList text) true, rest)
        else none

def flowValue? : (fuel : Nat) → List Char → Option (Document × List Char)
  | 0, _ => none
  | fuel + 1, cs =>
    match skip cs with
    | [] => none
    | c :: rest => if ",]\x7d".toList.contains c then some (.null, c :: rest) else flow? fuel (c :: rest)

/-- Reads the items of a sequence up to its bracket. An item with a colon is a mapping of one entry. -/
def flowItems? : (fuel : Nat) → List Char → Option (List Document × List Char)
  | 0, _ => none
  | fuel + 1, cs =>
    match cs with
    | ']' :: rest => some ([], rest)
    | cs => do
      let (d, rest) ← flow? fuel cs
      let (d, rest) ← match skip rest with
        | ':' :: rest => do
          let key ← keyText? d
          let (v, rest) ← flowValue? fuel rest
          pure (.map [(key, v)], skip rest)
        | rest => pure (d, rest)
      match rest with
      | ',' :: rest => do
        let (ds, rest) ← flowItems? fuel (skip rest)
        return (d :: ds, rest)
      | ']' :: rest => return ([d], rest)
      | _ => none

def flowEntries? : (fuel : Nat) → List Char → Option (List (String × Document) × List Char)
  | 0, _ => none
  | fuel + 1, cs =>
    match cs with
    | '\x7d' :: rest => some ([], rest)
    | cs => do
      let (k, rest) ← flow? fuel cs
      let key ← keyText? k
      let (v, rest) ← match skip rest with
        | ':' :: rest => do
          let (v, rest) ← flowValue? fuel rest
          pure (v, skip rest)
        | rest => pure (Document.null, rest)
      match rest with
      | ',' :: rest => do
        let (es, rest) ← flowEntries? fuel (skip rest)
        return ((key, v) :: es, rest)
      | '\x7d' :: rest => return ([(key, v)], rest)
      | _ => none

end

def key? (c : Cursor) : Option (String × Cursor) := do
  let (text, rest) ← match quoted? c.rest with
    | some (text, rest) => pure (text, rest)
    | none => if startsPlain c.rest then pure (plainRun false c.rest) else none
  match rest.dropWhile isBlank with
  | ':' :: after =>
    if isGap after then
      return (String.ofList text, ⟨after, c.col + (c.rest.length - after.length)⟩)
    else none
  | _ => none

def startsItem : List Char → Bool
  | '-' :: cs => isGap cs
  | _ => false

/-- Reads a scalar without quotes, with the lines that are indented further than `above`. -/
def plainBlock? (above : Int) : (fuel : Nat) → Cursor → Option (List Char × Cursor)
  | 0, _ => none
  | fuel + 1, c => do
    let (text, rest) := plainRun false c.rest
    let (breaks, after) := passBreaks rest
    let next ← endLine? ⟨rest, c.col⟩
    if breaks == 0 || next.rest != after || !(above < next.col) || next.rest.isEmpty then
      return (text, next)
    else
      let (more, next) ← plainBlock? above fuel next
      return (text ++ folded breaks ++ more, next)

def inline? (above : Int) (c : Cursor) : Option (Document × Cursor) :=
  if startsPlain c.rest then do
    let (text, next) ← plainBlock? above (c.rest.length + 1) c
    return (.scalar (String.ofList text) true, next)
  else do
    let (d, rest) ← flow? (2 * c.rest.length + 2) c.rest
    let next ← endLine? ⟨rest, 0⟩
    return (d, next)

mutual

def node? : (fuel : Nat) → (above : Int) → Cursor → Option (Document × Cursor)
  | 0, _, _ => none
  | fuel + 1, above, c =>
    if startsItem c.rest then do
      let (items, next) ← items? fuel c.col c
      return (.seq items, next)
    else if (key? c).isSome then do
      let (entries, next) ← entries? fuel c.col c
      return (.map entries, next)
    else inline? above c

def items? : (fuel : Nat) → (col : Nat) → Cursor → Option (List Document × Cursor)
  | 0, _, _ => none
  | fuel + 1, col, c => do
    let inner := (c.drop 1).blanks
    let (d, next) ←
      if inner.atLineEnd then
        let next := nextLine inner.rest
        if col < next.col then node? fuel col next else pure (Document.null, next)
      else node? fuel col inner
    if next.rest.isEmpty || next.col < col then return ([d], next)
    else if col < next.col then none
    else if startsItem next.rest then do
      let (ds, next) ← items? fuel col next
      return (d :: ds, next)
    else return ([d], next)

/-- Reads a mapping whose keys start at a column. A sequence that is a value may stand at the same
column. -/
def entries? : (fuel : Nat) → (col : Nat) → Cursor → Option (List (String × Document) × Cursor)
  | 0, _, _ => none
  | fuel + 1, col, c => do
    let (key, after) ← key? c
    let inner := after.blanks
    let (d, next) ←
      if inner.atLineEnd then
        let next := nextLine inner.rest
        if next.rest.isEmpty then pure (Document.null, next)
        else if col < next.col then node? fuel col next
        else if next.col == col && startsItem next.rest then do
          let (items, next) ← items? fuel col next
          pure (Document.seq items, next)
        else pure (Document.null, next)
      else inline? col inner
    if next.rest.isEmpty || next.col < col then return ([(key, d)], next)
    else if col < next.col then none
    else do
      let (es, next) ← entries? fuel col next
      return ((key, d) :: es, next)

end

def isMark (mark line : List Char) : Bool := mark.isPrefixOf line && isGap (line.drop mark.length)

def isQuiet (line : List Char) : Bool := (Cursor.mk line 0).blanks.atLineEnd

def firstDocument (lines : List (List Char)) : List (List Char) :=
  let lines := lines.dropWhile isQuiet
  let lines := match lines with
    | line :: rest =>
      if isMark ['-', '-', '-'] line then (' ' :: ' ' :: ' ' :: line.drop 3) :: rest else lines
    | [] => []
  lines.takeWhile fun line => !isMark ['-', '-', '-'] line && !isMark ['.', '.', '.'] line

end Yaml

def ofYaml? (text : String) : Option Document :=
  let cs := unixLines text.toList
  if !cs.all Yaml.isAllowed then none
  else
    let lines := Yaml.firstDocument (cs.splitOn '\n')
    let start := Yaml.nextLine ('\n' :: ['\n'].intercalate lines)
    if start.rest.isEmpty then some .null
    else
      match Yaml.node? (2 * cs.length + 2) (-1) start with
      | some (d, next) => if next.rest.isEmpty then some d else none
      | none => none

end Scripting.Document
