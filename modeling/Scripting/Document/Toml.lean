import Scripting.Document.Basic

/-!
# Typed documents

Lines of the form `key = value`, under headers in brackets. Every value shows its type: texts are
quoted, and what is not quoted is a truth value, a number or a time. A key is given only once.
-/

namespace Scripting.Document.Toml

def escapes : List (Char × Char) :=
  [('b', '\x08'), ('t', '\t'), ('n', '\n'), ('f', '\x0c'), ('r', '\r'), ('"', '"'), ('\\', '\\')]

def isAllowed (c : Char) : Bool := c == '\t' || 0x20 ≤ c.toNat && c.toNat != 0x7F

/-- How a text is quoted. -/
structure Quoting where
  mark : Char
  /-- Whether a backslash changes the character behind it. -/
  escapes : Bool
  /-- Whether three marks close the text, which may then have many lines. -/
  isLong : Bool

namespace Quoting

def closing (q : Quoting) : List Char := List.replicate (if q.isLong then 3 else 1) q.mark

def close? (q : Quoting) (cs : List Char) : Option (List Char × List Char) :=
  if q.closing.isPrefixOf cs then
    let rest := cs.drop q.closing.length
    let extra := if q.isLong then ((rest.take 2).takeWhile (· == q.mark)) else []
    some (extra, rest.drop extra.length)
  else none

def read? (q : Quoting) : (fuel : Nat) → List Char → Option (List Char × List Char)
  | 0, _ => none
  | fuel + 1, cs =>
    match q.close? cs with
    | some (text, rest) => some (text, rest)
    | none =>
      match cs with
      | [] => none
      | c :: cs =>
        if c == '\\' && q.escapes then
          let line := cs.dropWhile isBlank
          if q.isLong && line.head? == some '\n' then
            read? q fuel (line.dropWhile fun c => isBlank c || c == '\n')
          else do
            let (c, cs) ← escaped? Toml.escapes cs
            let (text, rest) ← read? q fuel cs
            return (c :: text, rest)
        else if isAllowed c || q.isLong && c == '\n' then do
          let (text, rest) ← read? q fuel cs
          return (c :: text, rest)
        else none

end Quoting

/-- Reads a quoted text. A line end right behind three marks is not part of it. -/
def quoted? (allowLong : Bool) (cs : List Char) : Option (String × List Char) :=
  match cs with
  | [] => none
  | mark :: rest =>
    if mark == '"' || mark == '\'' then
      let isLong := allowLong && [mark, mark, mark].isPrefixOf cs
      let body := if isLong then rest.drop 2 else rest
      let body := if isLong && body.head? == some '\n' then body.drop 1 else body
      let q : Quoting := ⟨mark, mark == '"', isLong⟩
      (q.read? (body.length + 1) body).map fun (text, rest) => (String.ofList text, rest)
    else none

def isBare (c : Char) : Bool := c.isAlphanum || c == '_' || c == '-'

def keyPart? (cs : List Char) : Option (String × List Char) :=
  match quoted? false cs with
  | some r => some r
  | none =>
    let name := cs.takeWhile isBare
    if name.isEmpty then none else some (String.ofList name, cs.drop name.length)

def key? : (fuel : Nat) → List Char → Option (List String × List Char)
  | 0, _ => none
  | fuel + 1, cs => do
    let (part, rest) ← keyPart? (cs.dropWhile isBlank)
    match rest.dropWhile isBlank with
    | '.' :: rest =>
      let (parts, rest) ← key? fuel rest
      return (part :: parts, rest)
    | rest => return ([part], rest)

def areDigits (base : Nat) (cs : List Char) : Bool :=
  let groups := cs.splitOn '_'
  groups.all fun g => !g.isEmpty && g.all fun c => ((Hex.digit? c).filter (· < base)).isSome

def isDecimal (cs : List Char) : Bool := areDigits 10 cs && (cs.length == 1 || cs.head? != some '0')

def unsigned : List Char → List Char
  | '+' :: cs => cs
  | '-' :: cs => cs
  | cs => cs

def isInteger (cs : List Char) : Bool :=
  match cs with
  | '0' :: 'x' :: cs => areDigits 16 cs
  | '0' :: 'o' :: cs => areDigits 8 cs
  | '0' :: 'b' :: cs => areDigits 2 cs
  | cs => isDecimal (unsigned cs)

def isReal (cs : List Char) : Bool :=
  let body := unsigned cs
  let mantissa := body.takeWhile fun c => c != 'e' && c != 'E'
  let exponent := body.drop mantissa.length
  let whole := mantissa.takeWhile (· != '.')
  let fraction := mantissa.drop whole.length
  ["inf".toList, "nan".toList].contains body
    || isDecimal whole && (fraction.isEmpty || areDigits 10 (fraction.drop 1))
      && (exponent.isEmpty || areDigits 10 (unsigned (exponent.drop 1)))

def isTime (cs : List Char) : Bool :=
  let digit (i : Nat) : Bool := (cs[i]?.map Char.isDigit).getD false
  let isDate := [0, 1, 2, 3, 5, 6, 8, 9].all digit && cs[4]? == some '-' && cs[7]? == some '-'
  let isClock := [0, 1, 3, 4].all digit && cs[2]? == some ':'
  (isDate || isClock) && cs.all fun c => c.isDigit || "-:.+TtZz".toList.contains c

def isWord (cs : List Char) : Bool :=
  cs == "true".toList || cs == "false".toList || isInteger cs || isReal cs || isTime cs

def gap : (fuel : Nat) → List Char → List Char
  | 0, cs => cs
  | fuel + 1, cs =>
    match cs with
    | '#' :: cs => gap fuel (cs.dropWhile (· != '\n'))
    | c :: cs' => if isBlank c || c == '\n' then gap fuel cs' else cs
    | [] => []

def skip (cs : List Char) : List Char := gap cs.length cs

def define? : (path : List String) → Document → List (String × Document) →
    Option (List (String × Document))
  | [], _, _ => none
  | [k], d, es => if (es.lookup k).isSome then none else some (es ++ [(k, d)])
  | k :: ks, d, es =>
    match es.lookup k with
    | none => (define? ks d []).map fun inner => es ++ [(k, .map inner)]
    | some (.map inner) =>
      (define? ks d inner).map fun inner =>
        es.map fun e => if e.1 == k then (k, .map inner) else e
    | some _ => none

mutual

def value? : (fuel : Nat) → List Char → Option (Document × List Char)
  | 0, _ => none
  | fuel + 1, cs =>
    match cs with
    | '[' :: cs => do
      let (items, rest) ← items? fuel (skip cs)
      return (.seq items, rest)
    | '\x7b' :: cs => do
      match cs.dropWhile isBlank with
      | '\x7d' :: rest => return (.map [], rest)
      | cs =>
        let (entries, rest) ← entries? fuel [] cs
        return (.map entries, rest)
    | cs =>
      match quoted? true cs with
      | some (text, rest) => some (.scalar text false, rest)
      | none =>
        let word := cs.takeWhile fun c => !isBlank c && !"\n,]\x7d#".toList.contains c
        if isWord word then some (.scalar (String.ofList word) true, cs.drop word.length) else none

def items? : (fuel : Nat) → List Char → Option (List Document × List Char)
  | 0, _ => none
  | fuel + 1, cs =>
    match cs with
    | ']' :: rest => some ([], rest)
    | cs => do
      let (d, rest) ← value? fuel cs
      match skip rest with
      | ',' :: rest =>
        let (ds, rest) ← items? fuel (skip rest)
        return (d :: ds, rest)
      | ']' :: rest => return ([d], rest)
      | _ => none

def entries? : (fuel : Nat) → List (String × Document) → List Char →
    Option (List (String × Document) × List Char)
  | 0, _, _ => none
  | fuel + 1, es, cs => do
    let (path, rest) ← key? (cs.length + 1) cs
    match rest with
    | '=' :: rest =>
      let (d, rest) ← value? fuel (rest.dropWhile isBlank)
      let es ← define? path d es
      match rest.dropWhile isBlank with
      | ',' :: rest => entries? fuel es rest
      | '\x7d' :: rest => return (es, rest)
      | _ => none
    | _ => none

end

/-- What the lines so far say. -/
structure State where
  entries : List (String × Document) := []
  /-- Whether no header came yet. -/
  isTop : Bool := true
  /-- Headers in single brackets so far. -/
  headers : List (List String) := []

def endLine? (cs : List Char) : Option (List Char) :=
  match cs.dropWhile isBlank with
  | [] => some []
  | '\n' :: rest => some rest
  | '#' :: rest => some ((rest.dropWhile (· != '\n')).drop 1)
  | _ => none

/-- Begins the lines under a header. Only a header in double brackets may come again, and none may
name a plain value. -/
def State.under? (s : State) (path : List String) (isRow : Bool) : Option State :=
  let entries := (define? path (if isRow then .seq [] else .map []) s.entries).getD s.entries
  let headers := if isRow then s.headers else path :: s.headers
  match entries.lookup (path.headD "") with
  | some (.scalar ..) => none
  | _ => if !isRow && s.headers.contains path then none else some ⟨entries, false, headers⟩

def line? (s : State) (cs : List Char) : Option (State × List Char) := do
  match cs with
  | '[' :: '[' :: cs =>
    match ← key? (cs.length + 1) cs with
    | (path, ']' :: ']' :: rest) => return (← s.under? path true, ← endLine? rest)
    | _ => none
  | '[' :: cs =>
    match ← key? (cs.length + 1) cs with
    | (path, ']' :: rest) => return (← s.under? path false, ← endLine? rest)
    | _ => none
  | cs =>
    match ← key? (cs.length + 1) cs with
    | (path, '=' :: rest) =>
      let (d, rest) ← value? (2 * rest.length + 2) (rest.dropWhile isBlank)
      let rest ← endLine? rest
      if s.isTop then return ({ s with entries := ← define? path d s.entries }, rest)
      else return (s, rest)
    | _ => none

def lines? : (fuel : Nat) → State → List Char → Option State
  | 0, _, _ => none
  | fuel + 1, s, cs =>
    match skip cs with
    | [] => some s
    | cs => do
      let (s, rest) ← line? s cs
      lines? fuel s rest

end Toml

/-- Reads a typed document. Of the lines under a header only the header is kept. -/
def ofToml? (text : String) : Option Document :=
  let cs := unixLines text.toList
  (Toml.lines? (cs.length + 1) {} cs).map fun s => .map s.entries

end Scripting.Document
