import Std.Data.TreeMap

/-!
# Lexical scopes

A scope maps names to bindings for one region of the source. Scopes nest; a name means the nearest
binding of it.
-/

namespace Scripting

abbrev BindingId := Nat

/-- What a scope belongs to. -/
inductive Scope.Kind where
  | global | function | block
deriving DecidableEq, Repr

def Scope.Kind.name : Scope.Kind → String
  | global => "global"
  | function => "function"
  | block => "block"

/-- The names of one region. -/
structure Scope where
  kind : Scope.Kind
  /-- How many functions are around the region. -/
  depth : Nat
  names : Std.TreeMap String BindingId := {}

namespace Scope

def top : Scope := { kind := .global, depth := 0 }

/-- A scope inside another one; a function is one level deeper than what is around it. -/
def inside (outer : Scope) (kind : Kind) : Scope :=
  { kind := kind, depth := if kind == .function then outer.depth + 1 else outer.depth }

def define (s : Scope) (name : String) (b : BindingId) : Scope :=
  { s with names := s.names.insert name b }

def undefine (s : Scope) (name : String) (b : BindingId) : Scope :=
  if s.names[name]? == some b then { s with names := s.names.erase name } else s

/-- Takes back that a name was bound to `b`: it is bound to what it was before, if it was. -/
def restore (s : Scope) (name : String) (b : BindingId) : Option BindingId → Scope
  | none => s.undefine name b
  | some before => s.define name before

def get? (s : Scope) (name : String) : Option BindingId := s.names[name]?

def size (s : Scope) : Nat := s.names.size

def lookup (name : String) : List Scope → Option BindingId
  | [] => none
  | s :: outer =>
    match s.get? name with
    | some b => some b
    | none => lookup name outer

end Scope

end Scripting
