import Scripting.Library.Call

/-!
# Names of host functions

Every program has the native functions; the first of them stand in the lowest global slots, and some
are methods of every value. The functions of the library are found by their keys.
-/

namespace Scripting

/-- A function that every program has. -/
structure Native where
  name : String
  prim : Prim
  params : List Ty
  result : Ty
  variadic : Bool := false

namespace Native

def globals : List Native :=
  [⟨"print", .print, [.any], .unit, true⟩,
   ⟨"concat", .concat, [.any], .string, true⟩,
   ⟨"toString", .toText, [.any], .string, false⟩,
   ⟨"len", .len, [.any], .int, false⟩,
   ⟨"panic", .panic, [.string], .unit, false⟩]

def all : List Native :=
  globals ++
    [⟨"equals", .equals, [.any, .any], .bool, false⟩,
     ⟨"typeName", .typeName, [.any], .string, false⟩]

def methodNames : List String := ["toString", "equals", "typeName"]

def index? (name : String) : Option Nat := all.findIdx? fun f => f.name == name

def named? (name : String) : Option Native := all.find? fun f => f.name == name

def method? (name : String) : Option Native :=
  if methodNames.contains name then named? name else none

def signature (f : Native) : Signature := ⟨f.params, f.result, f.variadic⟩

def object? (name : String) : Option Value := do
  let i ← index? name
  let f ← all[i]?
  return .builtin i ⟨f.name, some f.prim⟩

end Native

namespace Library

def implementations : List (String × Prim) :=
  [("System.Math.Abs(Int)", .absInt),
   ("System.Math.Abs(Double)", .abs),
   ("System.Math.Sqrt(Double)", .sqrt),
   ("System.Math.Floor(Double)", .floor),
   ("System.Math.Pow(Double,Double)", .pow),
   ("System.Math.Max(T,T)", .max),
   ("System.Math.Max(Int,Int)", .max),
   ("System.Math.Min(T,T)", .min),
   ("System.Math.Min(Int,Int)", .min),
   ("System.Console.WriteLine(Any)", .writeLine),
   ("System.Console.Write(Any)", .write),
   ("String.ToUpper()", .upper),
   ("String.ToLower()", .lower),
   ("String.Trim()", .trim),
   ("String.Length()", .length),
   ("String.Contains(String)", .contains),
   ("String.StartsWith(String)", .startsWith),
   ("String.EndsWith(String)", .endsWith),
   ("String.Split(String)", .split),
   ("Array.Push(T)", .push),
   ("Array.Count()", .count),
   ("Array.Contains(T)", .arrayContains),
   ("Array.IndexOf(T)", .indexOf),
   ("System.Text.StringBuilder.New()", .newBuilder),
   ("System.Text.StringBuilder.Append(Any)", .append),
   ("System.Text.StringBuilder.Length()", .builderLength),
   ("System.Text.StringBuilder.Build()", .build),
   ("System.Collections.List.Of(E[])", .listOf),
   ("System.Collections.List.Empty()", .emptyList),
   ("System.Collections.List.Add(T)", .add),
   ("System.Collections.List.Get(Int)", .get),
   ("System.Linq.Enumerable.Count", .enumCount),
   ("System.Linq.Enumerable.First", .enumFirst)]

def implementation? (key : String) : Option Prim := implementations.lookup key

end Library

end Scripting
