import Scripting.Library.Manifest

/-!
# The standard library

The manifest of the modules that every host offers.
-/

namespace Scripting.Manifest

def staticFunc (name : String) (params : List String) (returns : String) (typeParams : List String) :
    Func :=
  { name, params, returns, typeParams, isStatic := true }

def method (name : String) (params : List String) (returns : String) : Func :=
  { name, params, returns }

def systemModule : Module where
  name := "System"
  types :=
    [{ name := "System.Math", isStatic := true, methods :=
        [staticFunc "Abs" ["Int"] "Int" [],
         staticFunc "Abs" ["Double"] "Double" [],
         staticFunc "Max" ["T", "T"] "T" ["T"],
         staticFunc "Max" ["Int", "Int"] "Int" [],
         staticFunc "Min" ["T", "T"] "T" ["T"],
         staticFunc "Min" ["Int", "Int"] "Int" [],
         staticFunc "Sqrt" ["Double"] "Double" [],
         staticFunc "Pow" ["Double", "Double"] "Double" [],
         staticFunc "Floor" ["Double"] "Double" []] },
     { name := "System.Console", isStatic := true, methods :=
        [staticFunc "WriteLine" ["Any"] "" [],
         staticFunc "Write" ["Any"] "" []] }]
  methods :=
    [{ type := "String", methods :=
        [method "ToUpper" [] "String",
         method "ToLower" [] "String",
         method "Contains" ["String"] "Bool",
         method "StartsWith" ["String"] "Bool",
         method "EndsWith" ["String"] "Bool",
         method "Split" ["String"] "String[]",
         method "Trim" [] "String",
         method "Length" [] "Int"] },
     { type := "Array", typeParams := ["T"], methods :=
        [method "Push" ["T"] "",
         method "Count" [] "Int",
         method "Contains" ["T"] "Bool",
         method "IndexOf" ["T"] "Int"] }]

def textModule : Module where
  name := "System.Text"
  types :=
    [{ name := "System.Text.StringBuilder", methods :=
        [staticFunc "New" [] "System.Text.StringBuilder" [],
         method "Append" ["Any"] "System.Text.StringBuilder",
         method "Length" [] "Int",
         method "Build" [] "String"] }]

def collectionsModule : Module where
  name := "System.Collections"
  types :=
    [{ name := "System.Collections.IEnumerable", typeParams := ["T"] },
     { name := "System.Collections.List", typeParams := ["T"],
       bases := ["System.Collections.IEnumerable<T>"], methods :=
        [staticFunc "Of" ["E[]"] "System.Collections.List<E>" ["E"],
         staticFunc "Empty" [] "System.Collections.List<E>" ["E"],
         method "Add" ["T"] "",
         method "Get" ["Int"] "T"] }]

def overSequence (name returns : String) (isStatic : Bool) : Func :=
  { name, typeParams := ["T"], params := ["System.Collections.IEnumerable<T>"], returns, isStatic,
    impl := "System.Linq.Enumerable." ++ name }

def linqModule : Module where
  name := "System.Linq"
  types :=
    [{ name := "System.Linq.Enumerable", isStatic := true, methods :=
        [overSequence "Count" "Int" true, overSequence "First" "T" true] }]
  extensions := [overSequence "Count" "Int" false, overSequence "First" "T" false]

def standard : Manifest :=
  ({ modules := [systemModule, textModule, collectionsModule, linqModule] } : Manifest).withDefaults

end Scripting.Manifest
