import Scripting.Syntax.Printer
import Scripting.Syntax.Parser

/-!
# Formatting

Source text in, the same program in canonical layout out. Only the grammar is checked, and comments
are not kept.
-/

namespace Scripting

def inputName : String := "<input>"

/-- Reads source text. All failures of scanning are reported, and if there are none, those of
parsing. -/
def Source.read (text file : String) : Except (List Diagnostic) (Source .parsed) :=
  match Token.scan text file with
  | (tokens, []) =>
    match Source.parse file tokens with
    | (src, []) => .ok src
    | (_, errors) => .error errors
  | (_, errors) => .error errors

def Source.format (text file : String) : Except (List Diagnostic) String :=
  (Source.read text (if file.isEmpty then inputName else file)).map fun src => src.text Style.plain

end Scripting
