/-!
# Commands

What a command line asks for.
-/

namespace Scripting

/-- What can be done with a file. -/
inductive Command.Action where
  | run
  | build
  | exec
  | check
  | disasm
  | ast
  | hostgen
deriving DecidableEq, Repr

/-- The flags that commands share. -/
structure Command.Options where
  output : String := ""
  useCache : Bool := false
  /-- What is not a flag. -/
  args : List String := []

/-- What a command line asks for. -/
inductive Command where
  | help
  | repl
  | onFile (action : Command.Action) (path : String) (opts : Command.Options)
  /-- A command line that cannot be understood, with what is shown instead. -/
  | misused (text : String)

namespace Command

def usage : String := "Usage: jitzu [flags] <command> [arguments]

Commands:
  run <file> [--cache]      compile and run a script (the default command)
  build <file> [-o out]     compile a script into a bytecode bundle
  exec <bundle>             run a bytecode bundle
  check <file>              resolve and type check without running
  disasm <file>             print the bytecode of a script
  ast <file>                print the resolved syntax tree
  repl                      read and run batches interactively
  hostgen <pkg> [-o out]    write a host manifest for a Go package
  help                      show this message

Flags:
  -v, -vv                   log more (info, debug)

With no command, a file argument is run; with no arguments, source is
read from stdin, or a REPL starts when stdin is a terminal.
"

def verbosityFlags : List String := ["-v", "--verbose", "-vv"]

def complain (message : String) : Command := .misused ("Error: " ++ message ++ "\n")

def complainWithUsage (message : String) : Command :=
  .misused ("Error: " ++ message ++ "\n\n" ++ usage)

def options (o : Options) : List String → Except String Options
  | [] => .ok o
  | [arg] =>
    if arg == "-o" || arg == "--output" then .error (arg ++ " needs a path") else plain o arg
  | arg :: next :: args =>
    if arg == "-o" || arg == "--output" then options { o with output := next } args
    else
      match plain o arg with
      | .ok o => options o (next :: args)
      | .error e => .error e
where
  /-- Reads one argument that stands for itself. -/
  plain (o : Options) (arg : String) : Except String Options :=
    if arg == "--cache" then .ok { o with useCache := true }
    else if arg.startsWith "-" && arg != "-" then .error ("unknown flag " ++ arg)
    else .ok { o with args := o.args ++ [arg] }

def withFile (action : Action) (o : Options) : Command :=
  match o.args with
  | [path] => .onFile action path o
  | _ => complainWithUsage "expected exactly one file argument"

def actions : List (String × Action) :=
  [("run", .run), ("build", .build), ("exec", .exec), ("check", .check), ("disasm", .disasm),
    ("ast", .ast), ("hostgen", .hostgen)]

/-- The command with a name and flags. `all` is the whole command line: a file may stand first. -/
def named (name : String) (o : Options) (all : List String) : Command :=
  if ["help", "-h", "--help"].contains name then .help
  else if name == "repl" then .repl
  else
    match actions.lookup name with
    | some action => withFile action o
    | none =>
      if name.startsWith "-" then complainWithUsage ("unknown flag " ++ name)
      else
        match options {} all with
        | .error e => complain e
        | .ok o => withFile .run o

/-- Understands a command line. Without arguments the script is read from the input, and a terminal gets
a session instead. -/
def parse (interactive : Bool) (args : List String) : Command :=
  match args.filter fun a => !verbosityFlags.contains a with
  | [] => if interactive then .repl else .onFile .run "-" {}
  | name :: rest =>
    match options {} rest with
    | .error e => complain e
    | .ok o => named name o (name :: rest)

end Command

end Scripting
