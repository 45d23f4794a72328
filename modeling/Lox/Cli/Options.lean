import Lox.Machine.State

/-!
# The command line

What the arguments ask for.  They are read from left to right, and the first one that asks for
help or the version, or that makes no sense, decides.
-/

namespace Lox.Cli

/-- The version of the program. -/
def version : Text := "0.1.0"

/-- The summary of the command line. -/
def usage : Text :=
  "\nloxvm - Lox bytecode VM v" ++ version ++ "\n" ++
  "\n" ++
  "Usage: loxvm [options] [script]\n" ++
  "\n" ++
  "With no script, starts an interactive prompt.\n" ++
  "\n" ++
  "Options:\n" ++
  "  -d, --disassemble       Print the bytecode listing before running\n" ++
  "  --compile-only          Compile (and optionally disassemble) without running\n" ++
  "  --diagnostics=json      Report errors as a JSON document on stderr\n" ++
  "  --stats                 Print heap statistics at exit\n" ++
  "  --stress-gc             Collect garbage at every instruction boundary\n" ++
  "  --trace                 Trace the stack and each instruction to stderr\n" ++
  "  --version               Show version information\n" ++
  "  --help                  Show this help message\n" ++
  "\n" ++
  "Exit codes: 0 ok, 64 usage, 65 compile error, 66 cannot open file,\n" ++
  "            70 runtime error\n"

/-- How a script or a session is to be run. -/
structure Options where
  /-- The script's name; without one there is a prompt. -/
  script : Option Text
  /-- Whether code is listed before it runs. -/
  listing : Bool
  /-- Whether code is only compiled. -/
  compileOnly : Bool
  /-- Whether errors are reported as a document. -/
  json : Bool
  /-- Whether statistics are shown at the end. -/
  stats : Bool
  machine : MachineConfig
  deriving DecidableEq, Repr

/-- Nothing asked for. -/
def Options.standard : Options :=
  { script := none, listing := false, compileOnly := false, json := false, stats := false
    machine := .standard }

/-- What the arguments ask for. -/
inductive Request where
  | help
  | version
  | unknownOption (argument : Text)
  | secondScript
  | run (options : Options)
  deriving DecidableEq, Repr

/-- Reads the arguments, given what the ones before asked for. -/
def Request.ofArguments (o : Options) : List Text → Request
  | [] => .run o
  | a :: as =>
    if a = "--help" ∨ a = "-h" then .help
    else if a = "--version" then .version
    else if a = "-d" ∨ a = "--disassemble" then ofArguments { o with listing := true } as
    else if a = "--compile-only" then ofArguments { o with compileOnly := true } as
    else if a = "--diagnostics=json" then ofArguments { o with json := true } as
    else if a = "--stats" then ofArguments { o with stats := true } as
    else if a = "--stress-gc" then
      ofArguments { o with machine.heap.stress := true } as
    else if a = "--trace" then ofArguments { o with machine.trace := true } as
    else if a.head? = some '-'.toUInt8 then .unknownOption a
    else match o.script with
      | none => ofArguments { o with script := some a } as
      | some _ => .secondScript

end Lox.Cli
