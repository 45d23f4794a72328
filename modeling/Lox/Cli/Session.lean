import Lox.Bytecode.Listing
import Lox.Diagnostic
import Lox.Cli.Options

/-!
# Sessions

A session runs sources on one virtual machine and collects what goes to the two output streams.
A script is a session of one source; the prompt is a session of as many as the user enters.

At the prompt a source may take several lines: as long as every error sits at the end of what was
entered, or a string is not closed yet, more lines may mend it, and the prompt asks for them.  An
empty line ends such a source as it is.
-/

namespace Lox.Cli

/-- A session. -/
structure Session where
  options : Options
  vm : Vm
  /-- Whether code is listed before it runs. -/
  listing : Bool
  /-- The lines entered so far of a source that is not complete. -/
  pending : Text
  /-- What goes to the standard output. -/
  out : Array Text
  /-- What goes to the standard error output. -/
  err : Array Text

/-- A step of a session; a fault ends it. -/
abbrev SessionM := EStateM Fault Session

namespace Session

/-- A session nothing was run in yet. -/
def new (options : Options) : Session :=
  { options, vm := .new options.machine, listing := options.listing, pending := [], out := #[]
    err := #[] }

/-- The session with the host's clock read anew. -/
def setClock (s : Session) (clock : Float) : Session :=
  { s with vm := { s.vm with machine := { s.vm.machine with clock } } }

/-- Writes to the standard output. -/
def write (t : Text) : SessionM Unit :=
  modify fun s => { s with out := s.out.push t }

/-- Writes to the standard error output. -/
def complain (t : Text) : SessionM Unit :=
  modify fun s => { s with err := s.err.push t }

/-! ## Running sources -/

/-- Compiles a source; gives its script or the errors. -/
def compileSource (interactive : Bool) (source : Text) :
    SessionM (Except (List CompileError) Prototype) :=
  match compile interactive source with
  | .fault f => throw f
  | .rejected errors => return .error errors
  | .script p => return .ok p

/-- Runs a script and passes on what it printed and traced. -/
def execute (script : Prototype) : SessionM RunResult := do
  let s ← get
  let (result, vm) := s.vm.execute script
  let (printed, machine) := vm.machine.takePrinted
  let (traced, machine) := machine.takeTraced
  set { s with vm := { vm with machine } }
  write printed
  complain traced
  match result with
  | .ok r => return r
  | .error f => throw f

/-- Lists a script. -/
def list (script : Prototype) : SessionM Unit :=
  match (script.chunk.getD .empty).listing "<script>" with
  | .ok t => write t
  | .error f => throw f

/-- Reports the errors of a run. -/
def report (r : RunResult) : SessionM Unit := do
  if r = .ok then return ()
  if (← get).options.json then
    complain (r.toDocument.render ++ [Text.newline])
  else
    complain r.toText

/-- Compiles and runs a source, with its listing if that is asked for, and reports its errors. -/
def runSource (interactive : Bool) (source : Text) : SessionM RunResult := do
  let result ← match ← compileSource interactive source with
    | .error errors => pure (.rejected errors)
    | .ok script => do
      let s ← get
      if s.listing then
        list script
      if s.options.compileOnly then pure .ok else execute script
  report result
  return result

/-! ## The prompt -/

/-- Whether more lines may mend a source. -/
def needsMoreInput (source : Text) : SessionM Bool := do
  match ← compileSource true source with
  | .ok _ => return false
  | .error errors =>
    return errors.all fun e =>
      e.location = .atEnd || e.cause = .lexical .unterminatedString

/-- The commands of the prompt. -/
def commandHelp : Text :=
  "Commands:\n" ++
  "  :exit          Leave the prompt\n" ++
  "  :help          Show this help\n" ++
  "  :dis           Toggle bytecode listing for each input\n" ++
  "  :load <file>   Run a script file in this session\n" ++
  "A final expression without ';' is printed.\n"

/-- The greeting. -/
def banner : Text :=
  "loxvm " ++ version ++ " (type :help for commands)\n"

/-- What the prompt shows before a line is entered. -/
def prompt (s : Session) : Text :=
  if s.pending.isEmpty then ">>> " else "... "

/-- The file that a line asks to load: what follows the command, without leading blanks. -/
def loadRequest? (line : Text) : Option Text :=
  let command : Text := ":load"
  if command.isPrefixOf line then
    some ((line.drop command.length).dropWhile fun b => b == ' '.toUInt8 || b == '\t'.toUInt8)
  else none

/-- What cannot be opened, in words. -/
def cannotOpen (name : Text) : Text :=
  "Error: Cannot open file: " ++ name ++ "\n"

/-- Runs a file in the session.  The file is looked for under its name up to a NUL byte, but a
complaint shows the name as it was entered. -/
def load (files : Text → Option Text) (name : Text) : SessionM Unit := do
  if name.isEmpty then
    complain "Usage: :load <file>\n"
  else
    match files name.untilNul with
    | none => complain (cannotOpen name)
    | some source =>
      let _ ← runSource false source

/-- Adds a line to the source being entered, and runs the source once it is complete. -/
def enter (line : Text) : SessionM Unit := do
  let source := (← get).pending ++ line ++ [Text.newline]
  if !line.isEmpty && (← needsMoreInput source) then
    modify fun s => { s with pending := source }
  else
    let _ ← runSource true source
    modify fun s => { s with pending := [] }

/-- A line at the beginning of a source, where commands are understood; says whether to go
on. -/
def command (files : Text → Option Text) (line : Text) : SessionM Bool := do
  if line = ":exit" then
    return false
  else if line = ":help" then
    write commandHelp
  else if line = ":dis" then
    modify fun s => { s with listing := !s.listing }
    write (if (← get).listing then "disassembly on\n" else "disassembly off\n")
  else match loadRequest? line with
    | some name => load files name
    | none =>
      if line.head? = some ':'.toUInt8 then
        complain ("Unknown command '" ++ line ++ "'. Type :help for commands.\n")
      else
        enter line
  return true

/-- A line at the prompt; says whether to go on. -/
def feed (files : Text → Option Text) (line : Text) : SessionM Bool := do
  if (← get).pending.isEmpty then
    command files line
  else
    enter line
    return true

/-- The lines at the prompt, up to the end of the input or the command to leave. -/
def converse (files : Text → Option Text) : List Text → SessionM Unit
  | [] => do
    write (← get).prompt
    write [Text.newline]
  | line :: lines => do
    write (← get).prompt
    if ← feed files line then
      converse files lines

/-- Shows the statistics if they are asked for. -/
def conclude : SessionM Unit := do
  let s ← get
  if s.options.stats then
    complain s.vm.machine.statsText

end Session

/-! ## The program -/

/-- What the program leaves behind. -/
structure Result where
  exitCode : Nat
  out : Text
  err : Text
  deriving DecidableEq, Repr

/-- A result without any session. -/
def Result.plain (exitCode : Nat) (out err : Text) : Result :=
  { exitCode, out, err }

/-- What a session that has ended leaves behind.  A fault is reported and has a status of its
own. -/
def Result.ofEnding : EStateM.Result Fault Session Nat → Result
  | .ok exitCode s => { exitCode, out := s.out.toList.flatten, err := s.err.toList.flatten }
  | .error f s =>
    { exitCode := 70, out := s.out.toList.flatten
      err := s.err.toList.flatten ++ f.message ++ [Text.newline] }

/-- Runs a session from beginning to end. -/
def Result.ofSession (session : SessionM Nat) (options : Options) (clock : Float) : Result :=
  .ofEnding (session.run ((Session.new options).setClock clock))

/-- A session of one script. -/
def scriptSession (source : Text) : SessionM Nat := do
  let result ← Session.runSource false source
  Session.conclude
  return result.exitCode

/-- A session at the prompt, with all lines known beforehand. -/
def promptSession (files : Text → Option Text) (input : Text) : SessionM Nat := do
  Session.write Session.banner
  Session.converse files input.lines
  Session.conclude
  return 0

/-- The whole program: from the clock, the arguments, the standard input and the files to its
result. -/
def run (clock : Float) (arguments : List Text) (input : Text) (files : Text → Option Text) :
    Result :=
  match Request.ofArguments .standard arguments with
  | .help => .plain 0 usage []
  | .version => .plain 0 ("loxvm version " ++ version ++ "\n") []
  | .unknownOption a => .plain 64 [] ("Error: Unknown option: " ++ a ++ "\n" ++ usage)
  | .secondScript => .plain 64 [] ("Error: Only one script may be given\n" ++ usage)
  | .run options =>
    match options.script with
    | some name =>
      match files name with
      | none => .plain 66 [] (Session.cannotOpen name)
      | some source => .ofSession (scriptSession source) options clock
    | none =>
      if options.compileOnly then .plain 64 [] "Error: --compile-only needs a script\n"
      else .ofSession (promptSession files input) options clock

end Lox.Cli
