import Lox.Cli.Session

/-!
# The executable

The outer layer: reads arguments, files, the clock and lines of input, hands them to the session,
and writes what the session says.  At the prompt each line is answered before the next one is
read.
-/

namespace Lox.Cli

/-- Writes a text to a stream at once. -/
def writeText (stream : IO.FS.Stream) (t : Text) : IO Unit := do
  stream.write ⟨t.toArray⟩
  stream.flush

/-- The contents of a file, if it can be opened. -/
def readFile? (name : Text) : IO (Option Text) := do
  match String.fromUTF8? ⟨name.untilNul.toArray⟩ with
  | none => return none
  | some path =>
    try
      return some (← IO.FS.readBinFile path).data.toList
    catch _ => return none

/-- The rest of a line whose bytes so far are given in reverse; nothing at the end of the
input. -/
partial def readLine? (stream : IO.FS.Stream) (reversed : Text) : IO (Option Text) := do
  match (← stream.read 1).data[0]? with
  | none => return if reversed.isEmpty then none else some reversed.reverse
  | some b =>
    if b = Text.newline then return some reversed.reverse
    else readLine? stream (b :: reversed)

/-- The clock in seconds. -/
def readClock : IO Float := do
  return (← IO.monoNanosNow).toFloat / 1000000000

/-- Writes what a program leaves behind, and gives its status. -/
def finish (r : Result) : IO UInt32 := do
  writeText (← IO.getStdout) r.out
  writeText (← IO.getStderr) r.err
  return r.exitCode.toUInt32

/-- Answers lines at the prompt until the input ends or the user leaves. -/
partial def serve (s : Session) : IO UInt32 := do
  writeText (← IO.getStdout) s.prompt
  match ← readLine? (← IO.getStdin) [] with
  | none =>
    let farewell : SessionM Nat := do
      Session.write [Text.newline]
      Session.conclude
      return 0
    finish (.ofEnding (farewell.run s))
  | some line =>
    let name := if s.pending.isEmpty then (Session.loadRequest? line).getD [] else []
    let file ← readFile? name
    match (Session.feed (fun _ => file) line).run (s.setClock (← readClock)) with
    | .error f s => finish (.ofEnding (.error f s))
    | .ok goOn s =>
      if goOn then
        let _ ← finish (.ofEnding (.ok 0 s))
        serve { s with out := #[], err := #[] }
      else
        let farewell : SessionM Nat := do
          Session.conclude
          return 0
        finish (.ofEnding (farewell.run s))

/-- Runs the program on its arguments. -/
def runProgram (arguments : List Text) : IO UInt32 := do
  match Request.ofArguments .standard arguments with
  | .run options =>
    match options.script with
    | some name =>
      let file ← readFile? name
      finish (run (← readClock) arguments [] fun _ => file)
    | none =>
      if options.compileOnly then
        finish (run (← readClock) arguments [] fun _ => none)
      else
        writeText (← IO.getStdout) Session.banner
        serve (.new options)
  | _ => finish (run (← readClock) arguments [] fun _ => none)

end Lox.Cli

/-- The entry point. -/
def main (arguments : List String) : IO UInt32 :=
  Lox.Cli.runProgram (arguments.map Lox.Text.ofString)
