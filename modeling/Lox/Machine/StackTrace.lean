import Lox.Machine.State

/-!
# Stack traces

A stack trace has a line for each active call, innermost first.  Deep recursion repeats the same
line over and over, so a run of equal lines is written once, followed by a note of how many more
there were.
-/

namespace Lox

/-- The source line a call is at: that of the byte before the next instruction. -/
def Frame.line (f : Frame) : UInt32 :=
  f.chunk.lineAt (f.ip - 1)

/-- The line of a stack trace that stands for a call. -/
def Frame.traceEntry (f : Frame) : Text :=
  "[line " ++ Text.ofNat f.line.toNat ++ "] in " ++
    if f.name.isEmpty then Text.ofString "script" else f.name ++ "()"

namespace StackTrace

/-- The note that a line was repeated; nothing if it was not. -/
def repeatNote (times : Nat) : List Text :=
  if times = 0 then []
  else ["[previous frame repeated " ++ Text.ofNat times ++ " more times]"]

/-- Collapses the lines after `last`, which was already repeated `times` times. -/
def collapseAfter (last : Text) (times : Nat) : List Text → List Text
  | [] => repeatNote times
  | entry :: entries =>
    if entry = last then collapseAfter last (times + 1) entries
    else repeatNote times ++ entry :: collapseAfter entry 0 entries

/-- Writes each run of equal lines once, with a note of the repetitions. -/
def collapse : List Text → List Text
  | [] => []
  | entry :: entries => entry :: collapseAfter entry 0 entries

end StackTrace

namespace Machine

/-- The line of the instruction being executed; zero if nothing is. -/
def currentLine (m : Machine) : UInt32 :=
  m.frames.back?.elim 0 Frame.line

/-- The stack trace of the active calls. -/
def stackTrace (m : Machine) : List Text :=
  StackTrace.collapse (m.frames.toList.reverse.map Frame.traceEntry)

end Machine

end Lox
