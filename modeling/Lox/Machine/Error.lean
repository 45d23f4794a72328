import Lox.Fault

/-!
# Runtime errors

A runtime error is an error of the running program.  It has a cause, and once it leaves the
machine also the source line and the calls that were active.  A fault, in contrast, is an error of
the implementation and has no place in the program.
-/

namespace Lox

/-- Why a program cannot go on. -/
inductive RuntimeError.Cause where
  /-- Too many values or too many active calls. -/
  | stackOverflow
  | operandsNotNumbers
  | operandNotNumber
  /-- A sum of something other than two numbers or two strings. -/
  | operandsNotAddable
  | undefinedVariable (name : Text)
  | wrongArgumentCount (expected : Int) (given : Nat)
  | notCallable
  /-- A host function gave up. -/
  | raised (message : Text)
  deriving DecidableEq, Repr

/-- The cause in words. -/
def RuntimeError.Cause.description : RuntimeError.Cause → Text
  | .stackOverflow => "Stack overflow."
  | .operandsNotNumbers => "Operands must be numbers."
  | .operandNotNumber => "Operand must be a number."
  | .operandsNotAddable => "Operands must be two numbers or two strings."
  | .undefinedVariable name => "Undefined variable '" ++ name ++ "'."
  | .wrongArgumentCount expected given =>
    "Expected " ++ Text.ofInt expected ++ " arguments but got " ++ Text.ofNat given ++ "."
  | .notCallable => "Can only call functions."
  | .raised message => message

/-- The cause as it is reported.  A name or a host's message may contain a NUL byte; what follows
it is not reported. -/
def RuntimeError.Cause.message (cause : RuntimeError.Cause) : Text :=
  cause.description.untilNul

/-- A runtime error that has left the machine. -/
structure RuntimeError where
  cause : RuntimeError.Cause
  /-- The line of the instruction that failed. -/
  line : UInt32
  /-- The active calls, innermost first. -/
  trace : List Text
  deriving DecidableEq, Repr

namespace RuntimeError

/-- The message without the active calls. -/
def message (e : RuntimeError) : Text :=
  e.cause.message

/-- The message and a line for each active call. -/
def report (e : RuntimeError) : Text :=
  Text.join [Text.newline] (e.message :: e.trace)

end RuntimeError

/-- Why a step of the machine does not complete. -/
inductive Halt where
  | runtime (cause : RuntimeError.Cause)
  | fault (f : Fault)
  /-- The instructions allowed for a run are used up. -/
  | suspended
  deriving DecidableEq, Repr

end Lox
