import Lox.Document
import Lox.Vm

/-!
# Diagnostics

The errors of a run in two forms: as text for a reader, one line per compile error or the runtime
error with its stack trace, and as a document for a program.
-/

namespace Lox

/-- When an error was found. -/
inductive Diagnostic.Kind where
  | compile
  | runtime
  deriving DecidableEq, Repr

/-- An error, whenever it was found. -/
structure Diagnostic where
  kind : Diagnostic.Kind
  line : UInt32
  message : Text
  /-- The active calls, for an error of a running program. -/
  trace : List Text
  deriving DecidableEq, Repr

namespace Diagnostic

/-- A compile error as a diagnostic.  Its place, if it has one, is part of the message. -/
def ofCompileError (e : CompileError) : Diagnostic :=
  { kind := .compile
    line := e.line
    message := match e.location with
      | .nowhere => e.message
      | location => "Error" ++ location.toText ++ ": " ++ e.message
    trace := [] }

/-- A runtime error as a diagnostic. -/
def ofRuntimeError (e : RuntimeError) : Diagnostic :=
  { kind := .runtime, line := e.line, message := e.message, trace := e.trace }

/-- The diagnostic as a record, fields in alphabetical order. -/
def toDocument (d : Diagnostic) : Document :=
  let trace : List (Text × Document) :=
    if d.trace.isEmpty then [] else [("stackTrace", .list (d.trace.map .text))]
  .record ([(Text.ofString "kind", .text (match d.kind with
      | .compile => "compile"
      | .runtime => "runtime")),
    (Text.ofString "line", .number d.line.toNat),
    (Text.ofString "message", .text d.message),
    (Text.ofString "severity", .text "error")] ++ trace)

end Diagnostic

namespace RunResult

/-- The errors of a run. -/
def diagnostics (r : RunResult) : List Diagnostic :=
  r.compileErrors.map .ofCompileError ++ r.runtimeError?.toList.map .ofRuntimeError

/-- The errors of a run as a document. -/
def toDocument (r : RunResult) : Document :=
  .record [("diagnostics", .list (r.diagnostics.map Diagnostic.toDocument))]

/-- The errors of a run as text. -/
def toText (r : RunResult) : Text :=
  r.compileErrors.flatMap (fun e => e.toText ++ [Text.newline]) ++
    r.runtimeError?.toList.flatMap fun e => e.report ++ [Text.newline]

end RunResult

end Lox
