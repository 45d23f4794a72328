import Lox.Text

/-!
# Faults

A fault is a broken promise inside the implementation: code that was not produced by the compiler,
or a compiler that produced bad code.  It is never an error of the user's program, and nothing
recovers from it.  `Fault.message` is the one place that puts a fault into words.
-/

namespace Lox

/-- What can go wrong with code that does not keep its promises. -/
inductive Fault where
  /-- An instruction or operand lies past the end of the code. -/
  | readPastEnd (offset : Nat)
  /-- A jump operand to be patched lies outside the code. -/
  | patchOutside (offset : Nat)
  /-- A byte that is no opcode. -/
  | unknownOpcode (byte : UInt8)
  /-- A value was taken from an empty stack. -/
  | stackUnderflow
  /-- A value below the bottom of the stack was looked at. -/
  | peekOutOfBounds
  | constantOutOfRange
  | stringOutOfRange
  | functionOutOfRange
  | localOutOfRange
  | upvalueOutOfRange
  | enclosingUpvalueOutOfRange
  /-- A captured variable is still on the stack, but above its top. -/
  | openUpvaluePastTop
  | closeUpvalueOnEmptyStack
  /-- A backward jump further than the code reaches back. -/
  | loopBeforeStart
  /-- A call with fewer values on the stack than callee and arguments need. -/
  | tooFewValuesForCall
  /-- The compiler looked at more tokens than there are. -/
  | tokensExhausted
  /-- A host function reported a broken promise of its own. -/
  | reported (message : Text)
  deriving DecidableEq, Repr

/-- What is wrong, in words. -/
def Fault.description : Fault → Text
  | .readPastEnd offset => "operand read past end of code at " ++ Text.ofNat offset
  | .patchOutside offset => "jump patch offset " ++ Text.ofNat offset ++ " is outside the chunk"
  | .unknownOpcode byte => "unknown opcode " ++ Text.ofNat byte.toNat
  | .stackUnderflow => "stack underflow"
  | .peekOutOfBounds => "stack peek out of bounds"
  | .constantOutOfRange => "constant index out of range"
  | .stringOutOfRange => "string constant index out of range"
  | .functionOutOfRange => "function index out of range"
  | .localOutOfRange => "local slot out of range"
  | .upvalueOutOfRange => "upvalue index out of range"
  | .enclosingUpvalueOutOfRange => "enclosing upvalue index out of range"
  | .openUpvaluePastTop => "open upvalue refers past the top of the stack"
  | .closeUpvalueOnEmptyStack => "close upvalue on empty stack"
  | .loopBeforeStart => "loop target before start of code"
  | .tooFewValuesForCall => "not enough values for function call"
  | .tokensExhausted => "token budget exhausted"
  | .reported message => message

/-- The fault as it is reported.  Like every error message it ends at a NUL byte, which only the
report of a host function can contain. -/
def Fault.message (f : Fault) : Text :=
  Text.untilNul ("internal error: " ++ f.description)

end Lox
