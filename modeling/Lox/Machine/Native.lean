import Lox.Machine.Call

/-!
# Host functions

Functions that a host can register with a machine.  `clock` is there from the beginning; the
others let a program look at the machine that runs it, ask for a collection, or give up with an
error or a fault of its own.
-/

namespace Lox.Native

/-- The host's clock in seconds. -/
def clock : Native := fun _ => do
  return .number (← get).clock

/-- The printed forms of values with commas between them.  No comma is written as long as the
text is empty. -/
def joinText (h : Heap) (vs : Array Value) : Text :=
  vs.foldl (fun t v => (if t.isEmpty then t else t ++ [','.toUInt8]) ++ h.valueText v) []

/-- The arguments' printed forms as one string. -/
def join : Native := fun vs => do
  let id ← Machine.intern (joinText (← get).heap vs)
  return .object (some id)

/-- How many arguments there are. -/
def count : Native := fun vs =>
  return .number (Float.ofNat vs.size)

/-- The last argument, or nil. -/
def last : Native := fun vs =>
  return vs.back?.getD .nil

/-- Collects garbage. -/
def collect : Native := fun _ => do
  modify Machine.collect
  return .nil

/-- How many calls are active. -/
def activeCalls : Native := fun _ => do
  return .number (Float.ofNat (← get).frames.size)

/-- How many values are on the stack, this call and its arguments among them. -/
def stackSize : Native := fun _ => do
  return .number (Float.ofNat (← get).stack.size)

/-- Ends the run with an error that names the arguments. -/
def fail : Native := fun vs => do
  throw (.runtime (.raised ("native failed with " ++ joinText (← get).heap vs)))

/-- Ends the run with a fault that names the arguments. -/
def breakDown : Native := fun vs => do
  throw (.fault (.reported (joinText (← get).heap vs)))

end Lox.Native
