import Lox.Bytecode.Listing
import Lox.Machine.StackTrace
import Lox.Machine.Step

/-!
# Runs

A run executes instructions until no call is active.  Between instructions, and only there, a
collection may take place and the instruction to come may be traced.  A run has a budget of
instructions; one that uses it up is suspended.

`Machine.interpret` runs a script from a clean stack.  A runtime error is given the place where
it happened and then clears the stack, while a fault leaves the machine as it stands.
-/

namespace Lox.Machine

/-- A value on the stack as the trace shows it. -/
def slotText (m : Machine) (v : Value) : Text :=
  "[ " ++ m.heap.valueText v ++ " ]"

/-- The stack as a line of the trace shows it. -/
def stackText (m : Machine) : Text :=
  Text.ofString "          " ++ m.stack.toList.flatMap m.slotText ++ [Text.newline]

/-- Writes the stack and the next instruction to the trace. -/
def traceInstruction (frame : Frame) : MachineM Unit := do
  modify fun m =>
    let head := m.stackText ++ frame.chunk.locationText frame.ip
    { m with traced := m.traced.push head }
  match frame.chunk.listAt frame.ip with
  | .error f => throw (.fault f)
  | .ok (text, _) => modify fun m => { m with traced := m.traced.push text }

/-- What happens between two instructions. -/
def betweenInstructions (frame : Frame) : MachineM Unit := do
  modify collectIfDue
  if (← get).config.trace then
    traceInstruction frame

/-- Executes at most `budget` instructions, until no call is active. -/
def run (natives : Natives) : (budget : Nat) → MachineM Unit
  | 0 => throw .suspended
  | budget + 1 => do
    match (← get).frames.back? with
    | none => return ()
    | some frame =>
      betweenInstructions frame
      step natives frame
      run natives budget

/-- Clears the stack.  Captured variables keep their values. -/
def resetStack (m : Machine) : Machine :=
  { m.closeUpvalues 0 with stack := #[], frames := #[], openUpvalues := [] }

/-- Puts a script on the empty stack as a closure; gives its identity and function. -/
def loadScript (script : Prototype) : MachineM ObjectId := do
  modify resetStack
  let closure ← allocateClosure script
  push (.object (some closure))
  return closure

/-- How a run ends. -/
inductive Ending where
  | finished
  | failed (e : RuntimeError)
  | fault (f : Fault)
  | suspended
  deriving DecidableEq, Repr

/-- Runs a script. -/
def interpret (natives : Natives) (budget : Nat) (script : Prototype) (m : Machine) :
    Ending × Machine :=
  match (loadScript script).run m with
  | .error (.runtime cause) m => (.failed { cause, line := 0, trace := [] }, m)
  | .error (.fault f) m => (.fault f, m)
  | .error .suspended m => (.suspended, m)
  | .ok closure m =>
    let calling : MachineM Unit := do
      callClosure closure (.ofPrototype script) 0
      run natives budget
    match calling.run m with
    | .ok () m => (.finished, m)
    | .error (.runtime cause) m =>
      let e : RuntimeError := { cause, line := m.currentLine, trace := m.stackTrace }
      (.failed e, m.resetStack)
    | .error (.fault f) m => (.fault f, m)
    | .error .suspended m => (.suspended, m)

end Lox.Machine
