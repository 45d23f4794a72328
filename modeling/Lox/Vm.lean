import Lox.Compiler.Program
import Lox.Machine.Native
import Lox.Machine.Run

/-!
# The virtual machine as a host sees it

A `Vm` is a machine together with the host functions its programs may call.  The host can run
sources and scripts on it one after another, look at and set globals, register functions, and
work on the operand stack.  Globals outlive a run, whatever its result.

Looking up a global interns the name, like every other use of a name does.
-/

namespace Lox

/-- A machine and the host functions that belong to it. -/
structure Vm where
  machine : Machine
  natives : Natives

/-- What became of a source or script that was run. -/
inductive RunResult where
  | ok
  /-- It did not compile. -/
  | rejected (errors : List CompileError)
  /-- It ended in a runtime error. -/
  | failed (e : RuntimeError)
  deriving DecidableEq, Repr

namespace RunResult

/-- The status a process reports. -/
def exitCode : RunResult → Nat
  | .ok => 0
  | .rejected _ => 65
  | .failed _ => 70

/-- The errors that kept a source from being run. -/
def compileErrors : RunResult → List CompileError
  | .rejected errors => errors
  | _ => []

/-- The error that ended a run. -/
def runtimeError? : RunResult → Option RuntimeError
  | .failed e => some e
  | _ => none

end RunResult

namespace Vm

/-! ## The machine's parts -/

/-- Does something with the machine.  What was changed up to an error stays changed. -/
def perform {α : Type} (vm : Vm) (action : MachineM α) : Except Halt α × Vm :=
  match action.run vm.machine with
  | .ok a machine => (.ok a, { vm with machine })
  | .error halt machine => (.error halt, { vm with machine })

/-- The one string value with a text. -/
def intern (vm : Vm) (t : Text) : Value × Vm :=
  let (id, heap) := vm.machine.heap.intern t
  (.object (some id), { vm with machine := { vm.machine with heap } })

/-- Defines a global. -/
def setGlobal (vm : Vm) (name : Text) (v : Value) : Vm :=
  let (id, heap) := vm.machine.heap.intern name
  let globals := vm.machine.globals.insert id v
  { vm with machine := { vm.machine with heap, globals } }

/-- The value of a global, if it is defined. -/
def getGlobal (vm : Vm) (name : Text) : Option Value × Vm :=
  let (id, heap) := vm.machine.heap.intern name
  (vm.machine.globals[id]?, { vm with machine := { vm.machine with heap } })

/-- Whether a global is defined. -/
def hasGlobal (vm : Vm) (name : Text) : Bool × Vm :=
  let (v?, vm) := vm.getGlobal name
  (v?.isSome, vm)

/-- Registers a host function as a global. -/
def defineNative (vm : Vm) (name : Text) (arity : Int) (native : Native) : Vm :=
  let object : NativeObject := { name, arity, entry := vm.natives.size }
  let (id, heap) := vm.machine.heap.allocate (.native object)
  let vm : Vm :=
    { machine := { vm.machine with heap }, natives := vm.natives.push native }
  vm.setGlobal name (.object (some id))

/-- A machine that knows the function `clock` and nothing else. -/
def new (config : MachineConfig) : Vm :=
  let vm : Vm := { machine := .new config, natives := #[] }
  vm.defineNative "clock" 0 Native.clock

/-! ## Running -/

/-- Runs a compiled script for at most `budget` instructions.  There is no result if these are
used up. -/
def executeWithin (budget : Nat) (vm : Vm) (script : Prototype) :
    Except Fault (Option RunResult) × Vm :=
  let (ending, machine) := vm.machine.interpret vm.natives budget script
  let result := match ending with
    | .finished => .ok (some .ok)
    | .failed e => .ok (some (.failed e))
    | .fault f => .error f
    | .suspended => .ok none
  (result, { vm with machine })

/-- Compiles a source and runs it for at most `budget` instructions, if `goAhead` agrees once it
has seen the script. -/
def interpretWithin (budget : Nat) (vm : Vm) (interactive : Bool) (source : Text)
    (goAhead : Prototype → Bool) : Except Fault (Option RunResult) × Vm :=
  match compile interactive source with
  | .fault f => (.error f, vm)
  | .rejected errors => (.ok (some (.rejected errors)), vm)
  | .script script =>
    if goAhead script then executeWithin budget vm script else (.ok (some .ok), vm)

/-- More instructions than any run takes. -/
def budget : Nat := Nat.pow 2 62

/-- The result of a run that was given enough instructions. -/
def completed : Except Fault (Option RunResult) → Except Fault RunResult
  | .ok (some result) => .ok result
  | .ok none => .error (.reported "instruction budget exhausted")
  | .error f => .error f

/-- Runs a compiled script. -/
def execute (vm : Vm) (script : Prototype) : Except Fault RunResult × Vm :=
  let (result, vm) := executeWithin budget vm script
  (completed result, vm)

/-- Compiles a source and runs it, if `goAhead` agrees once it has seen the script. -/
def interpret (vm : Vm) (interactive : Bool) (source : Text) (goAhead : Prototype → Bool) :
    Except Fault RunResult × Vm :=
  let (result, vm) := interpretWithin budget vm interactive source goAhead
  (completed result, vm)

end Vm

end Lox
