import Lox.Heap.Collect
import Lox.Machine.Error

/-!
# The machine

The machine runs the code of the innermost active call.  Its values are on one stack that all
calls share: a call's slots begin with the callee, then come the arguments and locals, then
whatever is being computed.  Variables that closures have captured and that are still on the
stack are listed by slot, highest first.  Globals are keyed by the identity of their interned
name.

What the program prints, and the trace if one is asked for, is collected in the machine in the
order it is written.
-/

namespace Lox

/-- Limits and switches of a machine. -/
structure MachineConfig where
  /-- How many values the stack may hold. -/
  maxStack : Nat
  /-- How many calls may be active. -/
  maxCalls : Nat
  heap : HeapConfig
  /-- Whether each instruction is traced. -/
  trace : Bool
  deriving DecidableEq, Repr

/-- The usual limits, and no trace. -/
def MachineConfig.standard : MachineConfig :=
  { maxStack := 65536, maxCalls := 256, heap := .standard, trace := false }

/-- An active call. -/
structure Frame where
  /-- The closure that was called. -/
  closure : ObjectId
  /-- Its function's name. -/
  name : Text
  /-- Its function's code. -/
  chunk : Chunk
  /-- The offset of the next instruction. -/
  ip : Nat
  /-- The slot of the callee; arguments and locals follow. -/
  base : Nat

/-- A captured variable that is still on the stack. -/
structure OpenUpvalue where
  slot : Nat
  id : ObjectId
  deriving DecidableEq, Repr

/-- The machine. -/
structure Machine where
  config : MachineConfig
  heap : Heap
  stack : Array Value
  /-- Active calls, innermost last. -/
  frames : Array Frame
  /-- Captured variables on the stack, highest slot first. -/
  openUpvalues : List OpenUpvalue
  globals : Std.TreeMap ObjectId Value
  /-- What was printed. -/
  printed : Array Text
  /-- What was traced. -/
  traced : Array Text
  /-- The host's clock in seconds, as it was last read. -/
  clock : Float

/-- A computation of the machine. -/
abbrev MachineM := EStateM Halt Machine

namespace Machine

/-- A machine that has nothing to do. -/
def new (config : MachineConfig) : Machine :=
  { config, heap := .new config.heap, stack := #[], frames := #[], openUpvalues := []
    globals := ∅, printed := #[], traced := #[], clock := 1 }

/-! ## The stack -/

/-- Puts a value on the stack. -/
def push (v : Value) : MachineM Unit := do
  let m ← get
  if m.config.maxStack ≤ m.stack.size then
    throw (.runtime .stackOverflow)
  else
    set { m with stack := m.stack.push v }

/-- Takes the top value off the stack. -/
def pop : MachineM Value := do
  let m ← get
  match m.stack.back? with
  | none => throw (.fault .stackUnderflow)
  | some v =>
    set { m with stack := m.stack.pop }
    return v

/-- The value `distance` below the top. -/
def peek (distance : Nat) : MachineM Value := do
  let m ← get
  if distance < m.stack.size then
    return m.stack.getD (m.stack.size - 1 - distance) .nil
  else
    throw (.fault .peekOutOfBounds)

/-- A stack cut down or filled up with nil to a size. -/
def resized (stack : Array Value) (size : Nat) : Array Value :=
  if size ≤ stack.size then stack.shrink size
  else stack ++ Array.replicate (size - stack.size) .nil

/-! ## The heap -/

/-- Puts an object on the heap. -/
def allocate (o : Object) : MachineM ObjectId :=
  modifyGet fun m =>
    let (id, heap) := m.heap.allocate o
    (id, { m with heap })

/-- The one string with a text. -/
def intern (t : Text) : MachineM ObjectId :=
  modifyGet fun m =>
    let (id, heap) := m.heap.intern t
    (id, { m with heap })

/-- All objects the machine refers to: from the stack, the active calls, the captured variables
on the stack, and the globals with their names. -/
def roots (m : Machine) : List ObjectId :=
  m.stack.toList.filterMap Value.reference? ++
    m.frames.toList.map Frame.closure ++
    m.openUpvalues.map OpenUpvalue.id ++
    m.globals.toList.flatMap fun (name, v) => name :: v.reference?.toList

/-- Frees what the machine cannot reach. -/
def collect (m : Machine) : Machine :=
  let roots := m.roots
  { m with heap := m.heap.collect roots }

/-- Collects if a collection is due. -/
def collectIfDue (m : Machine) : Machine :=
  if m.heap.isDue then m.collect else m

/-! ## Reporting -/

/-- The statistics as they are shown. -/
def statsText (m : Machine) : Text :=
  m.heap.statsText ++ "Stack size: " ++ Text.ofNat m.stack.size ++ "\n" ++
    "Globals: " ++ Text.ofNat m.globals.size ++ "\n"

/-- What was printed since the output was last taken, and the machine without it. -/
def takePrinted (m : Machine) : Text × Machine :=
  (m.printed.toList.flatten, { m with printed := #[] })

/-- What was traced since the trace was last taken, and the machine without it. -/
def takeTraced (m : Machine) : Text × Machine :=
  (m.traced.toList.flatten, { m with traced := #[] })

end Machine

end Lox
