import Lox.Bytecode.Instruction
import Lox.Machine.Call

/-!
# Instructions at work

`Machine.execute` is the meaning of each instruction, `Machine.step` decodes the next instruction
of the innermost call and executes it.  The offset moves past the instruction before it is
executed, so that a jump counts from there and a call remembers where to go on.
-/

namespace Lox.Machine

/-! ## Arithmetic and comparison -/

/-- Replaces the two numbers on top of the stack. -/
def binaryNumber (f : Float → Float → Value) : MachineM Unit := do
  let b ← peek 0
  let a ← peek 1
  match a, b with
  | .number x, .number y =>
    let _ ← pop
    let _ ← pop
    push (f x y)
  | _, _ => throw (.runtime .operandsNotNumbers)

/-- The sum of two numbers, or two strings joined. -/
def add : MachineM Unit := do
  let b ← peek 0
  let a ← peek 1
  match a, b with
  | .number x, .number y =>
    let _ ← pop
    let _ ← pop
    push (.number (x + y))
  | _, _ =>
    let heap := (← get).heap
    match heap.string? a, heap.string? b with
    | some s, some t =>
      let id ← intern (s ++ t)
      let _ ← pop
      let _ ← pop
      push (.object (some id))
    | _, _ => throw (.runtime .operandsNotAddable)

/-- The negative of a number. -/
def negate : MachineM Unit := do
  match ← peek 0 with
  | .number x =>
    let _ ← pop
    push (.number (-x))
  | _ => throw (.runtime .operandNotNumber)

/-- Whether two values are equal, or whether they are not. -/
def compareEqual (expected : Bool) : MachineM Unit := do
  let b ← pop
  let a ← pop
  push (.bool (a.equals b == expected))

/-- The name of a value's type. -/
def typeof : MachineM Unit := do
  let v ← pop
  let name := (← get).heap.typeName v
  push (.object (some (← intern name)))

/-! ## Variables -/

/-- A string of the code. -/
def readString (chunk : Chunk) (index : Nat) : MachineM Text :=
  match chunk.strings.get? index with
  | some t => return t
  | none => throw (.fault .stringOutOfRange)

/-- Defines a global, or defines it anew, with the value on top of the stack. -/
def defineGlobal (name : Text) : MachineM Unit := do
  let id ← intern name
  let v ← peek 0
  modify fun m => { m with globals := m.globals.insert id v }
  let _ ← pop

/-- The value of a global. -/
def getGlobal (name : Text) : MachineM Unit := do
  let id ← intern name
  match (← get).globals[id]? with
  | some v => push v
  | none => throw (.runtime (.undefinedVariable name))

/-- Assigns to a global that was defined. -/
def setGlobal (name : Text) : MachineM Unit := do
  let id ← intern name
  if (← get).globals.contains id then
    let v ← peek 0
    modify fun m => { m with globals := m.globals.insert id v }
  else
    throw (.runtime (.undefinedVariable name))

/-- The value in a slot. -/
def getLocal (slot : Nat) : MachineM Unit := do
  match (← get).stack[slot]? with
  | some v => push v
  | none => throw (.fault .localOutOfRange)

/-- Assigns to a slot. -/
def setLocal (slot : Nat) : MachineM Unit := do
  if slot < (← get).stack.size then
    let v ← peek 0
    modify fun m => { m with stack := m.stack.setIfInBounds slot v }
  else
    throw (.fault .localOutOfRange)

/-- The upvalue at a place of the running closure. -/
def upvalueAt (frame : Frame) (place : Nat) : MachineM (Option ObjectId) := do
  match ((← get).upvaluesOf frame.closure)[place]? with
  | some id => return id
  | none => throw (.fault .upvalueOutOfRange)

/-! ## Closures -/

/-- The upvalue a new closure gets for a capture. -/
def capture (frame : Frame) (c : Capture) : MachineM (Option ObjectId) := do
  if c.isLocal then
    return some (← captureSlot (frame.base + c.index))
  else
    match ((← get).upvaluesOf frame.closure)[c.index]? with
    | some id => return id
    | none => throw (.fault .enclosingUpvalueOutOfRange)

/-- Gives a closure its captured variables from a place on. -/
def captureAll (frame : Frame) (closure : ObjectId) : (place : Nat) → List Capture → MachineM Unit
  | _, [] => return ()
  | place, c :: cs => do
    let upvalue ← capture frame c
    modify fun m => { m with heap := m.heap.setUpvalue closure place upvalue }
    captureAll frame closure (place + 1) cs

/-- Puts a function on the heap, and a closure of it that has captured nothing yet. -/
def allocateClosure (p : Prototype) : MachineM ObjectId := do
  let f ← allocate (.function (.ofPrototype p))
  allocate (.newClosure (some f) p.captures.size)

/-- Makes a closure of a function declared in the running code. -/
def makeClosure (frame : Frame) (index : Nat) : MachineM Unit := do
  match frame.chunk.functions[index]? with
  | none => throw (.fault .functionOutOfRange)
  | some p =>
    let closure ← allocateClosure p
    captureAll frame closure 0 p.captures.toList
    push (.object (some closure))

/-! ## Control -/

/-- Sets where the innermost call goes on. -/
def setIp (ip : Nat) : MachineM Unit :=
  modify fun m => { m with frames := m.frames.modify (m.frames.size - 1) ({ · with ip }) }

/-- Ends the innermost call.  The script's own result is dropped. -/
def doReturn (frame : Frame) : MachineM Unit := do
  let result ← pop
  modify fun m =>
    let m := m.closeUpvalues frame.base
    { m with frames := m.frames.pop, stack := resized m.stack frame.base }
  unless (← get).frames.isEmpty do
    push result

/-- Prints the value on top of the stack. -/
def print : MachineM Unit := do
  let v ← pop
  modify fun m =>
    let line := m.heap.valueText v ++ [Text.newline]
    { m with printed := m.printed.push line }

/-- Executes an instruction of the innermost call, whose offset is already past it. -/
def execute (natives : Natives) (frame : Frame) (i : Instruction) : MachineM Unit :=
  match i.opcode with
  | .loadConstant =>
    match frame.chunk.constants.get? i.operand with
    | some bits => push (.number (Float.ofBits bits))
    | none => throw (.fault .constantOutOfRange)
  | .loadString => do
    let id ← intern (← readString frame.chunk i.operand)
    push (.object (some id))
  | .loadNil => push .nil
  | .loadTrue => push (.bool true)
  | .loadFalse => push (.bool false)
  | .pop => do
    let _ ← pop
  | .add => add
  | .subtract => binaryNumber fun x y => .number (x - y)
  | .multiply => binaryNumber fun x y => .number (x * y)
  | .divide => binaryNumber fun x y => .number (x / y)
  | .negate => negate
  | .not => do
    let v ← pop
    push (.bool v.isFalsey)
  | .equal => compareEqual true
  | .notEqual => compareEqual false
  | .less => binaryNumber fun x y => .bool (x < y)
  | .greater => binaryNumber fun x y => .bool (x > y)
  | .lessEqual => binaryNumber fun x y => .bool (x ≤ y)
  | .greaterEqual => binaryNumber fun x y => .bool (x ≥ y)
  | .typeof => typeof
  | .defineGlobal => do defineGlobal (← readString frame.chunk i.operand)
  | .getGlobal => do getGlobal (← readString frame.chunk i.operand)
  | .setGlobal => do setGlobal (← readString frame.chunk i.operand)
  | .getLocal => getLocal (frame.base + i.operand)
  | .setLocal => setLocal (frame.base + i.operand)
  | .getUpvalue => do
    push (← readUpvalue (← upvalueAt frame i.operand))
  | .setUpvalue => do
    let id ← upvalueAt frame i.operand
    writeUpvalue id (← peek 0)
  | .closeUpvalue => do
    let size := (← get).stack.size
    if size = 0 then
      throw (.fault .closeUpvalueOnEmptyStack)
    modify (·.closeUpvalues (size - 1))
    let _ ← pop
  | .jump => setIp (frame.ip + i.operand)
  | .jumpIfFalse => do
    if (← peek 0).isFalsey then
      setIp (frame.ip + i.operand)
  | .loop =>
    if frame.ip < i.operand then throw (.fault .loopBeforeStart)
    else setIp (frame.ip - i.operand)
  | .call => do
    if (← get).stack.size < i.operand + 1 then
      throw (.fault .tooFewValuesForCall)
    callValue natives (← peek i.operand) i.operand
  | .closure => makeClosure frame i.operand
  | .ret => doReturn frame
  | .print => print

/-- Decodes and executes the next instruction of the innermost call. -/
def step (natives : Natives) (frame : Frame) : MachineM Unit :=
  match frame.chunk.decode frame.ip with
  | .error f => throw (.fault f)
  | .ok i => do
    let ip := frame.ip + i.size
    setIp ip
    execute natives { frame with ip } i

end Lox.Machine
