import Lox.Machine.Upvalue

/-!
# Calls

Calling a closure makes a frame whose slots begin with the callee; its instructions run next.
Calling a host function runs it at once on its arguments, which are still on the stack, and puts
its result in the place of callee and arguments.
-/

namespace Lox

/-- A function of the host: from arguments to a result, with access to the machine. -/
abbrev Native := Array Value → MachineM Value

/-- The host's functions, by their places. -/
abbrev Natives := Array Native

namespace Machine

/-- Begins a call of a closure with `given` arguments on top of the stack. -/
def callClosure (id : ObjectId) (f : FunctionObject) (given : Nat) : MachineM Unit := do
  if (given : Int) ≠ f.arity then
    throw (.runtime (.wrongArgumentCount f.arity given))
  let m ← get
  if m.config.maxCalls ≤ m.frames.size then
    throw (.runtime .stackOverflow)
  let frame : Frame :=
    { closure := id, name := f.name, chunk := f.chunk.getD .empty, ip := 0
      base := m.stack.size - given - 1 }
  set { m with frames := m.frames.push frame }

/-- Runs a host function on the `given` arguments on top of the stack. -/
def callNative (natives : Natives) (n : NativeObject) (given : Nat) : MachineM Unit := do
  if 0 ≤ n.arity ∧ (given : Int) ≠ n.arity then
    throw (.runtime (.wrongArgumentCount n.arity given))
  match natives[n.entry]? with
  | none => throw (.runtime .notCallable)
  | some native =>
    let stack := (← get).stack
    let begin_ := stack.size - given
    let result ← native (stack.extract begin_ stack.size)
    modify fun m => { m with stack := resized m.stack (begin_ - 1) }
    push result

/-- Calls whatever is below the `given` arguments on top of the stack. -/
def callValue (natives : Natives) (callee : Value) (given : Nat) : MachineM Unit := do
  let m ← get
  match callee.reference?, m.heap.deref? callee with
  | some id, some (.closure function _) =>
    match m.heap.function? function with
    | some f => callClosure id f given
    | none => throw (.runtime .notCallable)
  | _, some (.native n) => callNative natives n given
  | _, _ => throw (.runtime .notCallable)

end Machine

end Lox
