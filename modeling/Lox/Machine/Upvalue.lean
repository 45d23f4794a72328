import Lox.Machine.State

/-!
# Captured variables

A captured variable is reached through its upvalue.  As long as the variable's scope lives it
stays on the stack, all closures that capture it share one upvalue, and reading or writing the
upvalue is reading or writing the slot.  When the scope ends the value moves into the upvalue.
-/

namespace Lox.Machine

/-- The upvalue of a stack slot, which is made if there is none. -/
def captureSlot (slot : Nat) : MachineM ObjectId := do
  let (above, rest) := (← get).openUpvalues.span fun u => slot < u.slot
  let existing? := match rest with
    | u :: _ => if u.slot = slot then some u.id else none
    | [] => none
  match existing? with
  | some id => return id
  | none =>
    let id ← allocate (.upvalue (.onStack slot))
    modify fun m => { m with openUpvalues := above ++ { slot, id } :: rest }
    return id

/-- Moves the captured variables from a slot upwards off the stack. -/
def closeUpvalues (m : Machine) (last : Nat) : Machine :=
  let (closing, rest) := m.openUpvalues.span fun u => last ≤ u.slot
  let heap := closing.foldl (fun h u => h.closeUpvalue u.id (m.stack.getD u.slot .nil)) m.heap
  { m with heap, openUpvalues := rest }

/-- The captured variables of a closure. -/
def upvaluesOf (m : Machine) (closure : ObjectId) : Array (Option ObjectId) :=
  match m.heap.get? closure with
  | some (.closure _ upvalues) => upvalues
  | _ => #[]

/-- What an upvalue refers to. -/
def upvalue? (m : Machine) (id : Option ObjectId) : Option Upvalue :=
  match id.bind m.heap.get? with
  | some (.upvalue u) => some u
  | _ => none

/-- The value of a captured variable. -/
def readUpvalue (id : Option ObjectId) : MachineM Value := do
  let m ← get
  match m.upvalue? id with
  | some (.onStack slot) =>
    match m.stack[slot]? with
    | some v => return v
    | none => throw (.fault .openUpvaluePastTop)
  | some (.closed v) => return v
  | none => return .nil

/-- Assigns to a captured variable. -/
def writeUpvalue (id : Option ObjectId) (v : Value) : MachineM Unit := do
  let m ← get
  match m.upvalue? id with
  | some (.onStack slot) =>
    if slot < m.stack.size then
      set { m with stack := m.stack.setIfInBounds slot v }
    else
      throw (.fault .openUpvaluePastTop)
  | some (.closed _) =>
    match id with
    | some id => set { m with heap := m.heap.closeUpvalue id v }
    | none => return ()
  | none => return ()

end Lox.Machine
