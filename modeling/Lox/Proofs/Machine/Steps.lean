import Lox.Machine.Run
import Lox.Proofs.Bytecode.Listing

/-!
# What the machine's operations do

A computation of the machine is a function of its state.  This file says once, for the operations
that instructions are built from, which state they leave: `push_apply`, `pop_apply`, `peek_apply`
and so on.  Later files compose these equations.
-/

namespace Lox.Machine

/-! ## Sequencing -/

section Sequencing

variable {α β : Type}

lemma bind_apply (f : MachineM α) (g : α → MachineM β) (m : Machine) :
    (f >>= g) m = match f m with
      | .ok a m' => g a m'
      | .error e m' => .error e m' := by
  change EStateM.bind f g m = _
  unfold EStateM.bind
  cases f m <;> rfl

lemma pure_apply (a : α) (m : Machine) : (pure a : MachineM α) m = .ok a m := rfl

lemma get_apply (m : Machine) : (get : MachineM Machine) m = .ok m m := rfl

lemma set_apply (m m' : Machine) : (set m' : MachineM PUnit) m = .ok () m' := rfl

lemma modify_apply (f : Machine → Machine) (m : Machine) :
    (modify f : MachineM PUnit) m = .ok () (f m) := rfl

lemma throw_apply (e : Halt) (m : Machine) : (throw e : MachineM α) m = .error e m := rfl

end Sequencing

/-! ## The stack -/

lemma push_apply (v : Value) (m : Machine) :
    push v m = if m.config.maxStack ≤ m.stack.size then .error (.runtime .stackOverflow) m
      else .ok () { m with stack := m.stack.push v } := by
  rw [push, bind_apply, get_apply]
  dsimp only
  split
  · rfl
  · rfl

lemma pop_apply (m : Machine) :
    pop m = match m.stack.back? with
      | none => .error (.fault .stackUnderflow) m
      | some v => .ok v { m with stack := m.stack.pop } := by
  rw [pop, bind_apply, get_apply]
  dsimp only
  cases m.stack.back? <;> rfl

lemma peek_apply (d : Nat) (m : Machine) :
    peek d m = if d < m.stack.size then .ok (m.stack.getD (m.stack.size - 1 - d) .nil) m
      else .error (.fault .peekOutOfBounds) m := by
  rw [peek, bind_apply, get_apply]
  dsimp only
  split
  · rfl
  · rfl

/-! ## The heap -/

lemma allocate_apply (o : Object) (m : Machine) :
    allocate o m = .ok m.heap.fresh { m with heap := (m.heap.allocate o).2 } := rfl

lemma intern_apply (t : Text) (m : Machine) :
    intern t m = .ok (m.heap.intern t).1 { m with heap := (m.heap.intern t).2 } := rfl

lemma allocateClosure_apply (p : Prototype) (m : Machine) :
    allocateClosure p m = .ok (m.heap.fresh + 1) { m with
      heap := ((m.heap.allocate (.function (.ofPrototype p))).2.allocate
        (.newClosure (some m.heap.fresh) p.captures.size)).2 } := rfl

/-! ## Instructions and calls -/

lemma setIp_apply (ip : Nat) (m : Machine) :
    setIp ip m = .ok () { m with
      frames := m.frames.modify (m.frames.size - 1) ({ · with ip }) } := rfl

lemma readString_apply (chunk : Chunk) (i : Nat) (m : Machine) :
    readString chunk i m = match chunk.strings.get? i with
      | some t => .ok t m
      | none => .error (.fault .stringOutOfRange) m := by
  rw [readString]
  split <;> rename_i h <;> rw [h] <;> rfl

lemma callClosure_apply (id : ObjectId) (f : FunctionObject) (given : Nat) (m : Machine) :
    callClosure id f given m =
      if (given : Int) ≠ f.arity then .error (.runtime (.wrongArgumentCount f.arity given)) m
      else if m.config.maxCalls ≤ m.frames.size then .error (.runtime .stackOverflow) m
      else .ok () { m with frames := m.frames.push ⟨id, f.name, f.chunk.getD .empty, 0,
        m.stack.size - given - 1⟩ } := by
  unfold callClosure
  split
  · rfl
  · dsimp only
    rw [bind_apply, get_apply]
    dsimp only
    split
    · rfl
    · rfl

lemma setLocal_apply {m : Machine} {slot : Nat} (hslot : slot < m.stack.size) :
    setLocal slot m = .ok () { m with
      stack := m.stack.setIfInBounds slot (m.stack.getD (m.stack.size - 1) .nil) } := by
  have hpos : 0 < m.stack.size := Nat.lt_of_le_of_lt (Nat.zero_le slot) hslot
  unfold setLocal
  rw [bind_apply, get_apply]
  dsimp only
  rw [if_pos hslot, bind_apply, peek_apply, if_pos hpos]
  rfl

lemma getElem?_resized (stack : Array Value) (n i : Nat) :
    (resized stack n)[i]? =
      if i < n then some (stack.getD i .nil) else none := by
  rw [resized, Array.getD_eq_getD_getElem?]
  by_cases hi : i < n
  · rw [if_pos hi]
    split
    · have hlt : i < stack.size := by omega
      rw [Array.getElem?_eq_getElem (by simp; omega), Array.getElem?_eq_getElem hlt]
      simp
    · rw [Array.getElem?_append]
      split
      · rename_i hlt
        rw [Array.getElem?_eq_getElem hlt]
        rfl
      · rename_i hge
        rw [Array.getElem?_eq_none (Nat.not_lt.1 hge), Array.getElem?_replicate, if_pos (by omega)]
        rfl
  · rw [if_neg hi]
    split
    · exact Array.getElem?_eq_none (by simp; omega)
    · exact Array.getElem?_eq_none (by simp; omega)

@[simp] lemma size_resized (stack : Array Value) (n : Nat) : (resized stack n).size = n := by
  rw [resized]
  split
  · rw [Array.size_shrink]
    omega
  · rw [Array.size_append, Array.size_replicate]
    omega

/-- The machine after the innermost call, before its result is on the stack. -/
def returned (m : Machine) (base : Nat) : Machine :=
  let m := { m with stack := m.stack.pop }
  let m := m.closeUpvalues base
  { m with frames := m.frames.pop, stack := resized m.stack base }

@[simp] lemma size_returned (m : Machine) (base : Nat) : (m.returned base).stack.size = base :=
  size_resized _ _

/-- The end of a call gives its result to the calling code, if there is any. -/
lemma doReturn_apply {m : Machine} (frame : Frame) (hpos : 0 < m.stack.size) :
    doReturn frame m = if m.frames.pop.isEmpty then .ok () (m.returned frame.base)
      else push (m.stack.back hpos) (m.returned frame.base) := by
  unfold doReturn
  have hback : m.stack.back? = some (m.stack.back hpos) := by
    simp [Array.back?, Array.back]
  rw [bind_apply, pop_apply, hback]
  dsimp only
  rw [bind_apply, modify_apply]
  dsimp only
  rw [bind_apply, get_apply]
  dsimp only
  have hframes : (m.returned frame.base).frames = m.frames.pop := rfl
  change (unless (m.returned frame.base).frames.isEmpty do push (m.stack.back hpos) : MachineM Unit)
    (m.returned frame.base) = _
  rw [hframes]
  split
  · rfl
  · rfl

/-! ## Runs -/

section Runs

variable {frame : Frame}

/-- The machine with another trace. -/
def withTraced (m : Machine) (traced : Array Text) : Machine :=
  { m with traced }

/-- The machine about to execute the instruction behind a boundary: garbage may be collected, text
may be traced, and the innermost call is past the instruction. -/
def entered (m : Machine) (traced : Array Text) (ip : Nat) : Machine :=
  let m := m.collectIfDue.withTraced traced
  { m with frames := m.frames.modify (m.frames.size - 1) ({ · with ip }) }

@[simp] lemma heap_entered (m : Machine) (traced : Array Text) (ip : Nat) :
    (m.entered traced ip).heap = m.collectIfDue.heap := rfl

@[simp] lemma stack_entered (m : Machine) (traced : Array Text) (ip : Nat) :
    (m.entered traced ip).stack = m.stack := by
  unfold entered withTraced collectIfDue
  split <;> rfl

/-- Between instructions there is at most a collection and some text for the trace. -/
lemma betweenInstructions_eq {i : Instruction} (hdecode : frame.chunk.decode frame.ip = .ok i)
    (m : Machine) : ∃ traced, betweenInstructions frame m =
      .ok () (m.collectIfDue.withTraced traced) := by
  unfold betweenInstructions traceInstruction
  rw [Chunk.listAt_of_decode hdecode, bind_apply, modify_apply]
  dsimp only
  rw [bind_apply, get_apply]
  dsimp only
  split
  · exact ⟨_, rfl⟩
  · exact ⟨_, rfl⟩

/-- From a boundary on, the next instruction is executed. -/
lemma between_step_eq {i : Instruction} (hdecode : frame.chunk.decode frame.ip = .ok i)
    (natives : Natives) (m : Machine) : ∃ traced,
      (do betweenInstructions frame; step natives frame : MachineM Unit) m =
        execute natives { frame with ip := frame.ip + i.size } i
          (m.entered traced (frame.ip + i.size)) := by
  obtain ⟨traced, hbetween⟩ := betweenInstructions_eq hdecode m
  refine ⟨traced, ?_⟩
  rw [bind_apply, hbetween]
  unfold step
  rw [hdecode]
  rfl

lemma run_zero_apply (natives : Natives) (m : Machine) : run natives 0 m = .error .suspended m := rfl

lemma run_succ_apply (natives : Natives) (n : Nat) (m : Machine) :
    run natives (n + 1) m = match m.frames.back? with
      | none => .ok () m
      | some frame =>
        match (do betweenInstructions frame; step natives frame : MachineM Unit) m with
        | .ok _ m' => run natives n m'
        | .error e m' => .error e m' := by
  rw [run, bind_apply, get_apply]
  dsimp only
  cases m.frames.back? with
  | none => rfl
  | some frame =>
    dsimp only
    rw [bind_apply, bind_apply]
    cases betweenInstructions frame m with
    | ok _ m' =>
      dsimp only
      rw [bind_apply]
      cases step natives frame m' <;> rfl
    | error e m' => rfl

end Runs

/-! ## Scripts -/

/-- The machine with a script's closure on the heap, and nothing on the stack. -/
def loading (m : Machine) (script : Prototype) : Machine :=
  let m := m.resetStack
  { m with heap := ((m.heap.allocate (.function (.ofPrototype script))).2.allocate
      (.newClosure (some m.heap.fresh) script.captures.size)).2 }

/-- The identity of that closure. -/
def scriptId (m : Machine) : ObjectId :=
  m.resetStack.heap.fresh + 1

/-- The machine with the script's closure on the stack. -/
def loaded (m : Machine) (script : Prototype) : Machine :=
  { m.loading script with stack := #[.object (some m.scriptId)] }

lemma loadScript_apply (script : Prototype) (m : Machine) :
    loadScript script m =
      if m.config.maxStack ≤ 0 then .error (.runtime .stackOverflow) (m.loading script)
      else .ok m.scriptId (m.loaded script) := by
  have hrun : loadScript script m = (do
      push (.object (some m.scriptId))
      return m.scriptId) (m.loading script) := rfl
  have hconfig : (m.loading script).config = m.config := rfl
  have hstack : (m.loading script).stack = #[] := rfl
  rw [hrun, bind_apply, push_apply, hconfig, hstack, Array.size_empty]
  by_cases hfull : m.config.maxStack ≤ 0
  · rw [if_pos hfull, if_pos hfull]
  · rw [if_neg hfull, if_neg hfull]
    rfl

/-- How a script ends that was called. -/
def ending (result : EStateM.Result Halt Machine Unit) : Ending × Machine :=
  match result with
  | .ok _ m => (.finished, m)
  | .error (.runtime cause) m =>
    (.failed { cause, line := m.currentLine, trace := m.stackTrace }, m.resetStack)
  | .error (.fault f) m => (.fault f, m)
  | .error .suspended m => (.suspended, m)

lemma interpret_eq (natives : Natives) (budget : Nat) (script : Prototype) (m : Machine) :
    m.interpret natives budget script =
      if m.config.maxStack ≤ 0 then (.failed ⟨.stackOverflow, 0, []⟩, m.loading script)
      else ending ((do
        callClosure m.scriptId (.ofPrototype script) 0
        run natives budget) (m.loaded script)) := by
  unfold interpret EStateM.run
  rw [loadScript_apply]
  by_cases hfull : m.config.maxStack ≤ 0
  · rw [if_pos hfull, if_pos hfull]
  · rw [if_neg hfull, if_neg hfull]
    dsimp only
    cases (do callClosure m.scriptId (.ofPrototype script) 0
              run natives budget : MachineM Unit) (m.loaded script) with
    | ok _ m' => rfl
    | error e m' => cases e <;> rfl

end Lox.Machine
