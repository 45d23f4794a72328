import Lox.Proofs.Calls
import Lox.Proofs.Compiler.Charts

/-!
# Captured variables that leave the stack

When captured variables leave the stack, each takes the value in its slot along.  This needs its
slot to be there.  It is, at each of the places where variables leave the stack: at the end of a
scope, when a call returns, when an error clears the stack, and when the next script begins on a
machine (`session_closes`).

There is one exception.  A closure captures its variables before it is put on the stack itself, and
its own slot may be among them, in a local function that calls itself.  If there is no room for the
closure on the stack, its upvalue stays open on a slot that is not there, and is closed with the
rest when the error clears the stack (`not_closes_in_range`).
-/

namespace Lox

namespace Machine

/-! ## Taking values along -/

/-- The captured variable has a value in its slot, and takes it along when the variables from the
slot `last` on leave the stack. -/
def TakesAlong (m : Machine) (last : Nat) (u : OpenUpvalue) : Prop :=
  ∃ v, m.stack[u.slot]? = some v ∧
    (m.closeUpvalues last).heap.get? u.id = some (.upvalue (.closed v))

section TakesAlong

variable {m : Machine} {last : Nat} {u : OpenUpvalue}

/-- A variable from that slot on is closed over whatever its slot holds. -/
lemma Sound.get?_closeUpvalues (h : m.Sound) (hu : u ∈ m.openUpvalues) (hlast : last ≤ u.slot) :
    (m.closeUpvalues last).heap.get? u.id =
      some (.upvalue (.closed (m.stack.getD u.slot .nil))) := by
  have hsplit : m.openUpvalues.takeWhile (fun u => decide (last ≤ u.slot)) ++
      m.openUpvalues.dropWhile (fun u => decide (last ≤ u.slot)) = m.openUpvalues :=
    List.takeWhile_append_dropWhile
  have hclosing : u ∈ m.openUpvalues.takeWhile fun u => decide (last ≤ u.slot) := by
    rw [← hsplit] at hu
    refine (List.mem_append.1 hu).resolve_right fun hrest => ?_
    exact absurd (h.lt_of_mem_dropWhile hrest) (Nat.not_lt.2 hlast)
  have hmem : ∀ u ∈ m.openUpvalues.takeWhile fun u => decide (last ≤ u.slot),
      m.heap.get? u.id = some (.upvalue (.onStack u.slot)) := by
    intro u hu
    exact h.opened u ((List.takeWhile_sublist _).subset hu)
  rw [Machine.closeUpvalues, List.span_eq_takeWhile_dropWhile]
  refine Heap.get?_closeAll h.heap (fun u hu => ⟨_, hmem u hu⟩) ?_ _ hclosing
  rintro ⟨slot, id⟩ hu ⟨slot', id'⟩ hu' heq
  have hget := hmem _ hu
  have hget' := hmem _ hu'
  dsimp only at heq hget hget'
  subst heq
  rw [hget] at hget'
  cases hget'
  rfl

lemma Sound.takesAlong (h : m.Sound) (hu : u ∈ m.openUpvalues) (hlast : last ≤ u.slot)
    (hslot : u.slot < m.stack.size) : m.TakesAlong last u := by
  refine ⟨m.stack[u.slot], Array.getElem?_eq_getElem hslot, ?_⟩
  rw [h.get?_closeUpvalues hu hlast]
  simp [Array.getD, hslot]

end TakesAlong

/-! ## Instructions that fail -/

section Failing

variable {m m' : Machine} {frame : Frame} {waiting : Array Frame} {k n : Nat} {a below : Shape}
  {natives : Natives} {i : Instruction} {cause : RuntimeError.Cause} {u : OpenUpvalue}

/-- Capturing variables opens upvalues on their slots only, and does not raise an error. -/
lemma captureAll_cases (frame : Frame) (closure : ObjectId) (place : Nat) (cs : List Capture)
    (m : Machine) :
    match captureAll frame closure place cs m with
    | .ok _ m' => m'.stack = m.stack ∧ ∀ u ∈ m'.openUpvalues, u ∈ m.openUpvalues ∨
        ∃ c ∈ cs, c.isLocal ∧ u.slot = frame.base + c.index
    | .error e _ => ∀ cause, e ≠ .runtime cause := by
  induction cs generalizing m place with
  | nil => exact ⟨rfl, fun u hu => .inl hu⟩
  | cons c cs ih =>
    -- One capture, and the machine with which the others go on.
    have hcapture : (∃ f, capture frame c m = .error (.fault f) m) ∨
        ∃ id m₁, capture frame c m = .ok id m₁ ∧ m₁.stack = m.stack ∧
          ∀ u ∈ m₁.openUpvalues, u ∈ m.openUpvalues ∨
            c.isLocal ∧ u.slot = frame.base + c.index := by
      unfold capture
      by_cases hlocal : c.isLocal
      · rw [if_pos hlocal, bind_apply]
        rcases captureSlot_cases (frame.base + c.index) m with ⟨u, -, -, hrun⟩ |
          ⟨above, rest, hsplit, -, -, hrun⟩
        · rw [hrun]
          exact .inr ⟨_, m, rfl, rfl, fun _ hu => .inl hu⟩
        · rw [hrun]
          refine .inr ⟨_, _, rfl, rfl, fun u hu => ?_⟩
          rw [hsplit, List.mem_append]
          rcases List.mem_append.1 hu with hu | hu
          · exact .inl (.inl hu)
          · rcases List.mem_cons.1 hu with rfl | hu
            · exact .inr ⟨hlocal, rfl⟩
            · exact .inl (.inr hu)
      · rw [if_neg hlocal, bind_apply, get_apply]
        dsimp only
        cases (m.upvaluesOf frame.closure)[c.index]? with
        | none => exact .inl ⟨_, rfl⟩
        | some id => exact .inr ⟨id, m, rfl, rfl, fun _ hu => .inl hu⟩
    unfold captureAll
    rw [bind_apply]
    rcases hcapture with ⟨f, hrun⟩ | ⟨id, m₁, hrun, hstack, hopened⟩
    · rw [hrun]
      exact fun cause hcause => by cases hcause
    rw [hrun]
    dsimp only
    rw [bind_apply, modify_apply]
    dsimp only
    have hrest := ih (place + 1) { m₁ with heap := m₁.heap.setUpvalue closure place id }
    cases hrun' : captureAll frame closure (place + 1) cs
        { m₁ with heap := m₁.heap.setUpvalue closure place id } with
    | error e m₂ =>
      rw [hrun'] at hrest
      exact hrest
    | ok _ m₂ =>
      rw [hrun'] at hrest
      refine ⟨hrest.1.trans hstack, fun u hu => ?_⟩
      rcases hrest.2 u hu with hu | ⟨c', hc', hslot⟩
      · rcases hopened u hu with hu | hslot
        · exact .inl hu
        · exact .inr ⟨c, List.mem_cons_self, hslot⟩
      · exact .inr ⟨c', List.mem_cons_of_mem c hc', hslot⟩

/-- A new closure captures the slot that it is to be put into itself, but there is no room for it
on the stack. -/
structure CapturesItself (frame : Frame) (i : Instruction) (m : Machine) (u : OpenUpvalue) : Prop where
  opcode : i.opcode = .closure
  captured : ∃ p, frame.chunk.functions[i.operand]? = some p ∧
    ∃ c ∈ p.captures, c.isLocal ∧ frame.base + c.index = m.stack.size
  slot : u.slot = m.stack.size
  full : m.config.maxStack ≤ m.stack.size

/-- A closure that cannot be made. -/
lemma Executing.slot_of_makeClosure {x : Bool} {p : Prototype} {j : Nat}
    (h : m.Executing frame waiting k n a below) (hp : frame.chunk.functions[j]? = some p)
    (hcaptures : p.Capturable k (x :: a))
    (hrun : makeClosure frame j m = .error (.runtime cause) m') (hu : u ∈ m'.openUpvalues) :
    u.slot < m'.stack.size ∨ CapturesItself frame ⟨.closure, j⟩ m' u := by
  unfold makeClosure at hrun
  rw [hp] at hrun
  dsimp only at hrun
  rw [bind_apply, allocateClosure_apply] at hrun
  dsimp only at hrun
  rw [bind_apply] at hrun
  generalize hm₁ : ({ m with heap := _ } : Machine) = m₁ at hrun
  have hcases := captureAll_cases frame (m.heap.fresh + 1) 0 p.captures.toList m₁
  cases hall : captureAll frame (m.heap.fresh + 1) 0 p.captures.toList m₁ with
  | error e m₂ =>
    rw [hall] at hcases hrun
    cases hrun
    exact absurd rfl (hcases cause)
  | ok _ m₂ =>
    rw [hall] at hcases hrun
    obtain ⟨hstack, hopened⟩ := hcases
    dsimp only at hrun
    rw [push_apply] at hrun
    by_cases hfull : m₂.config.maxStack ≤ m₂.stack.size
    · rw [if_pos hfull] at hrun
      cases hrun
      subst hm₁
      rw [hstack] at hfull ⊢
      rcases hopened u hu with hu | ⟨c, hc, hlocal, hslot⟩
      · exact .inl (h.slot_lt hu)
      · have hflag := hcaptures c (Array.mem_def.2 hc)
        rw [if_pos hlocal, Shape.flag?] at hflag
        have hindex := (List.getElem?_eq_some_iff.1 hflag).1
        rw [List.length_reverse, List.length_cons] at hindex
        have hsize := h.size
        rw [List.length_append, ← h.base] at hsize
        by_cases hlt : u.slot < m.stack.size
        · exact .inl hlt
        · have hown : frame.base + c.index = m'.stack.size := by
            rw [hstack]
            dsimp only
            omega
          refine .inr ⟨rfl, ⟨p, hp, c, Array.mem_def.2 hc, hlocal, hown⟩, hslot.trans hown, ?_⟩
          rw [hstack]
          exact hfull
    · rw [if_neg hfull] at hrun
      cases hrun

/-- Wherever an instruction fails, the slots of captured variables are there, except when a closure
captures itself and there is no room for it. -/
lemma Executing.slot_of_error (hnatives : ∀ native ∈ natives, native.Lawful ∧ native.Contained)
    (h : m.Executing frame waiting k n a below)
    (hallows : i.Allows frame.chunk k frame.ip (frame.chunk.Runs k n) a)
    (hrun : execute natives frame i m = .error (.runtime cause) m') (hu : u ∈ m'.openUpvalues) :
    u.slot < m'.stack.size ∨ CapturesItself frame i m' u := by
  obtain ⟨op, operand⟩ := i
  have hsize := h.size
  by_cases hclosure : op = .closure
  · subst hclosure
    obtain ⟨p, x, hp, hcaptures, -⟩ := hallows
    exact h.slot_of_makeClosure hp hcaptures hrun hu
  refine .inl ?_
  by_cases hlocal : op = .setLocal
  · subst hlocal
    obtain ⟨hlt, -⟩ := hallows
    dsimp only at hlt
    have hbase := h.base
    rw [List.length_append] at hsize
    rw [show execute natives frame ⟨.setLocal, operand⟩ m = setLocal (frame.base + operand) m from rfl,
      setLocal_apply (by omega)] at hrun
    cases hrun
  by_cases hupvalue : op = .setUpvalue
  · subst hupvalue
    rcases setUpvalue_cases frame operand m with ⟨f, herror⟩ | ⟨id, v, -, hwrite⟩
    · rw [herror] at hrun
      cases hrun
    rw [hwrite] at hrun
    rcases writeUpvalue_cases id v m with ⟨f, heq⟩ | heq | ⟨j, -, ⟨slot, -, -, heq⟩ | ⟨v', -, heq⟩⟩
    all_goals
      rw [heq] at hrun
      cases hrun
  by_cases hclose : op = .closeUpvalue
  · subst hclose
    obtain ⟨x, b, rfl, -⟩ := hallows
    rw [List.cons_append, List.length_cons] at hsize
    rw [closeUpvalue_apply frame operand (by omega)] at hrun
    cases hrun
  by_cases hret : op = .ret
  · subst hret
    obtain ⟨b, rfl⟩ := hallows
    rw [List.cons_append, List.length_cons, List.length_append] at hsize
    have hbase := h.base
    rw [show execute natives frame ⟨.ret, operand⟩ m = doReturn frame m from rfl,
      doReturn_apply frame (by omega)] at hrun
    -- The result did not find room where the call's own slots were.
    have hsound : Sound { m with stack := m.stack.pop } := h.sound.of_eq rfl rfl
    obtain ⟨-, hleft, -⟩ := hsound.closeUpvalues frame.base
    split at hrun
    · cases hrun
    · rw [push_apply] at hrun
      split at hrun
      · cases hrun
        rw [size_returned]
        exact (hleft u hu).2
      · cases hrun
  -- Below what the instruction drops the stack is as it was, and so are the captured variables.
  have hopened : m'.openUpvalues = m.openUpvalues := by
    by_cases hcall : op = .call
    · subst hcall
      rcases call_cases frame operand m with ⟨e, herror⟩ | ⟨callee, -, hok⟩ | ⟨o, hnative⟩
      · rw [herror] at hrun
        cases hrun
        rfl
      · rw [hok] at hrun
        cases hrun
      · rw [hnative] at hrun
        refine (within_callNative blind_openUpvalues.toMild ?_ o operand).error hrun
        intro native hmem
        exact (hnatives native hmem).1.within fun _ _ hhost => (fixed_of_host hhost).2.1
    · refine (within_execute blind_openUpvalues frame hcall (fun _ _ _ => rfl) (fun _ _ _ => rfl)
        ?_ ?_).error hrun
      · simp [hclosure]
      · simp [hclose, hret]
  obtain ⟨b, rfl⟩ := hallows.exists_drops ⟨hlocal, hupvalue, hclose, hret⟩
  have hlow : m.stack.size = (b ++ below).length + (Instruction.mk op operand).drops := by
    rw [hsize, List.append_assoc, List.length_append, List.length_replicate, Nat.add_comm]
  have hleaves := execute_leaves hnatives h.sound ⟨hlocal, hupvalue, hclose, hret⟩ hlow frame
  unfold Leaves at hleaves
  rw [hrun] at hleaves
  rw [hopened] at hu
  have hflag := h.opened u hu
  rw [List.append_assoc] at hflag
  have hkept := hleaves.2.stack u.slot (Shape.lt_of_flag?_replicate hflag)
  rw [Array.getElem?_eq_getElem (h.slot_lt hu)] at hkept
  exact (Array.getElem?_eq_some_iff.1 hkept).1

end Failing

/-! ## Boundaries -/

/-- On the way from a boundary to the next one, the captured variables of the machine `c` from the
slot `last` on leave the stack. -/
inductive Closes (natives : Natives) (m : Machine) : Machine → Nat → Prop
  /-- The scope of the variable on top of the stack ends. -/
  | scope {frame : Frame} {i : Instruction} {c : Machine} :
      m.frames.back? = some frame → frame.chunk.decode frame.ip = .ok i → i.opcode = .closeUpvalue →
      (do betweenInstructions frame; setIp (frame.ip + i.size) : MachineM Unit) m = .ok () c →
      Closes natives m c (c.stack.size - 1)
  /-- A call returns, with its result taken off the stack already. -/
  | ret {frame : Frame} {i : Instruction} {c : Machine} {v : Value} :
      m.frames.back? = some frame → frame.chunk.decode frame.ip = .ok i → i.opcode = .ret →
      (do betweenInstructions frame; setIp (frame.ip + i.size); pop : MachineM Value) m = .ok v c →
      Closes natives m c frame.base
  /-- An error clears the stack. -/
  | failure {frame : Frame} {cause : RuntimeError.Cause} {c : Machine} :
      m.frames.back? = some frame →
      (do betweenInstructions frame; step natives frame : MachineM Unit) m =
        .error (.runtime cause) c →
      Closes natives m c 0

section Boundaries

variable {m c : Machine} {frame : Frame} {i : Instruction} {traced : Array Text}
  {waiting : Array Frame} {k n last : Nat} {a below : Shape} {natives : Natives} {u : OpenUpvalue}

/-- The machine that is about to execute the instruction. -/
lemma Entered.executing_of_between (h : m.Entered natives frame i traced waiting k n a below)
    (hrun : (do betweenInstructions frame; setIp (frame.ip + i.size) : MachineM Unit) m = .ok () c) :
    c.Executing { frame with ip := frame.ip + i.size } waiting k n a below := by
  obtain ⟨traced', hbetween⟩ := betweenInstructions_eq h.decode m
  rw [bind_apply, hbetween] at hrun
  cases hrun
  exact h.executing.of_stack rfl rfl rfl rfl

/-- The captured variables that leave the stack behind a boundary take their values along, except
when a closure has captured itself and there is no room for it. -/
lemma Closes.takesAlong (hnatives : ∀ native ∈ natives, native.Lawful ∧ native.Contained)
    (hrunning : m.Running (n + 1)) (h : m.Closes natives c last) (hu : u ∈ c.openUpvalues)
    (hlast : last ≤ u.slot) :
    c.TakesAlong last u ∨ ∃ frame i, m.frames.back? = some frame ∧
      frame.chunk.decode frame.ip = .ok i ∧ CapturesItself frame i c u := by
  cases h with
  | @scope frame i c hframe hdecode hop hrun =>
    obtain ⟨i', traced, waiting, k, a, below, hentered⟩ := hrunning.entered hframe natives
    obtain rfl : i' = i := by simpa using hentered.decode.symm.trans hdecode
    have hexecuting := hentered.executing_of_between hrun
    exact .inl (hexecuting.sound.takesAlong hu hlast (hexecuting.slot_lt hu))
  | @ret frame i c v hframe hdecode hop hrun =>
    obtain ⟨i', traced, waiting, k, a, below, hentered⟩ := hrunning.entered hframe natives
    obtain rfl : i' = i := by simpa using hentered.decode.symm.trans hdecode
    obtain ⟨op, operand⟩ := i'
    cases hop
    obtain ⟨b, rfl⟩ := hentered.allows
    rw [← bind_assoc, bind_apply] at hrun
    cases hbetween : (do
        betweenInstructions frame
        setIp (frame.ip + Instruction.size ⟨.ret, operand⟩) : MachineM Unit) m with
    | error e c' =>
      rw [hbetween] at hrun
      cases hrun
    | ok _ c' =>
      rw [hbetween] at hrun
      have hexecuting := hentered.executing_of_between hbetween
      -- The result is no captured variable, so dropping it drops none.
      have hpop := hexecuting.pop
      unfold Ensures at hpop
      dsimp only at hrun
      rw [hrun] at hpop
      exact .inl (hpop.sound.takesAlong hu hlast (hpop.slot_lt hu))
  | @failure frame cause c hframe hrun =>
    have hsound : c.Sound := by
      have hstep := hrunning.step hnatives hframe
      rw [hrun] at hstep
      exact hstep.1
    obtain ⟨i, traced, waiting, k, a, below, hentered⟩ := hrunning.entered hframe natives
    rw [hentered.step] at hrun
    rcases hentered.executing.slot_of_error hnatives hentered.allows hrun hu with hlt | hitself
    · exact .inl (hsound.takesAlong hu hlast hlt)
    · exact .inr ⟨frame, i, hframe, hentered.decode, hitself.opcode, hitself.captured, hitself.slot,
        hitself.full⟩

end Boundaries

end Machine

/-! ## Sessions -/

namespace Vm

/-- Captured variables take their values along when they leave the stack.  Whatever the
configuration, the host functions and the inputs so far, this is true when the stack is cleared for
the next script, and whenever captured variables leave the stack while it runs.  The one exception
is the upvalue of a closure that captures itself, when there is no room for the closure on the
stack. -/
theorem session_closes (config : MachineConfig) (hosts : List HostFunction)
    (hhosts : ∀ host ∈ hosts, host.native.Lawful ∧ host.native.Contained) (budget : Nat)
    (inputs : List Input) (i : Input) {script : Prototype}
    (hcompile : compile i.interactive i.source = .script script) (hgo : i.goAhead script) :
    let vm := (session budget ((Vm.new config).register hosts) inputs).2
    (∀ u ∈ vm.machine.openUpvalues, vm.machine.TakesAlong 0 u) ∧
    (∀ e c, Machine.callClosure vm.machine.scriptId (.ofPrototype script) 0
      (vm.machine.loaded script) = .error e c → c.openUpvalues = []) ∧
    ∀ n c last, (vm.boundary i n).Closes vm.natives c last → ∀ u ∈ c.openUpvalues, last ≤ u.slot →
      c.TakesAlong last u ∨ ∃ frame instruction, (vm.boundary i n).frames.back? = some frame ∧
        frame.chunk.decode frame.ip = .ok instruction ∧
        Machine.CapturesItself frame instruction c u := by
  intro vm
  have hsteady : vm.Steady := (steady_register config hhosts).session budget inputs
  have hnatives : ∀ native ∈ vm.natives, native.Lawful ∧ native.Contained :=
    fun native hn => ⟨hsteady.natives native hn, hsteady.contained native hn⟩
  refine ⟨fun u hu => ?_, fun e c hrun => ?_, fun n c last hcloses u hu hlast => ?_⟩
  · have hopen := hsteady.machine.opened u hu
    obtain ⟨v, hv⟩ := hsteady.valued ⟨_, hopen⟩
    rw [Machine.captured?_onStack hopen] at hv
    exact hsteady.machine.takesAlong hu (Nat.zero_le _) (Array.getElem?_eq_some_iff.1 hv).1
  · rw [Machine.callClosure_apply] at hrun
    split at hrun
    · cases hrun
      rfl
    · split at hrun
      · cases hrun
        rfl
      · cases hrun
  · have hclock : Machine.Sound { vm.machine with clock := i.clock } :=
      hsteady.machine.of_eq rfl rfl
    have hboundary : vm.boundary i n =
        (Machine.interpret vm.natives n script { vm.machine with clock := i.clock }).2 := by
      unfold boundary runInput interpretWithin
      rw [hcompile]
      simp only [if_pos hgo]
      rfl
    rcases hclock.interpret_succ hnatives (compile_verified hcompile) n with ⟨hnone, -⟩ | ⟨hrunning, -⟩
    · rw [← hboundary] at hnone
      cases hcloses with
      | scope hframe | ret hframe | failure hframe =>
        rw [hnone] at hframe
        cases hframe
    · rw [← hboundary] at hrunning
      exact hcloses.takesAlong hnatives (hrunning 1) hu hlast

/-- A function that captures a variable and returns. -/
theorem session_closes_counter :
    ∃ script, compile false "fun f() { var n; fun g() { return n; } return g; } f();" =
        .script script ∧
      let vm := (session 0 ((Vm.new .standard).register []) []).2
      let i : Input :=
        ⟨false, "fun f() { var n; fun g() { return n; } return g; } f();", fun _ => true, 1⟩
      ∀ n c last, (vm.boundary i n).Closes vm.natives c last → ∀ u ∈ c.openUpvalues, last ≤ u.slot →
        c.TakesAlong last u ∨ ∃ frame instruction, (vm.boundary i n).frames.back? = some frame ∧
          frame.chunk.decode frame.ip = .ok instruction ∧
          Machine.CapturesItself frame instruction c u := by
  obtain ⟨script, hscript⟩ := Compilation.exists_of_isSome (c := compile false
    "fun f() { var n; fun g() { return n; } return g; } f();") (by decide +kernel)
  refine ⟨script, hscript, ?_⟩
  intro vm i
  have hcloses := session_closes .standard [] (List.forall_mem_nil _) 0 [] i hscript rfl
  exact hcloses.2.2

/-- The exception occurs.  With room for one value, a function that calls itself is captured by its
closure in the slot that comes next, the closure is not put there, and the slot is not there when
the stack is cleared. -/
theorem not_closes_in_range :
    let vm := (session 0 (Vm.new { MachineConfig.standard with maxStack := 1 }) []).2
    let i : Input := ⟨false, "{ fun f() { f; } }", fun _ => true, 1⟩
    ¬ ∀ n c last, (vm.boundary i n).Closes vm.natives c last → ∀ u ∈ c.openUpvalues,
      last ≤ u.slot → u.slot < c.stack.size := by
  intro vm i hrange
  -- The first instruction is to make the closure.
  have hfails : ((vm.boundary i 0).frames.back?.any fun frame =>
      match (do Machine.betweenInstructions frame; Machine.step vm.natives frame : MachineM Unit)
        (vm.boundary i 0) with
      | .ok _ _ => false
      | .error e c =>
        e = .runtime .stackOverflow ∧ c.openUpvalues.map OpenUpvalue.slot = [1] ∧ c.stack.size = 1) =
      true := by
    decide +kernel
  rw [Option.any_eq_true] at hfails
  obtain ⟨frame, hframe, hresult⟩ := hfails
  cases hrun : (do Machine.betweenInstructions frame
                   Machine.step vm.natives frame : MachineM Unit) (vm.boundary i 0) with
  | ok _ c =>
    rw [hrun] at hresult
    cases hresult
  | error e c =>
    rw [hrun] at hresult
    obtain ⟨rfl, hslots, hsize⟩ := of_decide_eq_true hresult
    obtain ⟨u, hu, hslot⟩ : ∃ u ∈ c.openUpvalues, u.slot = 1 := by
      rw [← List.mem_map, hslots]
      exact List.mem_singleton_self 1
    have hlt := hrange 0 c 0 (.failure hframe hrun) u hu (Nat.zero_le _)
    rw [hslot, hsize] at hlt
    exact Nat.lt_irrefl 1 hlt

end Vm

end Lox
