import Lox.Proofs.Heap.Exactness
import Lox.Proofs.Machine.Globals
import Lox.Proofs.Session

/-!
# What a source leaves behind

A source that is run to its end, or to an error, leaves nothing but globals
(`session_leaves_no_residue`).  The stack is empty, no call is active, and captured variables have
all left the stack (`Machine.Clear`).  The globals are those that were there before, with what the
source defined and assigned until its end.  All that a collection keeps then is what these globals
refer to.

So the globals are all that later sources can see of it.  Two machines that are clear and have the
same globals, up to a renaming of objects, are the same to them.
-/

namespace Lox

namespace Machine

/-! ## Clear machines -/

/-- Nothing is on the stack, no call is active, and no captured variable is on the stack, whether
listed or not. -/
structure Clear (m : Machine) : Prop where
  stack : m.stack = #[]
  frames : m.frames = #[]
  opened : m.openUpvalues = []
  upvalues : ∀ id slot, m.heap.get? id ≠ some (.upvalue (.onStack slot))

/-- The names of globals and the objects that are their values. -/
def globalReferences (m : Machine) : List ObjectId :=
  m.globals.toList.flatMap fun (name, v) => name :: v.reference?.toList

section Clear

variable {m m' : Machine} {frame : Frame} {n k : Nat} {natives : Natives} {script : Prototype}

/-- Every upvalue of the stack is listed. -/
lemma Sound.clear (h : m.Sound) (hstack : m.stack = #[]) (hframes : m.frames = #[])
    (hopened : m.openUpvalues = []) : m.Clear where
  stack := hstack
  frames := hframes
  opened := hopened
  upvalues := by
    intro id slot hget
    have hlisted : ⟨slot, id⟩ ∈ m.openUpvalues := h.objects hget
    rw [hopened] at hlisted
    cases hlisted

/-- Globals are the only roots. -/
lemma Clear.roots_eq (h : m.Clear) : m.roots = m.globalReferences := by
  unfold roots
  rw [h.stack, h.frames, h.opened]
  rfl

/-- The last call leaves nothing on the stack. -/
lemma Running.stack_of_step (hnatives : ∀ native ∈ natives, native.Lawful) (h : m.Running (n + 1))
    (hframe : m.frames.back? = some frame)
    (hstep : (do betweenInstructions frame; Machine.step natives frame : MachineM Unit) m = .ok () m')
    (hended : m'.frames = #[]) : m'.stack = #[] := by
  obtain ⟨i, traced, waiting, k, a, below, hentered⟩ := h.entered hframe natives
  rw [hentered.step] at hstep
  rcases hentered.executing.frames_execute hnatives hentered.allows hstep with
    ⟨ip, -, hframes⟩ | ⟨-, callee, -, rfl⟩ | ⟨hret, hframes⟩
  · rw [hended] at hframes
    simp at hframes
  · simp at hended
  · obtain ⟨op, operand⟩ := i
    cases hret
    obtain ⟨b, rfl⟩ := hentered.allows
    obtain rfl : waiting = #[] := hframes.symm.trans hended
    obtain ⟨-, -, -, hresult⟩ := hentered.executing.doReturn_cases hstep
    have hsize := (hresult.resolve_right fun hother => hother.1 rfl).2
    have hbelow : below = [] := by
      generalize hw : (#[] : Array Frame) = waiting at hentered
      cases hentered.executing.calls with
      | nil => rfl
      | cons => simp at hw
    rw [hentered.executing.base, hbelow] at hsize
    exact Array.size_eq_zero_iff.1 hsize

lemma Running.stack_of_run (hnatives : ∀ native ∈ natives, native.Lawful ∧ native.Contained)
    (h : m.Running (n + k)) (hactive : m.frames ≠ #[]) (hrun : Machine.run natives n m = .ok () m') :
    m'.stack = #[] := by
  induction n generalizing m with
  | zero => cases hrun
  | succ n ih =>
    rw [Nat.add_right_comm] at h
    rw [run_succ_apply] at hrun
    cases hframe : m.frames.back? with
    | none => exact absurd (by simpa using hframe) hactive
    | some frame =>
      have hnext := h.step hnatives hframe
      rw [hframe] at hrun
      dsimp only at hrun
      cases hstep : (do betweenInstructions frame; Machine.step natives frame : MachineM Unit) m with
      | error e m₁ =>
        rw [hstep] at hrun
        cases hrun
      | ok _ m₁ =>
        rw [hstep] at hrun hnext
        dsimp only at hrun
        by_cases hended : m₁.frames = #[]
        · have hstack := h.stack_of_step (fun native hn => (hnatives native hn).1) hframe hstep hended
          -- The rest of the run does nothing.
          cases n with
          | zero => cases hrun
          | succ n =>
            rw [run_succ_apply, hended] at hrun
            cases hrun
            exact hstack
        · exact ih hnext.1 hended hrun

/-- A script that has finished or failed leaves a clear machine. -/
lemma Sound.interpret_clear (hnatives : ∀ native ∈ natives, native.Lawful ∧ native.Contained)
    (hscript : script.Verified) (h : m.Sound) (budget : Nat)
    (hended : (m.interpret natives budget script).1 = .finished ∨
      ∃ e, (m.interpret natives budget script).1 = .failed e) :
    (m.interpret natives budget script).2.Clear := by
  have hsound := (interpret_keeps hnatives hscript h budget).1
  rw [interpret_eq] at hended hsound ⊢
  by_cases hfull : m.config.maxStack ≤ 0
  · rw [if_pos hfull] at hsound ⊢
    exact hsound.clear rfl rfl rfl
  rw [if_neg hfull] at hended hsound ⊢
  cases hresult : (do callClosure m.scriptId (.ofPrototype script) 0
                      run natives budget : MachineM Unit) (m.loaded script) with
  | ok _ m₂ =>
    have hcalling := h.ensures_load hscript (budget + 0)
    rw [Ensures, loadScript_apply, if_neg hfull] at hcalling
    dsimp only at hcalling
    rw [hresult] at hsound
    rw [bind_apply] at hresult
    cases hcall : callClosure m.scriptId (.ofPrototype script) 0 (m.loaded script) with
    | error e m₁ =>
      rw [hcall] at hresult
      cases hresult
    | ok _ m₁ =>
      rw [Ensures, hcall] at hcalling
      rw [hcall] at hresult
      dsimp only at hresult
      have hactive : m₁.frames ≠ #[] := by
        rw [callClosure_apply] at hcall
        split at hcall
        · cases hcall
        · split at hcall
          · cases hcall
          · cases hcall
            simp
      have hrun := hcalling.run hnatives
      rw [hresult] at hrun
      obtain ⟨hidle, hframes, -⟩ := hrun
      refine hsound.clear (hcalling.stack_of_run hnatives hactive hresult) hframes ?_
      cases hidle with
      | idle _ _ hopened => exact hopened
      | call hexecuting _ =>
        have hsome := hexecuting.frames
        rw [hframes] at hsome
        simp at hsome
  | error e m₂ =>
    rw [hresult] at hended hsound
    cases e with
    | runtime cause => exact hsound.clear rfl rfl rfl
    | fault f => simp [ending] at hended
    | suspended => simp [ending] at hended

end Clear

/-! ## Limits -/

section Limits

variable {m m' : Machine} {natives : Natives} {script : Prototype}

lemma Sound.interpret_config (hnatives : ∀ native ∈ natives, native.Lawful ∧ native.Contained)
    (hscript : script.Verified) (h : m.Sound) (n : Nat) :
    (m.interpret natives n script).2.config = m.config := by
  have hlawful : ∀ native ∈ natives, native.Lawful := fun native hmem => (hnatives native hmem).1
  induction n with
  | zero => exact (interpret_zero natives script m).2.2
  | succ n ih =>
    rw [← ih]
    rcases h.interpret_succ hnatives hscript n with
      ⟨-, hsame⟩ | ⟨hrunning, frame, hframe, hstep⟩
    · rw [hsame]
    obtain ⟨i, traced, waiting, k, a, below, hentered⟩ := (hrunning 1).entered hframe natives
    have hconfig := within_config hlawful { frame with ip := frame.ip + i.size } i
    rw [hentered.step] at hstep
    rcases hstep with hok | ⟨cause, m', herror, hfailed⟩
    · exact (hconfig.ok hok).trans (config_entered _ traced _)
    · rw [hfailed]
      exact (hconfig.error herror).trans (config_entered _ traced _)

end Limits

end Machine

/-! ## Sessions -/

namespace Vm

/-- What an input defines and assigns within its first `n` instructions, in this order. -/
def assignments (vm : Vm) (i : Input) (n : Nat) : List (Text × Value) :=
  (List.range n).filterMap fun k => (vm.boundary i k).assignment?

/-- The machine when the host has taken what was printed and traced. -/
def takeOutput (vm : Vm) : Vm :=
  { vm with machine := vm.machine.takePrinted.2.takeTraced.2 }

/-- The input compiles to a script, which is run to its end or to an error. -/
structure Completes (budget : Nat) (vm : Vm) (i : Input) : Prop where
  compiled : ∃ script, compile i.interactive i.source = .script script ∧ i.goAhead script
  ended : ∃ r, (runInput budget vm i).1 = .ok (some r)

section Completes

variable {vm : Vm} {i : Input} {budget : Nat}

lemma Completes.interpret (h : Completes budget vm i) :
    ∃ script : Prototype, script.Verified ∧
      (∀ n, vm.boundary i n =
        (Machine.interpret vm.natives n script { vm.machine with clock := i.clock }).2) ∧
      ((Machine.interpret vm.natives budget script { vm.machine with clock := i.clock }).1 = .finished ∨
        ∃ e, (Machine.interpret vm.natives budget script
          { vm.machine with clock := i.clock }).1 = .failed e) := by
  obtain ⟨⟨script, hcompile, hgo⟩, r, hended⟩ := h
  have hrun := @runInput_of_script vm i script hcompile hgo
  refine ⟨script, compile_verified hcompile, fun n => ?_, ?_⟩
  · unfold boundary
    rw [hrun]
    rfl
  · rw [hrun] at hended
    unfold executeWithin at hended
    dsimp only at hended
    split at hended
    · rename_i hfinished
      exact .inl hfinished
    · rename_i e hfailed
      exact .inr ⟨e, hfailed⟩
    · cases hended
    · cases hended

end Completes

/-- A machine whose globals and limits are known, with host functions that leave them alone. -/
structure Tracked (config : MachineConfig) (vm : Vm) : Prop extends Steady vm where
  discreet : ∀ native ∈ vm.natives, native.Discreet
  named : vm.machine.Named
  limits : vm.machine.config = config

section Tracked

variable {config : MachineConfig} {vm : Vm} {i : Input}

/-- Registering host functions gives names to them. -/
lemma named_register (hv : vm.machine.heap.Valid) (h : vm.machine.Named)
    (hosts : List HostFunction) : (vm.register hosts).machine.Named := by
  induction hosts generalizing vm with
  | nil => exact h
  | cons host hosts ih =>
    have hkeeps := Machine.blind_keepsGlobals.allocate vm.machine
      (.native ⟨host.name, host.arity, vm.natives.size⟩) (by simp)
    have hv' := (hkeeps.2 hv).1
    have hnamed : (vm.defineNative host.name host.arity host.native).machine.Named :=
      (Machine.global?_insert hv' (hkeeps.named hv h) rfl rfl).1
    exact ih (hv'.intern host.name) hnamed

lemma tracked_register (config : MachineConfig) {hosts : List HostFunction}
    (hhosts : ∀ host ∈ hosts, host.native.Lawful ∧ host.native.Contained ∧ host.native.Discreet) :
    ((Vm.new config).register hosts).Tracked config := by
  have hsteady := steady_register config fun host hmem =>
    ⟨(hhosts host hmem).1, (hhosts host hmem).2.1⟩
  have hempty : Machine.Named (.new config) := by
    intro id v hid
    simp [Machine.new] at hid
  -- The clock is registered like any other host function.
  have hnamed := @named_register { machine := .new config, natives := #[] }
    (Heap.valid_new config.heap) hempty (⟨"clock", 0, Native.clock⟩ :: hosts)
  exact ⟨hsteady, natives_register_new config (fun _ _ => rfl) fun host hmem => (hhosts host hmem).2.2,
    hnamed, config_register (Vm.new config) hosts⟩

lemma Tracked.runInput (h : vm.Tracked config) (budget : Nat) (i : Input) :
    (runInput budget vm i).2.Tracked config := by
  have hsteady : (Vm.runInput budget vm i).2.Steady := h.toSteady.session budget [i]
  have hnatives : ∀ native ∈ vm.natives, native.Lawful ∧ native.Contained ∧ native.Discreet :=
    fun native hn => ⟨h.natives native hn, h.contained native hn, h.discreet native hn⟩
  have hclock : Machine.Sound { vm.machine with clock := i.clock } := h.machine.of_eq rfl rfl
  have hdiscreet : ∀ native ∈ (Vm.runInput budget vm i).2.natives, native.Discreet := by
    rw [natives_runInput]
    exact h.discreet
  rcases boundary_cases vm i with hsame | ⟨script, hscript, hinterpret⟩
  · have hleft : (Vm.runInput budget vm i).2.machine = { vm.machine with clock := i.clock } :=
      hsame budget
    exact ⟨hsteady, hdiscreet, hleft ▸ h.named, by rw [hleft]; exact h.limits⟩
  · have hleft : (Vm.runInput budget vm i).2.machine =
        (Machine.interpret vm.natives budget script { vm.machine with clock := i.clock }).2 :=
      hinterpret budget
    refine ⟨hsteady, hdiscreet, ?_, ?_⟩
    · rw [hleft]
      exact (hclock.interpret_globals hnatives hscript h.named budget).1
    · rw [hleft]
      exact (hclock.interpret_config (fun native hn => ⟨(hnatives native hn).1, (hnatives native hn).2.1⟩)
        hscript budget).trans h.limits

lemma Tracked.session (h : vm.Tracked config) (budget : Nat) (inputs : List Input) :
    (session budget vm inputs).2.Tracked config := by
  induction inputs generalizing vm with
  | nil => exact h
  | cons i inputs ih => exact ih (h.runInput budget i)

lemma natives_session (budget : Nat) (vm : Vm) (inputs : List Input) :
    (Vm.session budget vm inputs).2.natives = vm.natives := by
  induction inputs generalizing vm with
  | nil => rfl
  | cons i inputs ih => exact (ih _).trans (natives_runInput budget vm i)

end Tracked

/-- Two sessions had the same results with the same errors, printed and traced the same, and left
the same globals up to a renaming of objects. -/
structure SameAnswers (ended ended' : List (Except Fault (Option RunResult)) × Vm) : Prop where
  results : ended'.1 = ended.1
  printed : ended'.2.machine.printed = ended.2.machine.printed
  traced : ended'.2.machine.traced = ended.2.machine.traced
  globals : ∃ ρ, ended.2.machine.heap.Renamed ρ ended'.2.machine.heap ∧
    GlobalsRenamed ρ ended.2.machine.globals ended'.2.machine.globals

section Later

variable {config : MachineConfig} {vm vm' : Vm} {ρ : Renaming}

/-- Clear machines with the same globals go on in the same way. -/
lemma Tracked.later (h : vm.Tracked config) (h' : vm'.Tracked config)
    (hclear : vm.machine.Clear) (hclear' : vm'.machine.Clear) (hnatives : vm'.natives = vm.natives)
    (huniform : ∀ native ∈ vm.natives, native.Uniform)
    (hheap : vm.machine.heap.Renamed ρ vm'.machine.heap)
    (hglobals : GlobalsRenamed ρ vm.machine.globals vm'.machine.globals) (budget : Nat)
    (next : List Input) :
    SameAnswers (Vm.session budget vm.takeOutput next) (Vm.session budget vm'.takeOutput next) := by
  cases next with
  | nil => exact ⟨rfl, rfl, rfl, ρ, hheap, hglobals⟩
  | cons i next =>
    -- The clock is read anew.
    have hclock : ∀ vm : Vm, Vm.session budget vm.takeOutput (i :: next) = Vm.session budget
        { vm.takeOutput with machine := { vm.takeOutput.machine with clock := i.clock } }
          (i :: next) := fun _ => rfl
    have hmachine : Machine.Renamed ρ { vm.takeOutput.machine with clock := i.clock }
        { vm'.takeOutput.machine with clock := i.clock } := by
      refine ⟨?_, hheap, ?_, ?_, ?_, ?_, hglobals, rfl, rfl, rfl⟩
      · show vm'.machine.config = { vm.machine.config with heap := vm'.machine.config.heap }
        rw [h.limits, h'.limits]
      · show List.Forall₂ _ vm.machine.stack.toList vm'.machine.stack.toList
        rw [hclear.stack, hclear'.stack]
        exact .nil
      · show List.Forall₂ _ vm.machine.frames.toList vm'.machine.frames.toList
        rw [hclear.frames, hclear'.frames]
        exact .nil
      · show List.Forall₂ _ vm.machine.openUpvalues vm'.machine.openUpvalues
        rw [hclear.opened, hclear'.opened]
        exact .nil
      · show ∀ u ∈ vm.machine.openUpvalues, _
        rw [hclear.opened]
        exact List.forall_mem_nil _
    have hrenamed : Vm.Renamed ρ
        { vm.takeOutput with machine := { vm.takeOutput.machine with clock := i.clock } }
        { vm'.takeOutput with machine := { vm'.takeOutput.machine with clock := i.clock } } :=
      ⟨hmachine, hnatives, huniform⟩
    obtain ⟨hresults, σ, hended⟩ := hrenamed.session budget (i :: next)
    rw [hclock vm, hclock vm']
    exact ⟨hresults, hended.machine.printed, hended.machine.traced, σ, hended.machine.heap,
      hended.machine.globals⟩

end Later

/-- A source that is run to its end or to an error leaves no residue, whatever was run before.  The
machine is clear; the globals are those from before, with what was defined and assigned until the
end, and all of them have names; and a collection keeps what is reachable from them and nothing else.
If another session ends in the same way and with the same globals up to a renaming of objects, then
all later sources have the same results with the same errors, print the same, and leave the same
globals again. -/
theorem session_leaves_no_residue (config : MachineConfig) (hosts : List HostFunction)
    (hhosts : ∀ host ∈ hosts, host.native.Lawful ∧ host.native.Contained ∧ host.native.Uniform ∧
      host.native.Discreet) (budget : Nat) (inputs : List Input) (i : Input) :
    let vm := (session budget ((Vm.new config).register hosts) inputs).2
    let left := (runInput budget vm i).2
    Completes budget vm i →
      left.machine.Clear ∧
      left.machine.global? = (vm.assignments i budget).foldl Machine.assigned vm.machine.global? ∧
      left.machine.Named ∧
      (∀ id o, left.machine.collect.heap.get? id = some o ↔
        left.machine.heap.Live left.machine.globalReferences id ∧
          left.machine.heap.get? id = some o) ∧
      ∀ (budget' : Nat) (inputs' : List Input) (i' : Input),
        let vm' := (session budget' ((Vm.new config).register hosts) inputs').2
        let left' := (runInput budget' vm' i').2
        Completes budget' vm' i' → ∀ ρ : Renaming, left.machine.heap.Renamed ρ left'.machine.heap →
          GlobalsRenamed ρ left.machine.globals left'.machine.globals →
          ∀ (n : Nat) (next : List Input),
            SameAnswers (session n left.takeOutput next) (session n left'.takeOutput next) := by
  have hregistered := tracked_register config fun host hmem =>
    ⟨(hhosts host hmem).1, (hhosts host hmem).2.1, (hhosts host hmem).2.2.2⟩
  have huniform : ∀ native ∈ ((Vm.new config).register hosts).natives, native.Uniform :=
    natives_register_new config Native.uniform_clock fun host hmem => (hhosts host hmem).2.2.1
  have hclear : ∀ {budget : Nat} {vm : Vm} {i : Input}, vm.Tracked config → Completes budget vm i →
      (runInput budget vm i).2.machine.Clear := by
    intro budget vm i h hcompletes
    obtain ⟨script, hscript, hinterpret, hended⟩ := hcompletes.interpret
    have hclock : Machine.Sound { vm.machine with clock := i.clock } := h.machine.of_eq rfl rfl
    have hleft := hclock.interpret_clear (fun native hn => ⟨h.natives native hn, h.contained native hn⟩)
      hscript budget hended
    rwa [← hinterpret] at hleft
  intro vm left hcompletes
  have hvm : vm.Tracked config := hregistered.session budget inputs
  have hleft : left.Tracked config := hvm.runInput budget i
  have hroots := (hclear hvm hcompletes).roots_eq
  refine ⟨hclear hvm hcompletes, ?_, hleft.named, fun id o => ?_, ?_⟩
  · obtain ⟨script, hscript, hinterpret, -⟩ := hcompletes.interpret
    have hclock : Machine.Sound { vm.machine with clock := i.clock } := hvm.machine.of_eq rfl rfl
    have hglobals := (hclock.interpret_globals (fun native hn =>
      ⟨hvm.natives native hn, hvm.contained native hn, hvm.discreet native hn⟩) hscript hvm.named
      budget).2
    unfold assignments
    simp only [hinterpret]
    rw [← hinterpret] at hglobals
    exact hglobals
  · show (left.machine.heap.collect left.machine.roots).get? id = some o ↔ _
    rw [hroots, hleft.machine.heap.get?_collect_eq_some, Heap.live_iff]
    constructor
    · rintro ⟨hreach, hget⟩
      exact ⟨⟨hreach, by rw [hget]; rfl⟩, hget⟩
    · rintro ⟨⟨hreach, -⟩, hget⟩
      exact ⟨hreach, hget⟩
  · intro budget' inputs' i' vm' left' hcompletes' ρ hheap hglobals n next
    have hvm' : vm'.Tracked config := hregistered.session budget' inputs'
    have hnatives : ∀ budget inputs i, (runInput budget (session budget
        ((Vm.new config).register hosts) inputs).2 i).2.natives =
          ((Vm.new config).register hosts).natives := by
      intro budget inputs i
      rw [natives_runInput, natives_session]
    have hsame : left'.natives = left.natives := (hnatives _ _ _).trans (hnatives _ _ _).symm
    have huniform' : ∀ native ∈ left.natives, native.Uniform := by
      rw [hnatives]
      exact huniform
    exact hleft.later (hvm'.runInput budget' i') (hclear hvm hcompletes) (hclear hvm' hcompletes')
      hsame huniform' hheap hglobals n next

/-- A function that defines a global anew, and then fails while a variable of its caller's is captured.
The machine that is left is the same, up to a renaming, as one on which this was done before. -/
theorem session_leaves_no_residue_failure :
    let vm := (session 100 ((Vm.new .standard).register []) []).2
    let i : Input :=
      ⟨false, "var s = nil; { var x = true; fun f() { s = x; x(); } f(); }", fun _ => true, 1⟩
    let left := (runInput 100 vm i).2
    Completes 100 vm i ∧ left.machine.Clear ∧
      left.machine.global? = (vm.assignments i 100).foldl Machine.assigned vm.machine.global? ∧
      ∃ ρ, left.machine.heap.Renamed ρ left.machine.heap ∧
        GlobalsRenamed ρ left.machine.globals left.machine.globals ∧
        ∀ n next, SameAnswers (session n left.takeOutput next) (session n left.takeOutput next) := by
  dsimp only
  have hcompleted : Completes 100 (session 100 ((Vm.new .standard).register []) []).2
      ⟨false, "var s = nil; { var x = true; fun f() { s = x; x(); } f(); }", fun _ => true, 1⟩ := by
    obtain ⟨p, hp⟩ := Compilation.exists_of_isSome (c := compile false
      "var s = nil; { var x = true; fun f() { s = x; x(); } f(); }") (by decide +kernel)
    exact ⟨⟨p, hp, rfl⟩, .failed ⟨.notCallable, 1, ["[line 1] in f()", "[line 1] in script"]⟩,
      by decide +kernel⟩
  have hresidue := session_leaves_no_residue .standard [] (List.forall_mem_nil _) 100 []
  obtain ⟨hclear, hglobals, -, -, hlater⟩ := hresidue _ hcompleted
  -- A machine is its own renaming.
  obtain ⟨ρ, hself⟩ : ∃ ρ, Vm.Renamed ρ (session 100 ((Vm.new .standard).register []) []).2
      (session 100 ((Vm.new .standard).register []) []).2 :=
    renamed_new .standard .standard .standard
  obtain ⟨-, σ, hleft⟩ := hself.runInput 100
    ⟨false, "var s = nil; { var x = true; fun f() { s = x; x(); } f(); }", fun _ => true, 1⟩
  exact ⟨hcompleted, hclear, hglobals, σ, hleft.machine.heap, hleft.machine.globals,
    hlater 100 [] _ hcompleted σ hleft.machine.heap hleft.machine.globals⟩

end Vm

end Lox
