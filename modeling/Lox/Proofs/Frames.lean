import Lox.Proofs.Calls
import Lox.Proofs.Compiler.Charts
import Lox.Proofs.Machine.Attachment
import Lox.Proofs.Machine.Layering
import Lox.Proofs.Residue

/-!
# The stack of a session between instructions

Between the instructions of a session the machine is in order (`Machine.Orderly`).  All code on it
comes from the compiler, so all of it is regular.  Every step of regular code leaves the machine in
order, and so does an error, which clears the stack.

Two things can be read off the stack then.  The active calls lie above one another, each with its own
closure at the bottom, and within the limits of the machine (`Vm.session_frames`).  The list of
captured variables that are still on the stack mirrors it: there is one entry for each of them, in the
order of the slots, and all these slots are there (`Vm.session_upvalues`).
-/

namespace Lox

namespace Machine

/-! ## Orderly machines -/

/-- Code is regular, closures have what they capture, and the active calls and the captured variables
of theirs are on the stack. -/
structure Orderly (m : Machine) : Prop where
  regular : m.heap.Regular
  attached : m.heap.Attached
  layered : m.Layered
  slots : ∀ u ∈ m.openUpvalues, u.slot < m.stack.size

section Orderly

variable {m m' : Machine} {natives : Natives} {script : Prototype}

lemma Orderly.of_eq (h : m.Orderly) (hregular : m'.heap.Regular) (hattached : m'.heap.Attached)
    (hstack : m'.stack = m.stack) (hframes : m'.frames = m.frames)
    (hopened : m'.openUpvalues = m.openUpvalues) (hconfig : m'.config = m.config) : m'.Orderly where
  regular := hregular
  attached := hattached
  layered := h.layered.of_eq hstack hframes hopened hconfig
  slots := by
    rw [hstack, hopened]
    exact h.slots

/-- Nothing is on the stack. -/
lemma orderly_of_empty (hregular : m.heap.Regular) (hattached : m.heap.Attached)
    (hframes : m.frames = #[]) (hopened : m.openUpvalues = []) (hstack : m.stack = #[]) :
    m.Orderly where
  regular := hregular
  attached := hattached
  layered := .idle hframes hopened hstack
  slots := by simp [hopened]

/-- A script is regular code, and its closure has nothing to capture. -/
lemma Intact.loading (hm : m.Intact) (hregular : m.heap.Regular) (hattached : m.heap.Attached)
    (hscript : script.Regular) (hcaptures : script.captures = #[]) :
    (m.loading script).heap.Regular ∧ (m.loading script).heap.Attached := by
  obtain ⟨hreset, hregular'⟩ := upholds_resetStack Heap.lasting_regular m hm
  obtain ⟨-, hattached'⟩ := upholds_resetStack Heap.lasting_attached m hm
  have hvalid := hreset.heap.allocate (o := .function (.ofPrototype script)) (by simp)
  refine ⟨?_, ?_⟩
  · refine ((hregular' hregular).allocate fun f hf => ⟨script, hscript, ?_⟩).allocate fun f hf => ?_
    · cases hf
      rfl
    · cases hf
  · have hfilling := ((hattached' hattached).allocate hreset.heap
      (o := .function (.ofPrototype script)) (by simp)).newClosure hvalid
        (some m.resetStack.heap.fresh) script.captures.size
    have hnone : script.captures.size = 0 := by rw [hcaptures]; rfl
    rw [hnone] at hfilling
    show ((m.resetStack.heap.allocate (.function (.ofPrototype script))).2.allocate
      (.newClosure (some m.resetStack.heap.fresh) script.captures.size)).2.Attached
    rw [hnone]
    exact hfilling.attached

/-- A machine is in order when a script begins on it. -/
lemma Intact.interpret_zero_orderly (hm : m.Intact) (hregular : m.heap.Regular)
    (hattached : m.heap.Attached) (hscript : script.Regular) (hcaptures : script.captures = #[])
    (natives : Natives) : (m.interpret natives 0 script).2.Orderly := by
  obtain ⟨hregular', hattached'⟩ := hm.loading hregular hattached hscript hcaptures
  rcases interpret_zero_cases natives script m with hbegun | ⟨hstack, hcalls, harity, hbegun⟩
  · rw [hbegun]
    exact orderly_of_empty hregular' hattached' rfl rfl rfl
  rw [hbegun]
  obtain ⟨w, arity, height, hw, harity', hlayout, hbalanced, hfunctions⟩ := hscript.exists_chunk
  obtain rfl : arity = 0 := by
    rw [harity] at harity'
    exact_mod_cast harity'.symm
  have hchunk : script.chunk.getD .empty = w := by rw [hw]; rfl
  rw [hchunk]
  have htopped : Topped { m.loaded script with frames := #[⟨m.scriptId, script.name, w, 0, 0⟩] }
      ⟨m.scriptId, script.name, w, 0, 0⟩ #[] 0 height := by
    constructor
    · rfl
    · exact .nil
    · exact ⟨⟨_, hlayout⟩, hbalanced, hfunctions, rfl, fun _ => rfl⟩
    · exact .start
    · show 1 = 0 + height 0
      rw [hbalanced.start]
    · exact hstack
    · exact hcalls
    · exact fun u hu => absurd hu List.not_mem_nil
  exact ⟨hregular', hattached', .call htopped, fun u hu => absurd hu List.not_mem_nil⟩

/-- A machine is in order between the instructions of a script. -/
theorem Sound.interpret_orderly (hnatives : ∀ native ∈ natives, native.Lawful ∧ native.Contained)
    (hverified : script.Verified) (hscript : script.Regular) (hcaptures : script.captures = #[])
    (h : m.Sound) (hregular : m.heap.Regular) (hattached : m.heap.Attached) (n : Nat) :
    (m.interpret natives n script).2.Orderly := by
  have hlawful : ∀ native ∈ natives, native.Lawful := fun native hn => (hnatives native hn).1
  induction n with
  | zero => exact h.intact.interpret_zero_orderly hregular hattached hscript hcaptures natives
  | succ n ih =>
    rcases h.interpret_succ hnatives hverified n with
      ⟨-, hsame⟩ | ⟨hrunning, frame, hframe, hstep⟩
    · rw [hsame]
      exact ih
    have hintact := (hrunning 1).sound.intact
    obtain ⟨-, hregular'⟩ := ih.layered.regular_step hlawful (hrunning 1) hframe hintact
    obtain ⟨hintact', hattached'⟩ := (hrunning 1).attached_step hlawful hframe hintact
    rcases hstep with hok | ⟨cause, m', herror, hfailed⟩
    · rw [left_ok hok] at hregular' hattached'
      have hlayered := ih.layered.step hnatives ih.regular (hrunning 1) hframe hok
      refine ⟨hregular' ih.regular, hattached' ih.attached, hlayered, ?_⟩
      -- The machine that is left is a running one again, or its stack is empty.
      rcases h.interpret_succ hnatives hverified (n + 1) with ⟨hframes, -⟩ | ⟨hrunning', -⟩
      · cases hlayered with
        | idle _ hopened _ => simp [hopened]
        | call hactive =>
          have hpushed := hactive.frames
          rw [hframes] at hpushed
          exact absurd hpushed.symm Array.push_ne_empty
      · exact (hrunning' 0).slot_lt
    · -- After an error the stack is cleared.
      rw [left_error herror] at hregular' hattached' hintact'
      rw [hfailed]
      exact orderly_of_empty
        ((upholds_resetStack Heap.lasting_regular m' hintact').2 (hregular' ih.regular))
        ((upholds_resetStack Heap.lasting_attached m' hintact').2 (hattached' ih.attached)) rfl rfl rfl

end Orderly

/-! ## What can be read off the stack -/

/-- The active calls are within these limits and lie above one another, from the bottom of the stack
on.  Each of them has its own closure in its first slot and goes on at an instruction, those that wait
right behind a call. -/
structure Framed (config : MachineConfig) (m : Machine) : Prop where
  active : 0 < m.frames.size
  calls : m.frames.size ≤ config.maxCalls
  room : m.stack.size ≤ config.maxStack
  first : ∃ f, m.frames[0]? = some f ∧ f.base = 0
  increasing : m.frames.toList.Pairwise fun f f' => f.base < f'.base
  below : ∀ f ∈ m.frames, f.base < m.stack.size
  callee : ∀ f ∈ m.frames, m.stack[f.base]? = some (.object (some f.closure))
  starts : ∀ f ∈ m.frames, f.chunk.IsStart f.ip
  waiting : ∀ f ∈ m.frames.pop, ∃ o n, f.chunk.IsStart o ∧ f.chunk.decode o = .ok ⟨.call, n⟩ ∧
    f.ip = o + (Instruction.mk .call n).size

/-- The captured variables that are on the stack are listed by their slots, from the top.  Each of
these slots is there, in an active call and above its callee.  No place of a closure is empty. -/
structure Mirrored (m : Machine) : Prop where
  descending : m.openUpvalues.Pairwise fun u u' => u'.slot < u.slot
  listed : ∀ id slot, m.heap.get? id = some (.upvalue (.onStack slot)) ↔ ⟨slot, id⟩ ∈ m.openUpvalues
  below : ∀ u ∈ m.openUpvalues, u.slot < m.stack.size
  above : ∀ u ∈ m.openUpvalues, ∃ f ∈ m.frames, f.base < u.slot
  attached : ∀ id made us, m.heap.get? id = some (.closure made us) →
    ∀ u ∈ us, ∃ j, u = some j ∧ m.heap.HasUpvalue j

section Reading

variable {config : MachineConfig} {m : Machine} {frame : Frame} {waiting : Array Frame} {arity : Nat}
  {height : Nat → Nat}

lemma Topped.first (h : m.Topped frame waiting arity height) :
    ∃ f, m.frames[0]? = some f ∧ f.base = 0 := by
  rw [h.frames]
  by_cases hwaiting : waiting = #[]
  · subst hwaiting
    exact ⟨frame, rfl, h.waiting.eq_zero⟩
  · have hpos : 0 < waiting.size := Array.size_pos_iff.2 hwaiting
    have hfirst : (waiting.push frame)[0]? = some waiting[0] := by
      rw [Array.getElem?_push_lt hpos]
    exact ⟨waiting[0], hfirst, h.waiting.first _ (Array.getElem?_eq_getElem hpos)⟩

lemma Topped.framed (h : m.Topped frame waiting arity height) (hconfig : m.config = config) :
    m.Framed config := by
  obtain ⟨upvalues, hlayout⟩ := h.seated.wellFormed
  constructor
  · rw [h.frames, Array.size_push]
    exact Nat.succ_pos _
  · exact hconfig ▸ h.calls
  · exact hconfig ▸ h.room
  · exact h.first
  · rw [h.frames, Array.toList_push, List.pairwise_append]
    refine ⟨h.waiting.pairwise, List.pairwise_singleton _ _, fun f hf f' hf' => ?_⟩
    rw [List.mem_singleton.1 hf']
    exact h.waiting.base_lt f (Array.mem_toList_iff.1 hf)
  · exact fun f hf => (Array.getElem?_eq_some_iff.1 (h.callee hf)).1
  · exact fun f hf => h.callee hf
  · intro f hf
    rw [h.frames, Array.mem_push] at hf
    rcases hf with hf | rfl
    · exact (h.waiting.behind_call f hf).1
    · exact hlayout.isStart h.reaches
  · rw [h.frames, Array.pop_push]
    exact fun f hf => (h.waiting.behind_call f hf).2

lemma Orderly.mirrored (h : m.Orderly) (hm : m.Sound) : m.Mirrored := by
  constructor
  · exact hm.sorted
  · exact fun id slot => ⟨fun hget => hm.objects hget, fun hu => hm.opened _ hu⟩
  · exact h.slots
  · intro u hu
    cases h.layered with
    | idle _ hopened _ =>
      rw [hopened] at hu
      cases hu
    | call htopped =>
      -- The slot is not that of the script's closure, which is the lowest.
      obtain ⟨f, hfirst, hbase⟩ := htopped.first
      have hmem : f ∈ m.frames := Array.mem_of_getElem? hfirst
      have hne := htopped.apart u hu f hmem
      exact ⟨f, hmem, by omega⟩
  · exact h.attached

end Reading

end Machine

/-! ## Sessions -/

namespace Vm

/-- A steady machine that is in order and has these limits. -/
structure Orderly (config : MachineConfig) (vm : Vm) : Prop extends Steady vm where
  orderly : vm.machine.Orderly
  limits : vm.machine.config = config

section Orderly

variable {config : MachineConfig} {vm : Vm}

/-- Registering host functions does not touch the stack, and brings no code. -/
lemma machine_orderly_register (hv : vm.machine.heap.Valid) (h : vm.machine.Orderly)
    (hosts : List HostFunction) : (vm.register hosts).machine.Orderly := by
  induction hosts generalizing vm with
  | nil => exact h
  | cons host hosts ih =>
    have hallocated := hv.allocate (o := .native ⟨host.name, host.arity, vm.natives.size⟩) (by simp)
    have hkeeps : ∀ {P : Heap → Prop}, Heap.Lasting P → P vm.machine.heap →
        P (vm.defineNative host.name host.arity host.native).machine.heap :=
      fun hP hh => hP.intern host.name hallocated (hP.native _ hv hh)
    exact ih (hallocated.intern host.name) (h.of_eq (hkeeps Heap.lasting_regular h.regular)
      (hkeeps Heap.lasting_attached h.attached) rfl rfl rfl rfl)

lemma orderly_register (config : MachineConfig) {hosts : List HostFunction}
    (hhosts : ∀ host ∈ hosts, host.native.Lawful ∧ host.native.Contained) :
    ((Vm.new config).register hosts).Orderly config := by
  have hempty : Machine.Orderly (.new config) :=
    Machine.orderly_of_empty (fun id f hget => by simp [Machine.new, Heap.new, Heap.get?] at hget)
      (fun id made us hget => by simp [Machine.new, Heap.new, Heap.get?] at hget) rfl rfl rfl
  exact ⟨steady_register config hhosts, @machine_orderly_register
    { machine := .new config, natives := #[] } (Heap.valid_new config.heap) hempty
    (⟨"clock", 0, Native.clock⟩ :: hosts), config_register (Vm.new config) hosts⟩

lemma Orderly.boundary (h : vm.Orderly config) (i : Input) (n : Nat) :
    (vm.boundary i n).Orderly ∧ (vm.boundary i n).config = config := by
  rcases boundary_compiled vm i with hsame | ⟨script, hcompile, hinterpret⟩
  · rw [hsame]
    exact ⟨h.orderly.of_eq h.orderly.regular h.orderly.attached rfl rfl rfl rfl, h.limits⟩
  · have hnatives : ∀ native ∈ vm.natives, native.Lawful ∧ native.Contained :=
      fun native hn => ⟨h.natives native hn, h.contained native hn⟩
    have hclock : Machine.Sound { vm.machine with clock := i.clock } := h.machine.of_eq rfl rfl
    have hverified := compile_verified hcompile
    rw [hinterpret]
    exact ⟨hclock.interpret_orderly hnatives hverified (regular_of_compile hcompile)
      (captures_of_compile hcompile) h.orderly.regular h.orderly.attached n,
      (hclock.interpret_config hnatives hverified n).trans h.limits⟩

lemma Orderly.session (h : vm.Orderly config) (budget : Nat) (inputs : List Input) :
    (session budget vm inputs).2.Orderly config := by
  induction inputs generalizing vm with
  | nil => exact h
  | cons i inputs ih =>
    obtain ⟨horderly, hlimits⟩ := h.boundary i budget
    exact ih ⟨h.toSteady.session budget [i], horderly, hlimits⟩

end Orderly

/-- Whatever the configuration, the host functions and the inputs so far, between the instructions of
the next input the active calls are within the limits of the machine and lie above one another, each
with its own closure at the bottom.  When nothing is active any more the input is over, and nothing is
left on the stack. -/
theorem session_frames (config : MachineConfig) (hosts : List HostFunction)
    (hhosts : ∀ host ∈ hosts, host.native.Lawful ∧ host.native.Contained) (budget : Nat)
    (inputs : List Input) (i : Input) (n : Nat) :
    let vm := (session budget ((Vm.new config).register hosts) inputs).2
    (vm.boundary i n).Framed config ∨
      (vm.boundary i n).frames = #[] ∧ (vm.boundary i n).stack = #[] ∧
        ∀ k, vm.boundary i (n + k) = vm.boundary i n := by
  intro vm
  have hvm : vm.Orderly config := (orderly_register config hhosts).session budget inputs
  obtain ⟨horderly, hconfig⟩ := hvm.boundary i n
  cases horderly.layered with
  | call htopped => exact .inl (htopped.framed hconfig)
  | idle hframes _ hstack =>
    refine .inr ⟨hframes, hstack, fun k => ?_⟩
    induction k with
    | zero => rfl
    | succ k ih =>
      rcases hvm.toSteady.boundary_succ i (n + k) with hsame | ⟨-, frame, hframe, -⟩
      · exact hsame.trans ih
      · rw [ih, hframes] at hframe
        cases hframe

/-- A function that has called another one, which assigns to a variable of the script's. -/
theorem session_frames_nested :
    (∀ host ∈ [HostFunction.mk "gc" 0 Native.collect],
      host.native.Lawful ∧ host.native.Contained) ∧
    let vm := (session 0 ((Vm.new .standard).register [⟨"gc", 0, Native.collect⟩]) []).2
    let i : Input := ⟨false, "{ var x; fun f(a) { var b; fun g() { x = a; gc(); return b; } return g(); } f(true); }",
      fun _ => true, 1⟩
    (vm.boundary i 9).frames.size = 3 ∧ (vm.boundary i 9).stack.size = 8 ∧
      (vm.boundary i 9).Framed .standard := by
  refine ⟨Native.contained_gc, ?_⟩
  intro vm i
  have hsize : (vm.boundary i 9).frames.size = 3 := by decide +kernel
  refine ⟨hsize, by decide +kernel, ?_⟩
  apply (session_frames .standard _ Native.contained_gc 0 [] i 9).resolve_right
  rintro ⟨hframes, -, -⟩
  change (vm.boundary i 9).frames = #[] at hframes
  rw [hframes] at hsize
  cases hsize

/-- Whatever the configuration, the host functions and the inputs so far, between the instructions of
the next input the list of captured variables that are on the stack mirrors the stack. -/
theorem session_upvalues (config : MachineConfig) (hosts : List HostFunction)
    (hhosts : ∀ host ∈ hosts, host.native.Lawful ∧ host.native.Contained) (budget : Nat)
    (inputs : List Input) (i : Input) (n : Nat) :
    let vm := (session budget ((Vm.new config).register hosts) inputs).2
    (vm.boundary i n).Mirrored := by
  intro vm
  have hvm : vm.Orderly config := (orderly_register config hhosts).session budget inputs
  obtain ⟨horderly, -⟩ := hvm.boundary i n
  exact horderly.mirrored (hvm.toSteady.boundary i n).1

/-- Variables of the script and of a function, captured by another function that is active. -/
theorem session_upvalues_nested :
    (∀ host ∈ [HostFunction.mk "gc" 0 Native.collect],
      host.native.Lawful ∧ host.native.Contained) ∧
    let vm := (session 0 ((Vm.new .standard).register [⟨"gc", 0, Native.collect⟩]) []).2
    let i : Input := ⟨false, "{ var x; fun f(a) { var b; fun g() { x = a; gc(); return b; } return g(); } f(true); }",
      fun _ => true, 1⟩
    (vm.boundary i 9).openUpvalues.map OpenUpvalue.slot = [5, 4, 1] ∧ (vm.boundary i 9).Mirrored := by
  exact ⟨Native.contained_gc, by decide +kernel,
    session_upvalues .standard _ Native.contained_gc 0 [] _ 9⟩

end Vm

end Lox
