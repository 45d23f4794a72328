import Lox.Vm
import Lox.Proofs.Compiler.Progress
import Lox.Proofs.Compiler.Reading.Statement
import Lox.Proofs.Compiler.Verification
import Lox.Proofs.Machine.Agreement
import Lox.Proofs.Machine.Captured
import Lox.Proofs.Machine.Safety

/-!
# Sessions

In a session the host registers functions with a new machine and then has sources run on it one
after another.  Each source is given the same budget of instructions, so that a source whose run
does not end is a suspended run for every budget.

A session never ends in a fault (`Vm.session_ne_fault`).  The compiler does not fault on any
source, what it accepts is verified code (`compile_verified`), and verified code runs without a
fault on a sound machine and leaves a sound machine, on which the next source runs.

When the heap collects cannot be observed (`Vm.session_heap_irrelevant`).  Two sessions that differ
only in this go through the same states up to a renaming of objects.

What a closure has captured changes only by assignment (`Vm.session_captured`).  This is said of the
boundaries of an input, which are the machines that are left when its run is stopped after some
number of instructions.
-/

namespace Lox

/-! ## What a host does -/

/-- A function that a host registers. -/
structure HostFunction where
  name : Text
  /-- How many arguments it takes; any number if negative. -/
  arity : Int
  native : Native

/-- A source that a host has run. -/
structure Input where
  interactive : Bool
  source : Text
  /-- Whether to run the script, once it is compiled. -/
  goAhead : Prototype → Bool
  /-- What the host's clock shows. -/
  clock : Float

namespace Vm

/-- Registers host functions one after another. -/
def register (vm : Vm) (hosts : List HostFunction) : Vm :=
  hosts.foldl (fun vm h => vm.defineNative h.name h.arity h.native) vm

/-- Runs a source, with the clock read anew. -/
def runInput (budget : Nat) (vm : Vm) (i : Input) : Except Fault (Option RunResult) × Vm :=
  let machine := { vm.machine with clock := i.clock }
  interpretWithin budget { vm with machine } i.interactive i.source i.goAhead

/-- Runs sources one after another; gives their results and the machine that is left. -/
def session (budget : Nat) (vm : Vm) : List Input → List (Except Fault (Option RunResult)) × Vm
  | [] => ([], vm)
  | i :: inputs =>
    let (result, vm) := runInput budget vm i
    let (results, vm) := session budget vm inputs
    (result :: results, vm)

end Vm

/-- The host functions at hand, as a host registers them. -/
def hostLibrary : List HostFunction :=
  [⟨"gc", 0, .collect⟩, ⟨"join", -1, .join⟩, ⟨"count", -1, .count⟩, ⟨"last", -1, .last⟩,
   ⟨"frames", 0, .activeCalls⟩, ⟨"stack", 0, .stackSize⟩, ⟨"fail", -1, .fail⟩]

/-! ## Lawful host functions -/

namespace Native

lemma lawful_clock : clock.Lawful := fun _ _ => .refl

lemma lawful_count : count.Lawful := fun _ _ => .refl

lemma lawful_last : last.Lawful := fun _ _ => .refl

lemma lawful_activeCalls : activeCalls.Lawful := fun _ _ => .refl

lemma lawful_stackSize : stackSize.Lawful := fun _ _ => .refl

lemma lawful_fail : fail.Lawful := fun _ _ => .refl

lemma lawful_join : join.Lawful := fun args m => .single (.intern m (joinText m.heap args))

lemma lawful_collect : collect.Lawful := fun _ m => .single (.collect m)

lemma lawful_hostLibrary : ∀ host ∈ hostLibrary, host.native.Lawful := by
  simp only [hostLibrary, List.forall_mem_cons]
  exact ⟨lawful_collect, lawful_join, lawful_count, lawful_last, lawful_activeCalls,
    lawful_stackSize, lawful_fail, List.forall_mem_nil _⟩

end Native

/-! ## Compiled scripts -/

/-- What the compiler accepts is verified code. -/
theorem compile_verified {interactive : Bool} {source : Text} {p : Prototype}
    (h : compile interactive source = .script p) : p.Verified := by
  obtain ⟨body, last, tree, c, g, line, -, -, hderives, -, -, hemits, rfl⟩ := compile_eq_script h
  exact hemits.verified_script hderives.structured.1 line

/-! ## Sessions do not fault -/

namespace Vm

/-- A sound machine with lawful host functions. -/
structure Sound (vm : Vm) : Prop where
  machine : vm.machine.Sound
  natives : ∀ native ∈ vm.natives, native.Lawful

lemma Sound.defineNative {vm : Vm} (h : vm.Sound) (name : Text) (arity : Int) {native : Native}
    (hnative : native.Lawful) : (vm.defineNative name arity native).Sound := by
  have hallocated := h.machine.allocate (o := .native ⟨name, arity, vm.natives.size⟩) (by simp)
    trivial
  refine ⟨(hallocated.intern name).of_eq rfl rfl, fun native' hmem => ?_⟩
  rcases Array.mem_push.1 hmem with hmem | rfl
  · exact h.natives native' hmem
  · exact hnative

lemma sound_new (config : MachineConfig) : (Vm.new config).Sound := by
  have hempty : Vm.Sound { machine := .new config, natives := #[] } :=
    ⟨Machine.sound_new config, by simp⟩
  exact hempty.defineNative "clock" 0 Native.lawful_clock

lemma Sound.register {vm : Vm} (h : vm.Sound) {hosts : List HostFunction}
    (hlawful : ∀ host ∈ hosts, host.native.Lawful) : (vm.register hosts).Sound := by
  induction hosts generalizing vm with
  | nil => exact h
  | cons host hosts ih =>
    obtain ⟨hhost, hhosts⟩ := List.forall_mem_cons.1 hlawful
    exact ih (h.defineNative host.name host.arity hhost) hhosts

/-- Running a source does not fault and leaves a sound machine. -/
lemma Sound.interpretWithin {vm : Vm} (h : vm.Sound) (budget : Nat) (interactive : Bool)
    (source : Text) (goAhead : Prototype → Bool) :
    (∀ f, (interpretWithin budget vm interactive source goAhead).1 ≠ .error f) ∧
      (interpretWithin budget vm interactive source goAhead).2.Sound := by
  rw [Vm.interpretWithin]
  split
  · rename_i f hfault
    exact absurd hfault (compile_ne_fault interactive source f)
  · exact ⟨by simp, h⟩
  · rename_i script hscript
    split
    · obtain ⟨hending, hsound⟩ :=
        Machine.interpret_sound h.natives budget (compile_verified hscript) h.machine
      rw [executeWithin]
      refine ⟨fun f => ?_, hsound, h.natives⟩
      cases hresult : (vm.machine.interpret vm.natives budget script).1 with
      | finished => simp [hresult]
      | failed e => simp [hresult]
      | fault f' => exact absurd hresult (hending f')
      | suspended => simp [hresult]
    · exact ⟨by simp, h⟩

lemma Sound.runInput {vm : Vm} (h : vm.Sound) (budget : Nat) (i : Input) :
    (∀ f, (runInput budget vm i).1 ≠ .error f) ∧ (runInput budget vm i).2.Sound := by
  have hclock : Vm.Sound { vm with machine := { vm.machine with clock := i.clock } } :=
    ⟨h.machine.of_eq rfl rfl, h.natives⟩
  exact hclock.interpretWithin budget i.interactive i.source i.goAhead

lemma Sound.session {vm : Vm} (h : vm.Sound) (budget : Nat) (inputs : List Input) :
    ∀ result ∈ (session budget vm inputs).1, ∀ f, result ≠ .error f := by
  induction inputs generalizing vm with
  | nil => simp [Vm.session]
  | cons i inputs ih =>
    obtain ⟨hresult, hsound⟩ := h.runInput budget i
    intro result hmem
    simp only [Vm.session, List.mem_cons] at hmem
    rcases hmem with rfl | hmem
    · exact hresult
    · exact ih hsound result hmem

lemma Sound.after_session {vm : Vm} (h : vm.Sound) (budget : Nat) (inputs : List Input) :
    (Vm.session budget vm inputs).2.Sound := by
  induction inputs generalizing vm with
  | nil => exact h
  | cons i inputs ih => exact ih (h.runInput budget i).2

/-- Whatever the configuration, the lawful host functions and the sources, no source of a session
ends in a fault. -/
theorem session_ne_fault (config : MachineConfig) (hosts : List HostFunction)
    (hlawful : ∀ host ∈ hosts, host.native.Lawful) (budget : Nat) (inputs : List Input) :
    ∀ result ∈ (session budget ((Vm.new config).register hosts) inputs).1,
      ∀ f, result ≠ .error f :=
  ((sound_new config).register hlawful).session budget inputs

/-- Host functions that collect in the middle of a call, make strings and give up. -/
theorem session_ne_fault_collect :
    (∀ host ∈ hostLibrary, host.native.Lawful) ∧
      ∀ result ∈ (session 1000 ((Vm.new .standard).register hostLibrary)
        [⟨false, "var s = join(\"a\", 1); gc(); print s + last(nil, s);", fun _ => true, 1⟩,
          ⟨true, "fail(s, count() + stack())", fun _ => true, 2⟩]).1,
        ∀ f, result ≠ .error f :=
  ⟨Native.lawful_hostLibrary, session_ne_fault .standard _ Native.lawful_hostLibrary 1000 _⟩

end Vm

/-! ## Uniform host functions -/

namespace Native

open Machine

variable {C : Comparison} {S : Pairing} {ρ : Renaming} {m m' : Machine}

lemma functional_clock : clock.Functional := by
  intro C S ρ m m' hr start _
  refine .get (.pure hr ?_)
  rw [hr.clock]
  exact .number _

/-- Arguments that are on both stacks. -/
lemma arguments_renamed (hr : m.Corresponds C S ρ m') {start : Nat} (hlow : C.low ≤ start) :
    List.Forall₂ (Value.Renamed ρ) (m.stack.extract start m.stack.size).toList
      (m'.stack.extract start m'.stack.size).toList := by
  refine forall₂_iff_getElem?.2 fun i => ?_
  rw [Array.getElem?_toList, Array.getElem?_toList, Array.getElem?_extract, Array.getElem?_extract,
    hr.size]
  split
  · exact hr.slots _ (Nat.le_add_right_of_le hlow)
  · exact .none

lemma joinText_eq (hr : m.Corresponds C S ρ m') {start : Nat} (hlow : C.low ≤ start) :
    joinText m'.heap (m'.stack.extract start m'.stack.size) =
      joinText m.heap (m.stack.extract start m.stack.size) := by
  have hargs := arguments_renamed hr hlow
  rw [joinText, joinText, ← Array.foldl_toList, ← Array.foldl_toList]
  generalize (m.stack.extract start m.stack.size).toList = l,
    (m'.stack.extract start m'.stack.size).toList = l' at hargs
  have hfolds : ∀ text : Text,
      l'.foldl (fun t v => (if t.isEmpty then t else t ++ [','.toUInt8]) ++ m'.heap.valueText v)
          text =
        l.foldl (fun t v => (if t.isEmpty then t else t ++ [','.toUInt8]) ++ m.heap.valueText v)
          text := by
    induction hargs with
    | nil => exact fun _ => rfl
    | cons hv _ ih =>
      intro text
      rw [List.foldl_cons, List.foldl_cons, hr.heap.valueText_eq hv, ih]
  exact hfolds []

lemma functional_join : join.Functional := by
  intro C S ρ m m' hr start hlow
  refine .get ?_
  rw [joinText_eq hr hlow]
  exact hr.intern_concur _ fun σ i j _ hij hr₁ => .pure hr₁ (.object (.some hij))

lemma functional_count : count.Functional := by
  intro C S ρ m m' hr start hlow
  have hsize : (m'.stack.extract start m'.stack.size).size =
      (m.stack.extract start m.stack.size).size := (arguments_renamed hr hlow).length_eq.symm
  rw [count, count, hsize]
  exact .pure hr (.number _)

lemma functional_last : last.Functional := by
  intro C S ρ m m' hr start hlow
  have hargs := arguments_renamed hr hlow
  have hsize : (m'.stack.extract start m'.stack.size).size =
      (m.stack.extract start m.stack.size).size := hargs.length_eq.symm
  refine .pure hr ?_
  rw [Array.back?, Array.back?, hsize, ← Array.getElem?_toList, ← Array.getElem?_toList]
  rcases forall₂_getElem? hargs _ with ⟨hnone, hnone'⟩ | ⟨v, v', hv, hv', hren⟩
  · rw [hnone, hnone']
    exact .nil
  · rw [hv, hv']
    exact hren

/-- A host function that collects does so in both machines. -/
lemma functional_collect : collect.Functional := by
  intro C S ρ m m' hr start _
  obtain ⟨σ, hr₁⟩ := hr.collect
  obtain ⟨τ, hr₂⟩ := hr₁.collect_right
  exact .modify (.pure hr₂ .nil)

lemma functional_activeCalls : activeCalls.Functional := by
  intro C S ρ m m' hr start _
  refine .get (.pure hr ?_)
  rw [hr.frames_size]
  exact .number _

lemma functional_stackSize : stackSize.Functional := by
  intro C S ρ m m' hr start _
  refine .get (.pure hr ?_)
  rw [hr.size]
  exact .number _

lemma functional_fail : fail.Functional := by
  intro C S ρ m m' hr start hlow
  refine .get ?_
  rw [joinText_eq hr hlow]
  exact .throw hr _

lemma functional_breakDown : breakDown.Functional := by
  intro C S ρ m m' hr start hlow
  refine .get ?_
  rw [joinText_eq hr hlow]
  exact .throw hr _

lemma uniform_clock : clock.Uniform := functional_clock.uniform

lemma uniform_hostLibrary :
    ∀ host ∈ ⟨"internal", -1, breakDown⟩ :: hostLibrary, host.native.Uniform := by
  simp only [hostLibrary, List.forall_mem_cons]
  exact ⟨functional_breakDown.uniform, functional_collect.uniform, functional_join.uniform,
    functional_count.uniform, functional_last.uniform, functional_activeCalls.uniform,
    functional_stackSize.uniform, functional_fail.uniform, List.forall_mem_nil _⟩

end Native

/-! ## Collections are not observable -/

namespace Vm

/-- The same up to a renaming, with the same host functions, all of them uniform. -/
structure Renamed (ρ : Renaming) (vm vm' : Vm) : Prop where
  machine : vm.machine.Renamed ρ vm'.machine
  natives : vm'.natives = vm.natives
  uniform : ∀ native ∈ vm.natives, native.Uniform

lemma Renamed.defineNative {ρ : Renaming} {vm vm' : Vm} (h : vm.Renamed ρ vm') (name : Text)
    (arity : Int) {native : Native} (hnative : native.Uniform) :
    ∃ σ, (vm.defineNative name arity native).Renamed σ (vm'.defineNative name arity native) := by
  have hmachine := (Machine.renamed_iff (S := fun _ _ _ _ => False)).1 h.machine
  have hallocated := hmachine.allocate (.native ⟨name, arity, vm.natives.size⟩) (by simp)
  have hinterned := hallocated.intern name
  have hset := hinterned.setGlobalValue (Renaming.add_self _ _ _)
    (.object (.some (Renaming.le_add _ _ _ _ _ (Renaming.add_self ρ _ _))))
  obtain ⟨σ, hmachine⟩ : ∃ σ, (vm.defineNative name arity native).machine.Renamed σ
      (vm'.defineNative name arity native).machine := by
    rw [Vm.defineNative, Vm.defineNative, h.natives]
    exact ⟨_, Machine.renamed_iff.2 hset⟩
  refine ⟨σ, hmachine, congrArg (Array.push · native) h.natives, fun native' hmem => ?_⟩
  rcases Array.mem_push.1 hmem with hmem | rfl
  · exact h.uniform native' hmem
  · exact hnative

/-- New machines that differ in when they collect. -/
lemma renamed_new (config : MachineConfig) (heap heap' : HeapConfig) :
    ∃ ρ, (Vm.new { config with heap := heap }).Renamed ρ (Vm.new { config with heap := heap' }) := by
  have hheap : (Heap.new heap).Renamed (fun _ _ => False) (Heap.new heap') :=
    ⟨False.elim, False.elim, False.elim, Heap.valid_new heap, Heap.valid_new heap'⟩
  have hmachine : (Machine.new { config with heap := heap }).Renamed (fun _ _ => False)
      (Machine.new { config with heap := heap' }) :=
    { config := rfl, heap := hheap, stack := .nil, frames := .nil, opened := .nil
      upvalues := fun _ hu => nomatch hu
      globals := ⟨by simp [Machine.new], by simp [Machine.new]⟩
      printed := rfl, traced := rfl, clock := rfl }
  have hempty : Vm.Renamed (fun _ _ => False)
      { machine := .new { config with heap := heap }, natives := #[] }
      { machine := .new { config with heap := heap' }, natives := #[] } :=
    ⟨hmachine, rfl, by simp⟩
  exact hempty.defineNative "clock" 0 Native.uniform_clock

lemma Renamed.register {ρ : Renaming} {vm vm' : Vm} (h : vm.Renamed ρ vm')
    {hosts : List HostFunction} (huniform : ∀ host ∈ hosts, host.native.Uniform) :
    ∃ σ, (vm.register hosts).Renamed σ (vm'.register hosts) := by
  induction hosts generalizing ρ vm vm' with
  | nil => exact ⟨ρ, h⟩
  | cons host hosts ih =>
    obtain ⟨hhost, hhosts⟩ := List.forall_mem_cons.1 huniform
    obtain ⟨σ, hσ⟩ := h.defineNative host.name host.arity hhost
    exact ih hσ hhosts

lemma Renamed.interpretWithin {ρ : Renaming} {vm vm' : Vm} (h : vm.Renamed ρ vm') (budget : Nat)
    (interactive : Bool) (source : Text) (goAhead : Prototype → Bool) :
    (interpretWithin budget vm' interactive source goAhead).1 =
        (interpretWithin budget vm interactive source goAhead).1 ∧
      ∃ σ, (interpretWithin budget vm interactive source goAhead).2.Renamed σ
        (interpretWithin budget vm' interactive source goAhead).2 := by
  rw [Vm.interpretWithin, Vm.interpretWithin]
  split
  · exact ⟨rfl, ρ, h⟩
  · exact ⟨rfl, ρ, h⟩
  · rename_i script _
    split
    · obtain ⟨hending, σ, hσ⟩ := Machine.interpret_agree h.uniform budget script h.machine
      rw [executeWithin, executeWithin, h.natives]
      dsimp only
      rw [hending]
      exact ⟨rfl, σ, hσ, rfl, h.uniform⟩
    · exact ⟨rfl, ρ, h⟩

lemma Renamed.runInput {ρ : Renaming} {vm vm' : Vm} (h : vm.Renamed ρ vm') (budget : Nat)
    (i : Input) :
    (runInput budget vm' i).1 = (runInput budget vm i).1 ∧
      ∃ σ, (runInput budget vm i).2.Renamed σ (runInput budget vm' i).2 := by
  have hclock : Vm.Renamed ρ { vm with machine := { vm.machine with clock := i.clock } }
      { vm' with machine := { vm'.machine with clock := i.clock } } :=
    ⟨{ h.machine with clock := rfl }, h.natives, h.uniform⟩
  exact hclock.interpretWithin budget i.interactive i.source i.goAhead

lemma Renamed.session {ρ : Renaming} {vm vm' : Vm} (h : vm.Renamed ρ vm') (budget : Nat)
    (inputs : List Input) :
    (session budget vm' inputs).1 = (session budget vm inputs).1 ∧
      ∃ σ, (session budget vm inputs).2.Renamed σ (session budget vm' inputs).2 := by
  induction inputs generalizing ρ vm vm' with
  | nil => exact ⟨rfl, ρ, h⟩
  | cons i inputs ih =>
    obtain ⟨hresult, σ, hσ⟩ := h.runInput budget i
    obtain ⟨hresults, hfinal⟩ := ih hσ
    rw [Vm.session, Vm.session]
    exact ⟨congrArg₂ List.cons hresult hresults, hfinal⟩

/-- When the heap collects makes no difference.  Two sessions that differ only in this have the
same results (with the errors, their lines and the active calls in them), print the same, and
leave the same globals up to a renaming of objects. -/
theorem session_heap_irrelevant (config : MachineConfig) (heap heap' : HeapConfig)
    (hosts : List HostFunction) (huniform : ∀ host ∈ hosts, host.native.Uniform) (budget : Nat)
    (inputs : List Input) :
    let ended := session budget ((Vm.new { config with heap := heap }).register hosts) inputs
    let ended' := session budget ((Vm.new { config with heap := heap' }).register hosts) inputs
    ended'.1 = ended.1 ∧ ended'.2.machine.printed = ended.2.machine.printed ∧
      ∃ ρ, ended.2.machine.heap.Renamed ρ ended'.2.machine.heap ∧
        GlobalsRenamed ρ ended.2.machine.globals ended'.2.machine.globals := by
  obtain ⟨ρ, hnew⟩ := renamed_new config heap heap'
  obtain ⟨σ, hregistered⟩ := hnew.register huniform
  obtain ⟨hresults, τ, hfinal⟩ := hregistered.session budget inputs
  exact ⟨hresults, hfinal.machine.printed, τ, hfinal.machine.heap, hfinal.machine.globals⟩

/-- A machine that collects whenever it can, and one that does so after a megabyte, with host
functions that collect in the middle of a call, make strings, give up or fault. -/
theorem session_heap_irrelevant_stress :
    let hosts := ⟨"internal", -1, Native.breakDown⟩ :: hostLibrary
    let input : Input :=
      ⟨false, "var s = join(\"a\", 1); gc(); print s == \"a,1\"; internal(s);", fun _ => true, 1⟩
    (∀ host ∈ hosts, host.native.Uniform) ∧
      (session 1000 ((Vm.new { MachineConfig.standard with heap := ⟨0, 1, true⟩ }).register hosts)
        [input]).1 =
      (session 1000 ((Vm.new { MachineConfig.standard with heap := .standard }).register hosts)
        [input]).1 :=
  ⟨Native.uniform_hostLibrary,
    (session_heap_irrelevant .standard .standard ⟨0, 1, true⟩ _ Native.uniform_hostLibrary 1000 _).1⟩

end Vm

/-! ## Contained host functions -/

namespace Native

lemma contained_clock : clock.Contained := fun _ _ _ _ => rfl

lemma contained_collect : collect.Contained := fun _ _ _ _ => rfl

lemma contained_gc : ∀ host ∈ [HostFunction.mk "gc" 0 collect],
    host.native.Lawful ∧ host.native.Contained := by
  intro host hhost
  rw [List.mem_singleton.1 hhost]
  exact ⟨lawful_collect, contained_collect⟩

end Native

/-! ## Captured variables -/

namespace Vm

/-- The machine behind the first `n` instructions that are executed for an input, or at the end of
its run if that comes first. -/
def boundary (vm : Vm) (i : Input) (n : Nat) : Machine :=
  (runInput n vm i).2.machine

/-- A sound machine on which all captured variables have values, with host functions that leave
them alone. -/
structure Steady (vm : Vm) : Prop extends Sound vm where
  contained : ∀ native ∈ vm.natives, native.Contained
  valued : vm.machine.Valued

lemma natives_register {P : Native → Prop} {vm : Vm} (h : ∀ native ∈ vm.natives, P native)
    {hosts : List HostFunction} (hhosts : ∀ host ∈ hosts, P host.native) :
    ∀ native ∈ (vm.register hosts).natives, P native := by
  induction hosts generalizing vm with
  | nil => exact h
  | cons host hosts ih =>
    obtain ⟨hhost, hhosts⟩ := List.forall_mem_cons.1 hhosts
    refine ih (fun native hnative => ?_) hhosts
    rcases Array.mem_push.1 hnative with hnative | rfl
    · exact h native hnative
    · exact hhost

/-- What holds of the clock and of the host functions that are registered holds of all. -/
lemma natives_register_new {P : Native → Prop} (config : MachineConfig) (hclock : P Native.clock)
    {hosts : List HostFunction} (hhosts : ∀ host ∈ hosts, P host.native) :
    ∀ native ∈ ((Vm.new config).register hosts).natives, P native := by
  refine natives_register (fun native hnative => ?_) hhosts
  rcases Array.mem_push.1 hnative with hnative | rfl
  · simp at hnative
  · exact hclock

lemma openUpvalues_register (vm : Vm) (hosts : List HostFunction) :
    (vm.register hosts).machine.openUpvalues = vm.machine.openUpvalues := by
  induction hosts generalizing vm with
  | nil => rfl
  | cons host hosts ih => exact ih (vm.defineNative host.name host.arity host.native)

lemma config_register (vm : Vm) (hosts : List HostFunction) :
    (vm.register hosts).machine.config = vm.machine.config := by
  induction hosts generalizing vm with
  | nil => rfl
  | cons host hosts ih => exact ih (vm.defineNative host.name host.arity host.native)

lemma steady_register (config : MachineConfig) {hosts : List HostFunction}
    (hhosts : ∀ host ∈ hosts, host.native.Lawful ∧ host.native.Contained) :
    ((Vm.new config).register hosts).Steady := by
  have hsound := (sound_new config).register fun host hhost => (hhosts host hhost).1
  refine ⟨hsound, natives_register_new config Native.contained_clock fun host hhost =>
    (hhosts host hhost).2, ?_⟩
  refine hsound.machine.valued fun u hu => ?_
  rw [openUpvalues_register] at hu
  cases hu

/-- What an input compiles to is executed, if it goes ahead. -/
lemma runInput_of_script {vm : Vm} {i : Input} {script : Prototype}
    (hcompile : compile i.interactive i.source = .script script) (hgo : i.goAhead script) (n : Nat) :
    runInput n vm i =
      executeWithin n { vm with machine := { vm.machine with clock := i.clock } } script := by
  unfold runInput interpretWithin
  rw [hcompile]
  exact if_pos hgo

/-- An input either is not run, whatever the budget, or executes the script that it compiles to. -/
lemma runInput_compiled (vm : Vm) (i : Input) :
    (∃ result, result ≠ .ok none ∧ (∀ e, result ≠ .ok (some (.failed e))) ∧ ∀ n,
      runInput n vm i = (result, { vm with machine := { vm.machine with clock := i.clock } })) ∨
    ∃ script : Prototype, compile i.interactive i.source = .script script ∧ ∀ n, runInput n vm i =
      executeWithin n { vm with machine := { vm.machine with clock := i.clock } } script := by
  cases hcompile : compile i.interactive i.source with
  | fault f =>
    refine .inl ⟨.error f, by simp, by simp, fun n => ?_⟩
    rw [runInput, interpretWithin, hcompile]
  | rejected errors =>
    refine .inl ⟨.ok (some (.rejected errors)), by simp, by simp, fun n => ?_⟩
    rw [runInput, interpretWithin, hcompile]
  | script script =>
    by_cases hgo : i.goAhead script
    · exact .inr ⟨script, rfl, runInput_of_script hcompile hgo⟩
    · refine .inl ⟨.ok (some .ok), by simp, by simp, fun n => ?_⟩
      rw [runInput, interpretWithin, hcompile]
      exact if_neg hgo

/-- The boundaries of an input that is run are those of its script. -/
lemma boundary_compiled (vm : Vm) (i : Input) :
    (∀ n, vm.boundary i n = { vm.machine with clock := i.clock }) ∨
      ∃ script : Prototype, compile i.interactive i.source = .script script ∧ ∀ n, vm.boundary i n =
        (Machine.interpret vm.natives n script { vm.machine with clock := i.clock }).2 := by
  rcases runInput_compiled vm i with ⟨_, -, -, hsame⟩ | ⟨script, hcompile, hrun⟩
  · exact .inl fun n => congrArg (·.2.machine) (hsame n)
  · exact .inr ⟨script, hcompile, fun n => congrArg (·.2.machine) (hrun n)⟩

/-- That script is verified. -/
lemma boundary_cases (vm : Vm) (i : Input) :
    (∀ n, vm.boundary i n = { vm.machine with clock := i.clock }) ∨
      ∃ script : Prototype, script.Verified ∧ ∀ n, vm.boundary i n =
        (Machine.interpret vm.natives n script { vm.machine with clock := i.clock }).2 := by
  rcases boundary_compiled vm i with hsame | ⟨script, hcompile, hinterpret⟩
  · exact .inl hsame
  · exact .inr ⟨script, compile_verified hcompile, hinterpret⟩

/-- The boundaries of an input on a sound machine. -/
lemma Steady.boundary {vm : Vm} (h : vm.Steady) (i : Input) (n : Nat) :
    (vm.boundary i n).Sound ∧ (vm.boundary i n).Valued ∧
      vm.machine.Keeps (fun _ => True) (vm.boundary i 0) ∧
      (vm.boundary i n).Keeps (fun id => ¬ (vm.boundary i n).Assigns id)
        (vm.boundary i (n + 1)) := by
  have hclock : Machine.Sound { vm.machine with clock := i.clock } := h.machine.of_eq rfl rfl
  rcases boundary_cases vm i with hsame | ⟨script, hscript, hinterpret⟩
  · rw [hsame, hsame, hsame]
    exact ⟨hclock, h.valued, (Machine.Keeps.refl _ _).of_eq rfl rfl, .refl _ _⟩
  · have hnatives : ∀ native ∈ vm.natives, native.Lawful ∧ native.Contained :=
      fun native hn => ⟨h.natives native hn, h.contained native hn⟩
    obtain ⟨hsound, hvalued, hkeeps⟩ := Machine.interpret_keeps hnatives hscript hclock n
    have hbegin := Machine.interpret_zero_keeps hscript hclock vm.natives fun _ => True
    rw [hinterpret, hinterpret, hinterpret]
    exact ⟨hsound, hvalued, hbegin.of_eq rfl rfl, hkeeps⟩

lemma natives_runInput (budget : Nat) (vm : Vm) (i : Input) :
    (runInput budget vm i).2.natives = vm.natives := by
  unfold runInput interpretWithin
  split
  · rfl
  · rfl
  · split
    · rfl
    · rfl

lemma Steady.session {vm : Vm} (h : vm.Steady) (budget : Nat) (inputs : List Input) :
    (session budget vm inputs).2.Steady := by
  induction inputs generalizing vm with
  | nil => exact h
  | cons i inputs ih =>
    have hnatives := natives_runInput budget vm i
    obtain ⟨-, hvalued, -, -⟩ := h.boundary i budget
    have hcontained : ∀ native ∈ (Vm.runInput budget vm i).2.natives, native.Contained := by
      rw [hnatives]
      exact h.contained
    exact ih ⟨(h.toSound.runInput budget i).2, hcontained, hvalued⟩

/-- A captured variable changes only by assignment.  Whatever the configuration, the host functions
and the inputs so far, at each boundary of the next input every upvalue that is there before and
after has the value it had, unless it is assigned to; this includes the step from the end of the
inputs so far to the beginning of the next one. -/
theorem session_captured (config : MachineConfig) (hosts : List HostFunction)
    (hhosts : ∀ host ∈ hosts, host.native.Lawful ∧ host.native.Contained) (budget : Nat)
    (inputs : List Input) (i : Input) :
    let vm := (session budget ((Vm.new config).register hosts) inputs).2
    (∀ id, vm.machine.heap.HasUpvalue id → (vm.boundary i 0).heap.HasUpvalue id →
      ∃ v, vm.machine.captured? id = some v ∧ (vm.boundary i 0).captured? id = some v) ∧
    ∀ n id, (vm.boundary i n).heap.HasUpvalue id → (vm.boundary i (n + 1)).heap.HasUpvalue id →
      ¬ (vm.boundary i n).Assigns id →
      ∃ v, (vm.boundary i n).captured? id = some v ∧
        (vm.boundary i (n + 1)).captured? id = some v := by
  have hsteady := (steady_register config hhosts).session budget inputs
  refine ⟨fun id hu hu' => ?_, fun n id hu hu' hassigns => ?_⟩
  · obtain ⟨-, -, hbegin, -⟩ := hsteady.boundary i 0
    exact hbegin.exists_value hsteady.machine.heap hsteady.valued trivial hu hu'
  · obtain ⟨hsound, hvalued, -, hkeeps⟩ := hsteady.boundary i n
    exact hkeeps.exists_value hsound.heap hvalued hassigns hu hu'

/-- A counter that one input makes and the next one calls, with a host function that collects. -/
theorem session_captured_counter :
    (∀ host ∈ [HostFunction.mk "gc" 0 Native.collect],
      host.native.Lawful ∧ host.native.Contained) ∧
    let vm := (session 1000 ((Vm.new .standard).register [⟨"gc", 0, Native.collect⟩])
      [⟨false, "fun make() { var n = 0; fun next() { n = n + 1; return n; } return next; } var f = make();",
        fun _ => true, 1⟩]).2
    let i : Input := ⟨false, "gc(); print f(); print 1 + nil;", fun _ => true, 2⟩
    ∀ n id, (vm.boundary i n).heap.HasUpvalue id → (vm.boundary i (n + 1)).heap.HasUpvalue id →
      ¬ (vm.boundary i n).Assigns id →
      ∃ v, (vm.boundary i n).captured? id = some v ∧
        (vm.boundary i (n + 1)).captured? id = some v := by
  have hhosts : ∀ host ∈ [HostFunction.mk "gc" 0 Native.collect],
      host.native.Lawful ∧ host.native.Contained := by
    intro host hhost
    rw [List.mem_singleton.1 hhost]
    exact ⟨Native.lawful_collect, Native.contained_collect⟩
  exact ⟨hhosts, (session_captured .standard _ hhosts 1000 _ _).2⟩

end Vm

end Lox
