import Lox.Proofs.Compiler.Concatenation
import Lox.Proofs.Machine.Handover

/-!
# Sources one after another and in one

Two sources that are run one after another do what they do in one, with a line feed between them
(`Vm.session_as_one`).  The code of the two in one is the code of the first without its return, and
behind it the code of the second (`compile_joins`).

The script of the first source and the joint one are in lockstep until the first is about to return
(`Machine.first_cases`).  From there the first script returns and the second one begins, while the joint
one goes on.  A return leaves what outlives a script as it is, so that the second script and the rest of
the joint one begin with the same store and are in lockstep again
(`Machine.interpret_joined_finished`).

They differ in one place: the first script puts its own result on the stack, where there may be no room
for it, and the joint one does not.  This is so for a stack of a single place only.
-/

namespace Lox

/-- What is asked of a host function: it returns or raises an error, leaves its caller's values alone,
sees no more of the machine than the language does, and does not set the clock. -/
structure Native.Reliable (native : Native) : Prop where
  lawful : native.Lawful
  contained : native.Contained
  functional : native.Functional
  timeless : native.Timeless

lemma functionalUnder_of_reliable {natives : Natives} (h : ∀ native ∈ natives, native.Reliable)
    (C : Comparison) (S : Pairing) :
    ∀ native ∈ natives, native.Lawful ∧ native.Contained ∧ native.FunctionalUnder C S :=
  fun native hn => ⟨(h native hn).lawful, (h native hn).contained, (h native hn).functional C S⟩

/-- The same status, and the same message if there is one. -/
structure RunResult.Same (result result' : RunResult) : Prop where
  exitCode : result'.exitCode = result.exitCode
  message : result'.runtimeError?.map RuntimeError.message =
    result.runtimeError?.map RuntimeError.message

/-- A source that is run as a script. -/
def Input.script (source : Text) (clock : Float) : Input :=
  ⟨false, source, fun _ => true, clock⟩

namespace Machine

/-! ## Outcomes -/

/-- Two runs have ended in the same way, for the same cause if with an error. -/
inductive Ending.Like : Ending → Ending → Prop
  | finished : Like .finished .finished
  | failed {e e' : RuntimeError} : e'.cause = e.cause → Like (.failed e) (.failed e')
  | fault (f : Fault) : Like (.fault f) (.fault f)
  | suspended : Like .suspended .suspended

/-- Two runs have ended in the same way and with the same store. -/
structure SameOutcome (o o' : Ending × Machine) : Prop where
  ending : o.1.Like o'.1
  store : ∃ ρ, o.2.SameStore ρ o'.2

/-- The result of a run that has ended in this way. -/
inductive Ending.Gives : Ending → RunResult → Prop
  | finished : Gives .finished .ok
  | failed (e : RuntimeError) : Gives (.failed e) (.failed e)

lemma Ending.Like.symm {e e' : Ending} (h : e.Like e') : e'.Like e := by
  cases h with
  | finished => exact .finished
  | failed hcause => exact .failed hcause.symm
  | fault f => exact .fault f
  | suspended => exact .suspended

lemma Ending.Like.gives {e e' : Ending} {result : RunResult} (h : e.Like e') (hgives : e.Gives result) :
    ∃ result', e'.Gives result' ∧ result.Same result' := by
  cases hgives with
  | finished =>
    cases h with
    | finished => exact ⟨.ok, .finished, rfl, rfl⟩
  | failed error =>
    cases h with
    | @failed _ error' hcause =>
      exact ⟨.failed error', .failed error', rfl,
        congrArg (fun c : RuntimeError.Cause => some c.message) hcause⟩

lemma SameOutcome.symm {o o' : Ending × Machine} (h : SameOutcome o o') : SameOutcome o' o := by
  obtain ⟨ρ, hr⟩ := h.store
  exact ⟨h.ending.symm, ρ.flip, hr.flip⟩

lemma Concur.sameOutcome {S : Pairing} {f f' : MachineM Unit} {m m' : Machine}
    (h : Concur .scripts S f f' m m' Anything) : SameOutcome (ending (f m)) (ending (f' m')) := by
  rw [Concur] at h
  cases hf : f m with
  | ok _ n =>
    cases hf' : f' m' with
    | ok _ n' =>
      rw [hf, hf'] at h
      obtain ⟨σ, hr, -⟩ := h
      exact ⟨.finished, σ, hr.sameStore⟩
    | error e' n' =>
      rw [hf, hf'] at h
      exact h.elim
  | error e n =>
    cases hf' : f' m' with
    | ok _ n' =>
      rw [hf, hf'] at h
      exact h.elim
    | error e' n' =>
      rw [hf, hf'] at h
      obtain ⟨rfl, σ, hr⟩ := h
      cases e with
      | runtime cause => exact ⟨.failed rfl, σ, hr.resetStack.sameStore⟩
      | fault f => exact ⟨.fault f, σ, hr.sameStore⟩
      | suspended => exact ⟨.suspended, σ, hr.sameStore⟩

lemma ending_eq_finished {result : EStateM.Result Halt Machine Unit} {m : Machine}
    (h : ending result = (.finished, m)) : result = .ok () m := by
  cases result with
  | ok _ m' =>
    cases h
    rfl
  | error e m' => cases e <;> cases h

/-- A run that has ended has ended as it does from a later machine on. -/
lemma Leads.run_eq {natives : Natives} {m m' : Machine} {k n d : Nat} (hlead : m.Leads natives k m')
    (hk : k ≤ n) (hended : ∀ x, run natives n m ≠ .error .suspended x)
    {result : EStateM.Result Halt Machine Unit} (hresult : ∀ j, run natives (j + d) m' = result) :
    run natives n m = result := by
  have hrest := hlead (n - k)
  rw [Nat.add_sub_cancel' hk] at hrest
  rw [hrest] at hended ⊢
  rw [← run_add hended d, hresult]

/-! ## The first script -/

section Joining

variable {ρ : Renaming} {m mid left : Machine} {natives : Natives} {p q r : Prototype}
  {w₁ w₂ w : Chunk} {a b : Chart} {n : Nat} {e : RuntimeError}

/-- There is room for nothing. -/
lemma interpret_full (h : m.config.maxStack = 0 ∨ m.config.maxCalls = 0) (harity : p.arity = 0)
    (natives : Natives) (n : Nat) :
    m.interpret natives n p = (.failed ⟨.stackOverflow, 0, []⟩, m.loading p) := by
  rw [interpret_eq]
  by_cases hstack : m.config.maxStack ≤ 0
  · rw [if_pos hstack]
  have hcalls : m.config.maxCalls = 0 := h.resolve_left fun hzero => hstack (Nat.le_of_eq hzero)
  have harity' : ¬ ((0 : Nat) : Int) ≠ (FunctionObject.ofPrototype p).arity := by
    rw [FunctionObject.ofPrototype, harity]
    exact fun h => h rfl
  have hfull : (m.loaded p).config.maxCalls ≤ (m.loaded p).frames.size :=
    Nat.le_trans (Nat.le_of_eq hcalls) (Nat.zero_le _)
  have hcall := callClosure_apply m.scriptId (.ofPrototype p) 0 (m.loaded p)
  rw [if_neg harity', if_pos hfull] at hcall
  rw [if_neg hstack, bind_apply, hcall]
  rfl

/-- A script that has ended is not changed by more instructions. -/
lemma interpret_ended (hp : p.IsScript w) (hended : (m.interpret natives n p).1 ≠ .suspended) (k : Nat) :
    m.interpret natives (n + k) p = m.interpret natives n p := by
  by_cases hfull : m.config.maxStack = 0 ∨ m.config.maxCalls = 0
  · rw [interpret_full hfull hp.arity, interpret_full hfull hp.arity]
  · exact interpret_add (by omega) (by omega) hp.arity hp.chunk hended k

lemma SameStore.started {m' : Machine} (hr : m.resetStack.SameStore ρ m') (p : Prototype) (w : Chunk) :
    (m.started p w).SameStore ρ m' :=
  (hr.loading p).of_eq rfl rfl rfl rfl rfl

/-- Two scripts that begin on one machine begin with the same store. -/
lemma SameStore.both_started (hself : m.resetStack.SameStore ρ m.resetStack) (p r : Prototype)
    (w w' : Chunk) : (m.started p w).SameStore ρ (m.started r w') :=
  ((hself.started p w).flip.started r w').flip

variable (hnatives : ∀ native ∈ natives, native.Reliable) (hjoins : w₁.Joins w₂ w a b)
  (hp : p.IsScript w₁) (hq : q.IsScript w₂) (hr : r.IsScript w) (hm : m.Ready)
  (hself : m.resetStack.SameStore ρ m.resetStack)

include hnatives hjoins hp hm hself in
/-- The first script and the joint one do the same, until the first is about to return. -/
lemma first_cases (hstack : 0 < m.config.maxStack) (hcalls : 0 < m.config.maxCalls) (n : Nat) :
    (SameOutcome (ending (run natives n (m.started p w₁))) (ending (run natives n (m.started r w))) ∧
      ∀ x, run natives n (m.started p w₁) ≠ .ok () x) ∨
    ∃ k ≤ n, ∃ m₁ m₁' frame frame', (m.started p w₁).Leads natives k m₁ ∧
      (m.started r w).Leads natives k m₁' ∧ m₁.Alone frame ∧ m₁'.Alone frame' ∧
      frame.chunk.decode frame.ip = .ok ⟨.loadNil, 0⟩ ∧
      frame.chunk.decode (frame.ip + 1) = .ok ⟨.ret, 0⟩ ∧
      frame'.chunk = w ∧ frame'.ip = a.code.size ∧ ∃ σ, m₁.SameStore σ m₁' := by
  have hin := hm.inStep hp hstack hcalls (hself.both_started p r w₁ w) (alone_started m r w) rfl rfl a
  rcases hin.run (functionalUnder_of_reliable hnatives _ _) hjoins.first n with
    ⟨hconcur, hok⟩ | ⟨k, hk, m₁, m₁', hlead, hlead', hin₁, hat⟩
  · exact .inl ⟨hconcur.sameOutcome, hok (hjoins.returnless.places 0) (by simp [started])⟩
  · obtain ⟨height, hbalanced, hheight⟩ := hjoins.height
    obtain ⟨frame, frame', halone, halone', hchunk, hip, hchunk', hip'⟩ :=
      hin₁.alone hat hbalanced hheight
    obtain ⟨line, hreturn⟩ := hjoins.returns
    obtain ⟨hnil, hret⟩ := Chunk.holds_cons.1 hreturn
    obtain ⟨σ, hcorresponds⟩ := hin₁.corresponds
    refine .inr ⟨k, hk, m₁, m₁', frame, frame', hlead, hlead', halone, halone', ?_, ?_, hchunk', ?_,
      σ, hcorresponds.sameStore⟩
    · rw [hchunk, hip]
      exact hnil.decode rfl
    · rw [hchunk, hip]
      exact (Chunk.holds_cons.1 hret).1.decode rfl
    · rw [hip', Nat.zero_add]

include hnatives hjoins hp hr hm hself in
/-- If the first script fails, so does the joint one. -/
theorem interpret_joined_failed (hfailed : m.interpret natives n p = (.failed e, left))
    (hroom : m.config.maxStack ≠ 1 ∨ ∀ k, ¬ (m.interpret natives k p).2.Returning) :
    SameOutcome (m.interpret natives n p) (m.interpret natives n r) := by
  by_cases hfull : m.config.maxStack = 0 ∨ m.config.maxCalls = 0
  · rw [interpret_full hfull hp.arity, interpret_full hfull hr.arity]
    exact ⟨.failed rfl, ρ, ((hself.loading p).flip.loading r).flip⟩
  obtain ⟨hstack, hcalls⟩ := not_or.1 hfull
  have hbegin := interpret_started (m := m) (Nat.pos_of_ne_zero hstack) (Nat.pos_of_ne_zero hcalls)
    hp.arity hp.chunk natives
  have hbegin' := interpret_started (m := m) (Nat.pos_of_ne_zero hstack) (Nat.pos_of_ne_zero hcalls)
    hr.arity hr.chunk natives
  rcases first_cases hnatives hjoins hp hm hself (r := r) (Nat.pos_of_ne_zero hstack)
    (Nat.pos_of_ne_zero hcalls) n with ⟨hsame, -⟩ |
      ⟨k, hk, m₁, m₁', frame, frame', hlead, -, halone, -, hnil, hret, -, -, σ, hstore⟩
  · rwa [hbegin, hbegin']
  · -- The script would return, so that it would not fail.
    exfalso
    have hat : (m.interpret natives k p).2 = m₁ := by
      rw [hbegin, ← Nat.add_zero k, hlead, run_zero_apply]
      rfl
    have hone : m.config.maxStack ≠ 1 :=
      hroom.resolve_right fun hnever => hnever k (hat ▸ ⟨frame, halone.frames, hnil, hret⟩)
    have hconfig : m₁.config = m.config := hat ▸ hm.sound.interpret_config (fun native hn =>
      ⟨(hnatives native hn).lawful, (hnatives native hn).contained⟩) hp.verified k
    have hmore : 1 < m₁.config.maxStack := by
      rw [hconfig]
      omega
    obtain ⟨x, -, hrun, -⟩ := halone.returns hnil hret hmore hstore natives
    have hended : ∀ y, run natives n (m.started p w₁) ≠ .error .suspended y := by
      intro y hsuspended
      rw [hbegin, hsuspended] at hfailed
      cases hfailed
    rw [hbegin, hlead.run_eq hk hended hrun] at hfailed
    cases hfailed

include hnatives hjoins hp hq hr hm hself in
/-- If the first script comes to its end, the joint one goes on as the second does. -/
theorem interpret_joined_finished (hfinished : m.interpret natives n p = (.finished, mid)) :
    ∃ k, ∀ j, SameOutcome (mid.interpret natives j q) (m.interpret natives (k + j) r) := by
  have hlawful : ∀ native ∈ natives, native.Lawful ∧ native.Contained :=
    fun native hn => ⟨(hnatives native hn).lawful, (hnatives native hn).contained⟩
  have hroom : ¬ (m.config.maxStack = 0 ∨ m.config.maxCalls = 0) := by
    intro hfull
    rw [interpret_full hfull hp.arity] at hfinished
    cases hfinished
  obtain ⟨hstack, hcalls⟩ : 0 < m.config.maxStack ∧ 0 < m.config.maxCalls := by omega
  have hbegin := interpret_started (m := m) hstack hcalls hp.arity hp.chunk natives
  have hbegin' := interpret_started (m := m) hstack hcalls hr.arity hr.chunk natives
  have hrun : run natives n (m.started p w₁) = .ok () mid :=
    ending_eq_finished ((hbegin n).symm.trans hfinished)
  have hended : ∀ y, run natives n (m.started p w₁) ≠ .error .suspended y := by simp [hrun]
  rcases first_cases hnatives hjoins hp hm hself (r := r) hstack hcalls n with
    ⟨-, hok⟩ | ⟨k, hk, m₁, m₁', frame, frame', hlead, hlead', halone, halone', hnil, hret, hchunk', hip',
      σ, hstore⟩
  · exact absurd hrun (hok mid)
  have hmore : 1 < m₁.config.maxStack := by
    by_contra hfull
    obtain ⟨x, herror⟩ := halone.overflows hnil (Nat.not_lt.1 hfull) natives
    rw [hlead.run_eq hk hended herror] at hrun
    cases hrun
  obtain ⟨x, τ, hreturn, hleft, -, -, hopened⟩ := halone.returns hnil hret hmore hstore natives
  obtain rfl : x = mid := by
    rw [hlead.run_eq hk hended hreturn] at hrun
    cases hrun
    rfl
  -- The second script begins on the same store on which the joint one goes on.
  have horderly := hm.sound.interpret_orderly hlawful hp.verified hp.regular hp.captures hm.regular
    hm.attached n
  have hsound := (interpret_sound (fun native hn => (hlawful native hn).1) n hp.verified hm.sound).2
  have hconfig := hm.sound.interpret_config hlawful hp.verified n
  rw [hfinished] at horderly hsound hconfig
  dsimp only at horderly hsound hconfig
  have hmid : x.Ready := ⟨hsound, horderly.regular, horderly.attached⟩
  have hstack' : 0 < x.config.maxStack := by rwa [hconfig]
  have hcalls' : 0 < x.config.maxCalls := by rwa [hconfig]
  have hin := hmid.inStep hq hstack' hcalls' ((hleft.resetStack hopened).started q w₂) halone' hchunk'
    hip' b
  refine ⟨k, fun j => ?_⟩
  rw [interpret_started hstack' hcalls' hq.arity hq.chunk, hbegin', hlead' j]
  rcases hin.run (functionalUnder_of_reliable hnatives _ _) hjoins.second j with
    ⟨hconcur, -⟩ | ⟨_, -, m₂, _, -, -, hin₂, hat⟩
  · exact hconcur.sameOutcome
  · exact absurd hat (hin₂.not_atEnd hjoins.whole)

end Joining

end Machine

/-! ## Hosts -/

namespace Vm

/-- What a host can do to a new machine before it runs a script: registering functions, defining
globals, and running other sources, which may be stopped at any point. -/
inductive Prepared (config : MachineConfig) : Vm → Prop
  | new : Prepared config (Vm.new config)
  | register {vm : Vm} (host : HostFunction) :
      Prepared config vm → host.native.Reliable → Prepared config (vm.register [host])
  | define {vm : Vm} (name : Text) {v : Value} :
      Prepared config vm → v.reference? = none → Prepared config (vm.setGlobal name v)
  | defineString {vm : Vm} (name t : Text) :
      Prepared config vm → Prepared config ((vm.intern t).2.setGlobal name (vm.intern t).1)
  | run {vm : Vm} (budget : Nat) (i : Input) :
      Prepared config vm → Prepared config (runInput budget vm i).2

section Prepared

variable {config : MachineConfig} {vm vm' : Vm} {ρ : Renaming}

lemma Sound.orderly (h : vm.Sound) (hcontained : ∀ native ∈ vm.natives, native.Contained)
    (horderly : vm.machine.Orderly) (hlimits : vm.machine.config = config) : vm.Orderly config :=
  ⟨⟨h, hcontained, h.machine.valued horderly.slots⟩, horderly, hlimits⟩

lemma Orderly.intern (h : vm.Orderly config) (t : Text) : (vm.intern t).2.Orderly config := by
  have hvalid := h.machine.heap
  refine Sound.orderly ⟨h.machine.intern t, h.natives⟩ h.contained ?_ h.limits
  exact h.orderly.of_eq (Heap.lasting_regular.intern t hvalid h.orderly.regular)
    (Heap.lasting_attached.intern t hvalid h.orderly.attached) rfl rfl rfl rfl

lemma Orderly.setGlobal (h : vm.Orderly config) (name : Text) (v : Value) :
    (vm.setGlobal name v).Orderly config := by
  have hinterned := h.intern name
  refine Sound.orderly ⟨hinterned.machine.of_eq rfl rfl, h.natives⟩ h.contained ?_ h.limits
  exact hinterned.orderly.of_eq hinterned.orderly.regular hinterned.orderly.attached rfl rfl rfl rfl

lemma Orderly.register (h : vm.Orderly config) {host : HostFunction} (hhost : host.native.Reliable) :
    (vm.register [host]).Orderly config := by
  refine Sound.orderly (h.toSound.register (List.forall_mem_singleton.2 hhost.lawful)) ?_
    (machine_orderly_register h.machine.heap h.orderly [host])
    ((config_register vm [host]).trans h.limits)
  exact natives_register h.contained (List.forall_mem_singleton.2 hhost.contained)

lemma Renamed.intern (h : vm.Renamed ρ vm') (t : Text) :
    ∃ σ, (vm.intern t).2.Renamed σ (vm'.intern t).2 ∧ (vm.intern t).1.Renamed σ (vm'.intern t).1 := by
  have hmachine := (Machine.renamed_iff (S := fun _ _ _ _ => False)).1 h.machine
  exact ⟨_, ⟨Machine.renamed_iff.2 (hmachine.intern t), h.natives, h.uniform⟩,
    .object (.some (Renaming.add_self _ _ _))⟩

lemma Renamed.setGlobal (h : vm.Renamed ρ vm') (name : Text) {v v' : Value} (hv : v.Renamed ρ v') :
    ∃ σ, (vm.setGlobal name v).Renamed σ (vm'.setGlobal name v') := by
  have hmachine := (Machine.renamed_iff (S := fun _ _ _ _ => False)).1 h.machine
  have hset := (hmachine.intern name).setGlobalValue (Renaming.add_self _ _ _)
    (hv.mono (Renaming.le_add _ _ _))
  exact ⟨_, Machine.renamed_iff.2 hset, h.natives, h.uniform⟩

/-- What is known of such a machine. -/
structure Known (config : MachineConfig) (vm : Vm) : Prop extends Orderly config vm where
  reliable : ∀ native ∈ vm.natives, native.Reliable
  /-- The objects that it refers to are there. -/
  referring : ∃ ρ, vm.Renamed ρ vm

lemma Prepared.known (h : vm.Prepared config) : vm.Known config := by
  induction h with
  | new =>
    have hclock : Native.clock.Reliable :=
      ⟨Native.lawful_clock, Native.contained_clock, Native.functional_clock, fun _ _ => rfl⟩
    exact ⟨orderly_register config (List.forall_mem_nil _),
      natives_register_new config hclock (List.forall_mem_nil _),
      renamed_new config config.heap config.heap⟩
  | @register vm host _ hhost ih =>
    obtain ⟨ρ, hself⟩ := ih.referring
    exact ⟨ih.toOrderly.register hhost,
      natives_register ih.reliable (List.forall_mem_singleton.2 hhost),
      hself.register (List.forall_mem_singleton.2 hhost.functional.uniform)⟩
  | @define vm name v _ hv ih =>
    obtain ⟨ρ, hself⟩ := ih.referring
    have hvalue : v.Renamed ρ v := by
      cases v with
      | object id =>
        cases id with
        | none => exact .object .none
        | some id => cases hv
      | _ => constructor
    exact ⟨ih.toOrderly.setGlobal name v, ih.reliable, hself.setGlobal name hvalue⟩
  | @defineString vm name t _ ih =>
    obtain ⟨ρ, hself⟩ := ih.referring
    obtain ⟨σ, hinterned, hvalue⟩ := hself.intern t
    exact ⟨(ih.toOrderly.intern t).setGlobal name _, ih.reliable, hinterned.setGlobal name hvalue⟩
  | @run vm budget i _ ih =>
    obtain ⟨ρ, hself⟩ := ih.referring
    have horderly : (runInput budget vm i).2.Orderly config := ih.toOrderly.session budget [i]
    refine ⟨horderly, ?_, (hself.runInput budget i).2⟩
    rw [natives_runInput]
    exact ih.reliable

end Prepared

/-! ## Sessions -/

/-- The input is run to its end, with this result, and leaves this machine. -/
def Ends (vm : Vm) (i : Input) (result : RunResult) (vm' : Vm) : Prop :=
  ∃ budget, runInput budget vm i = (.ok (some result), vm')

/-- The same status and message, the same output, and the same globals up to a renaming of objects
and up to the lines of functions. -/
structure SameEnd (ended ended' : RunResult × Vm) : Prop where
  result : ended.1.Same ended'.1
  printed : ended'.2.machine.printed = ended.2.machine.printed
  globals : ∃ ρ, ended.2.machine.heap.Corresponds .scripts ρ ended'.2.machine.heap ∧
    GlobalsRenamed ρ ended.2.machine.globals ended'.2.machine.globals

lemma SameEnd.symm {ended ended' : RunResult × Vm} (h : SameEnd ended ended') : SameEnd ended' ended := by
  obtain ⟨ρ, hheap, hglobals⟩ := h.globals
  exact ⟨⟨h.result.exitCode.symm, h.result.message.symm⟩, h.printed.symm, ρ.flip, hheap.flip,
    hglobals.flip⟩

section Sessions

variable {config : MachineConfig} {vm vm' mid : Vm} {source more : Text} {p q r : Prototype} {w : Chunk}
  {clock : Float} {result : RunResult}

open Machine (Ending SameOutcome)

lemma runInput_script (hcompile : compile false source = .script p) (n : Nat) :
    runInput n vm (.script source clock) =
      executeWithin n { vm with machine := { vm.machine with clock } } p :=
  @runInput_of_script vm (.script source clock) p hcompile rfl n

lemma ends_iff (hcompile : compile false source = .script p) :
    vm.Ends (.script source clock) result vm' ↔
      ∃ n e m, Machine.interpret vm.natives n p { vm.machine with clock } = (e, m) ∧
        e.Gives result ∧ vm' = ⟨m, vm.natives⟩ := by
  unfold Ends
  simp only [runInput_script hcompile, executeWithin]
  refine exists_congr fun n => ?_
  cases Machine.interpret vm.natives n p { vm.machine with clock } with
  | mk e m =>
    constructor
    · intro h
      cases e with
      | finished =>
        cases h
        exact ⟨_, _, rfl, .finished, rfl⟩
      | failed e =>
        cases h
        exact ⟨_, _, rfl, .failed e, rfl⟩
      | _ => cases h
    · rintro ⟨e', m', hsame, hgives, rfl⟩
      cases hsame
      cases hgives <;> rfl

lemma ends_of_result {n : Nat} {v : Vm} {i : Input} {r : RunResult}
    (h : (runInput n v i).1 = .ok (some r)) : v.Ends i r (runInput n v i).2 :=
  ⟨n, Prod.ext h rfl⟩

/-- A script ends in one way only. -/
lemma ends_unique (hcompile : compile false source = .script p)
    (h : vm.Ends (.script source clock) result vm') {result' : RunResult} {vm'' : Vm}
    (h' : vm.Ends (.script source clock) result' vm'') : result' = result ∧ vm'' = vm' := by
  obtain ⟨w, -, -, hw, -⟩ := Prototype.Regular.exists_chunk (regular_of_compile hcompile)
  have hscript := isScript_of_compile hcompile hw
  obtain ⟨n, e, m, hrun, hgives, rfl⟩ := (ends_iff hcompile).1 h
  obtain ⟨n', e', m', hrun', hgives', rfl⟩ := (ends_iff hcompile).1 h'
  have hended : ∀ {n e m result}, Machine.interpret vm.natives n p { vm.machine with clock } = (e, m) →
      Ending.Gives e result →
      ∀ k, Machine.interpret vm.natives (n + k) p { vm.machine with clock } = (e, m) := by
    intro n e m result hrun hgives k
    rw [Machine.interpret_ended hscript (by rw [hrun]; rintro rfl; cases hgives), hrun]
  have hsame := hended hrun hgives n'
  rw [Nat.add_comm, hended hrun' hgives' n] at hsame
  cases hsame
  cases hgives <;> cases hgives' <;> exact ⟨rfl, rfl⟩

lemma Known.ready (h : vm.Known config) (clock : Float) :
    Machine.Ready { vm.machine with clock } :=
  ⟨h.machine.of_eq rfl rfl, h.orderly.regular, h.orderly.attached⟩

/-- What outlives a script is all there. -/
lemma Known.exists_sameStore (h : vm.Known config) (clock : Float) :
    ∃ ρ, (Machine.resetStack { vm.machine with clock }).SameStore ρ
      (Machine.resetStack { vm.machine with clock }) := by
  obtain ⟨ρ, hself⟩ := h.referring
  have hclock : Machine.Renamed ρ { vm.machine with clock } { vm.machine with clock } :=
    { hself.machine with clock := rfl }
  have hreset := ((Machine.renamed_iff (S := fun _ _ _ _ => False)).1 hclock).resetStack
  have hsound := (h.ready clock).sound.resetStack
  exact ⟨ρ, (Machine.renamed_iff.2 hreset).sameStore (hsound.clear rfl rfl rfl)⟩

lemma sameEnd_of_store {m m' : Machine} {natives natives' : Natives} {result' : RunResult}
    (hresult : result.Same result') (hstore : ∃ ρ, m.SameStore ρ m') :
    SameEnd (result, ⟨m, natives⟩) (result', ⟨m', natives'⟩) := by
  obtain ⟨ρ, hr⟩ := hstore
  exact ⟨hresult, hr.printed, ρ, hr.heap, hr.globals⟩

lemma exists_ends (hcompile : compile false source = .script p) {n : Nat} {o : Ending × Machine}
    (hsame : SameOutcome o (Machine.interpret vm.natives n p { vm.machine with clock }))
    (hgives : o.1.Gives result) {natives : Natives} :
    ∃ result' vm', vm.Ends (.script source clock) result' vm' ∧
      SameEnd (result, ⟨o.2, natives⟩) (result', vm') := by
  obtain ⟨result', hgives', hresult⟩ := hsame.ending.gives hgives
  exact ⟨result', _, (ends_iff hcompile).2 ⟨n, _, _, rfl, hgives', rfl⟩,
    sameEnd_of_store hresult hsame.store⟩

/-- **A session is one program**: a source that is run to its end and another one that is run after it
end as the two do in one, with a line feed between them, if they end at all.  If the first source fails
the two in one fail like it, unless all it lacked was a place on the stack for its own result. -/
theorem session_as_one (hvm : vm.Prepared config) (hp : compile false source = .script p)
    (hq : compile false more = .script q)
    (hr : compile false (source ++ Text.newline :: more) = .script r) (clock : Float) :
    let first := Input.script source clock
    let second := Input.script more clock
    let whole := Input.script (source ++ Text.newline :: more) clock
    (∀ mid, vm.Ends first .ok mid →
      (∀ result left, mid.Ends second result left →
        ∃ result' left', vm.Ends whole result' left' ∧ SameEnd (result, left) (result', left')) ∧
      ∀ result' left', vm.Ends whole result' left' →
        ∃ result left, mid.Ends second result left ∧ SameEnd (result, left) (result', left')) ∧
    ∀ e left, vm.Ends first (.failed e) left →
      (config.maxStack ≠ 1 ∨ ∀ n, ¬ (vm.boundary first n).Returning) →
      ∃ result' left', vm.Ends whole result' left' ∧ SameEnd (.failed e, left) (result', left') := by
  intro first second whole
  have hknown := hvm.known
  obtain ⟨w₁, w₂, w, a, b, hw₁, hw₂, hw, hjoins⟩ := compile_joins hp hq hr
  have hp' := isScript_of_compile hp hw₁
  have hq' := isScript_of_compile hq hw₂
  have hr' := isScript_of_compile hr hw
  have hm := hknown.ready clock
  obtain ⟨ρ, hself⟩ := hknown.exists_sameStore clock
  refine ⟨fun mid hfirst => ?_, fun e left hfirst hroom => ?_⟩
  · obtain ⟨n, _, m, hrun, ⟨⟩, rfl⟩ := (ends_iff hp).1 hfirst
    obtain ⟨k, hsame⟩ :=
      Machine.interpret_joined_finished hknown.reliable hjoins hp' hq' hr' hm hself hrun
    have hclock := Machine.clock_interpret
      (fun native hn => (hknown.reliable native hn).timeless) { vm.machine with clock } n p
    rw [hrun] at hclock
    obtain rfl : m.clock = clock := hclock
    refine ⟨fun result left hsecond => ?_, fun result' left' hwhole => ?_⟩
    · obtain ⟨j, e, m₂, hrun₂, hgives, rfl⟩ := (ends_iff hq).1 hsecond
      have hsame₂ := hsame j
      rw [show Machine.interpret vm.natives j q m = (e, m₂) from hrun₂] at hsame₂
      exact exists_ends hr hsame₂ hgives
    · obtain ⟨j, e, m₂, hrun₂, hgives, rfl⟩ := (ends_iff hr).1 hwhole
      have hended :
          (Machine.interpret vm.natives j r { vm.machine with clock := m.clock }).1 ≠ .suspended := by
        rw [hrun₂]
        rintro rfl
        cases hgives
      have hsame₂ := hsame j
      rw [Nat.add_comm, Machine.interpret_ended hr' hended, hrun₂] at hsame₂
      obtain ⟨result, left, hsecond, hend⟩ :=
        @exists_ends ⟨m, vm.natives⟩ _ _ m.clock _ hq _ _ hsame₂.symm hgives vm.natives
      exact ⟨result, left, hsecond, hend.symm⟩
  · obtain ⟨n, _, m, hrun, ⟨⟩, rfl⟩ := (ends_iff hp).1 hfirst
    have hnever : vm.machine.config.maxStack ≠ 1 ∨
        ∀ k, ¬ (Machine.interpret vm.natives k p { vm.machine with clock }).2.Returning := by
      refine hroom.imp (fun hlimit => hknown.limits ▸ hlimit) fun hnever k hreturning => hnever k ?_
      rw [boundary, runInput_script hp]
      exact hreturning
    have hsame :=
      Machine.interpret_joined_failed hknown.reliable hjoins hp' hr' hm hself hrun hnever
    rw [hrun] at hsame
    exact exists_ends hr hsame (.failed e)

/-- A function that reads a global, which is assigned in the next source before the call. -/
theorem session_as_one_assigned :
    ∃ mid left result' left',
      (Vm.new .standard).Ends (.script "var s; fun f() { print s; }" 1) .ok mid ∧
      mid.Ends (.script "s = \"b\"; f(); g;" 1)
        (.failed ⟨.undefinedVariable "g", 1, ["[line 1] in script"]⟩) left ∧
      (Vm.new .standard).Ends
        (.script ("var s; fun f() { print s; }" ++ Text.newline :: Text.ofString "s = \"b\"; f(); g;") 1)
        result' left' ∧
      SameEnd (.failed ⟨.undefinedVariable "g", 1, ["[line 1] in script"]⟩, left) (result', left') := by
  obtain ⟨p, hp⟩ := Compilation.exists_of_isSome
    (c := compile false "var s; fun f() { print s; }") (by decide +kernel)
  obtain ⟨q, hq⟩ := Compilation.exists_of_isSome
    (c := compile false (Text.ofString "s = \"b\"; f(); g;")) (by decide +kernel)
  obtain ⟨r, hr⟩ := Compilation.exists_of_isSome (c := compile false
    ("var s; fun f() { print s; }" ++ Text.newline :: Text.ofString "s = \"b\"; f(); g;"))
    (by decide +kernel)
  have hfirst := ends_of_result (n := 100) (i := .script "var s; fun f() { print s; }" 1)
    (v := Vm.new .standard) (r := .ok) (by decide +kernel)
  have hsecond := ends_of_result (n := 100) (i := .script (Text.ofString "s = \"b\"; f(); g;") 1)
    (v := (runInput 100 (Vm.new .standard) (.script "var s; fun f() { print s; }" 1)).2)
    (r := .failed ⟨.undefinedVariable "g", 1, ["[line 1] in script"]⟩) (by decide +kernel)
  have hnew : (Vm.new .standard).Prepared .standard := .new
  obtain ⟨result', left', hwhole, hsame⟩ :=
    ((session_as_one hnew hp hq hr 1).1 _ hfirst).1 _ _ hsecond
  exact ⟨_, _, result', left', hfirst, hsecond, hwhole, hsame⟩

/-- With a single place on the stack, the empty source fails for its own result.  In front of another
source it does not come to that. -/
theorem session_as_one_overflow :
    (Vm.new { MachineConfig.standard with maxStack := 1 }).Prepared
      { MachineConfig.standard with maxStack := 1 } ∧
    (∃ p, compile false [] = .script p) ∧ (∃ q, compile false "f;" = .script q) ∧
    (∃ r, compile false ([] ++ Text.newline :: Text.ofString "f;") = .script r) ∧
    ∃ e left,
      (Vm.new { MachineConfig.standard with maxStack := 1 }).Ends (.script [] 1) (.failed e) left ∧
      ∀ result' left', (Vm.new { MachineConfig.standard with maxStack := 1 }).Ends
          (.script ([] ++ Text.newline :: Text.ofString "f;") 1) result' left' →
        ¬ SameEnd (.failed e, left) (result', left') := by
  obtain ⟨r, hr⟩ := Compilation.exists_of_isSome
    (c := compile false ([] ++ Text.newline :: Text.ofString "f;")) (by decide +kernel)
  have hfirst := ends_of_result (n := 100) (i := .script [] 1)
    (v := Vm.new { MachineConfig.standard with maxStack := 1 })
    (r := .failed ⟨.stackOverflow, 1, ["[line 1] in script"]⟩) (by decide +kernel)
  have hwhole := ends_of_result (n := 100) (i := .script ([] ++ Text.newline :: Text.ofString "f;") 1)
    (v := Vm.new { MachineConfig.standard with maxStack := 1 })
    (r := .failed ⟨.undefinedVariable "f", 2, ["[line 2] in script"]⟩) (by decide +kernel)
  refine ⟨.new, Compilation.exists_of_isSome (by decide +kernel),
    Compilation.exists_of_isSome (by decide +kernel), ⟨r, hr⟩, _, _, hfirst, ?_⟩
  intro result' left' hends hsame
  obtain ⟨rfl, -⟩ := ends_unique hr hwhole hends
  have hother : RuntimeError.message ⟨.undefinedVariable "f", 2, ["[line 2] in script"]⟩ ≠
      RuntimeError.message ⟨.stackOverflow, 1, ["[line 1] in script"]⟩ := by decide +kernel
  exact hother (Option.some.inj hsame.result.message)

end Sessions

end Vm

end Lox
