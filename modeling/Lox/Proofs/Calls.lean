import Lox.Proofs.Machine.Boundary
import Lox.Proofs.Session

/-!
# Calls and returns

All active calls have their values on one stack, with nothing between them.  Still a call leaves to
its caller what the caller had: when it returns, the callee and its arguments are replaced by the
result, the slots below are as they were, and the caller goes on behind the call
(`session_calls_bracket`).  Only an assignment to a captured variable can reach a slot of a caller.

While the call is active, the calls below it stay as they are and its slots begin where they began
(`Nested`).  This is an invariant of every step that does not end the call (`Nested.step`).
-/

namespace Lox

namespace Machine

/-- Above the calls `lower` there is one whose slots begin at `base`, and there may be others above
it. -/
def Nested (lower : Array Frame) (base : Nat) (m : Machine) : Prop :=
  ∃ callee rest, m.frames.toList = lower.toList ++ callee :: rest ∧ callee.base = base

/-- A call has ended: its caller's calls are left, and a result in its place. -/
structure Returned (lower : Array Frame) (base : Nat) (m m' : Machine) : Prop where
  next : ∃ frame i, m.frames.back? = some frame ∧ frame.chunk.decode frame.ip = .ok i ∧
    i.opcode = .ret
  frames : m'.frames = lower
  size : m'.stack.size = base + 1
  result : ∃ v, m.stack.back? = some v ∧ m'.stack.back? = some v
  opened : ∀ u ∈ m'.openUpvalues, u.slot < base

section Nested

variable {m m' : Machine} {frame : Frame} {lower : Array Frame} {base n : Nat} {natives : Natives}

/-- The nested call is the innermost one, or the calls that wait for the innermost one have it
nested among them. -/
lemma Nested.cases_push {waiting : Array Frame} (h : m.Nested lower base)
    (hframes : m.frames = waiting.push frame) :
    (waiting = lower ∧ frame.base = base) ∨
      ∃ callee rest, waiting.toList = lower.toList ++ callee :: rest ∧ callee.base = base := by
  obtain ⟨callee, rest, hlist, hbase⟩ := h
  rw [hframes, Array.toList_push] at hlist
  rcases List.eq_nil_or_concat rest with rfl | ⟨rest, last, rfl⟩
  · obtain ⟨hwaiting, hlast⟩ := List.append_inj' hlist rfl
    cases hlast
    exact .inl ⟨Array.toList_inj.1 hwaiting, hbase⟩
  · rw [List.concat_eq_append, ← List.cons_append, ← List.append_assoc] at hlist
    exact .inr ⟨callee, rest, (List.append_inj' hlist rfl).1, hbase⟩

/-- A step inside a call does not end it, or ends it properly.  In any case the slots below the call
stay as they are, those apart that are assigned to as captured variables. -/
lemma Nested.step (hnatives : ∀ native ∈ natives, native.Lawful ∧ native.Contained)
    (h : m.Nested lower base) (hrunning : m.Running (n + 1)) (hlower : lower ≠ #[])
    (hframe : m.frames.back? = some frame)
    (hstep : (do betweenInstructions frame; Machine.step natives frame : MachineM Unit) m =
      .ok () m') :
    (m'.Nested lower base ∨ Returned lower base m m') ∧
      ∀ slot < base, m'.stack[slot]? = m.stack[slot]? ∨ m.AssignsSlot slot := by
  obtain ⟨i, traced, waiting, k, a, below, hentered⟩ := hrunning.entered hframe natives
  have hlawful : ∀ native ∈ natives, native.Lawful := fun native hn => (hnatives native hn).1
  rw [hentered.step] at hstep
  have hcases := h.cases_push hentered.frames
  -- The slots of the innermost call are not below those of the nested one.
  have hbase : base ≤ frame.base := by
    rcases hcases with ⟨-, hsame⟩ | ⟨callee, rest, hlist, rfl⟩
    · exact Nat.le_of_eq hsame.symm
    · have hmem : callee ∈ waiting := by
        rw [← Array.mem_toList_iff, hlist]
        simp
      have hle := hentered.executing.calls.base_le callee hmem
      rwa [← hentered.executing.base] at hle
  refine ⟨?_, fun slot hslot => ?_⟩
  · rcases hentered.executing.frames_execute hlawful hentered.allows hstep with
      ⟨ip, -, hframes⟩ | ⟨-, callee', -, rfl⟩ | ⟨hret, hframes⟩
    · refine .inl ?_
      rcases hcases with ⟨rfl, hsame⟩ | ⟨callee, rest, hlist, hbase'⟩
      · exact ⟨{ frame with ip }, [], by rw [hframes, Array.toList_push], hsame⟩
      · exact ⟨callee, _, by rw [hframes, Array.toList_push, hlist, List.append_assoc]; rfl, hbase'⟩
    · refine .inl ?_
      rcases hcases with ⟨rfl, hsame⟩ | ⟨callee, rest, hlist, hbase'⟩
      · refine ⟨{ frame with ip := frame.ip + i.size }, [callee'], ?_, hsame⟩
        simp only [Array.toList_push, List.append_assoc]
        rfl
      · refine ⟨callee, rest ++ [{ frame with ip := frame.ip + i.size }, callee'], ?_, hbase'⟩
        simp only [Array.toList_push, hlist, List.append_assoc]
        rfl
    · rcases hcases with ⟨rfl, hsame⟩ | ⟨callee, rest, hlist, hbase'⟩
      · obtain ⟨op, operand⟩ := i
        cases hret
        obtain ⟨b, rfl⟩ := hentered.allows
        obtain ⟨-, hopened, -, hresult⟩ := hentered.executing.doReturn_cases hstep
        obtain ⟨-, hsize, hback⟩ := hresult.resolve_left fun hlast => hlower hlast.1
        rw [stack_entered] at hback
        have hpos : 0 < m.stack.size := by
          have hheight := hentered.executing.size
          rw [stack_entered, List.cons_append, List.length_cons] at hheight
          omega
        have htop : m.stack.back? = some (m.stack.back hpos) := by
          simp [Array.back?, Array.back]
        dsimp only at hsize hopened
        rw [hsame] at hsize hopened
        exact .inr ⟨⟨frame, _, hframe, hentered.decode, rfl⟩, hframes, hsize,
          ⟨_, htop, hback.trans htop⟩, hopened⟩
      · exact .inl ⟨callee, rest, by rw [hframes, hlist], hbase'⟩
  · rcases hentered.executing.slots_execute hnatives hentered.allows hstep
      (Nat.lt_of_lt_of_le hslot hbase) with hsame | ⟨hop, id, hplace, hopen⟩
    · exact .inl (by rw [hsame, stack_entered])
    · -- What the collection leaves is as it was at the boundary.
      have hkept : ∀ {id : ObjectId} {o : Object},
          (m.entered traced (frame.ip + i.size)).heap.get? id = some o → m.heap.get? id = some o :=
        fun hget => hrunning.sound.get?_collectIfDue hget
      obtain ⟨made, us, hget, -⟩ := hentered.executing.closure
      have hupvalues : (m.entered traced (frame.ip + i.size)).upvaluesOf frame.closure =
          m.upvaluesOf frame.closure := by
        unfold upvaluesOf
        rw [hget, hkept hget]
      exact .inr ⟨frame, i, id, hframe, hentered.decode, hop, hupvalues ▸ hplace, hkept hopen⟩

/-- A call that adds an active call has begun one above its caller, which is to go on behind it. -/
lemma Running.begins_call (hnatives : ∀ native ∈ natives, native.Lawful)
    (hrunning : m.Running (n + 1)) (hframe : m.frames.back? = some frame) {i : Instruction}
    (hdecode : frame.chunk.decode frame.ip = .ok i)
    (hstep : (do betweenInstructions frame; Machine.step natives frame : MachineM Unit) m =
      .ok () m') (hsize : m'.frames.size = m.frames.size + 1) :
    m'.Nested (m.frames.pop.push { frame with ip := frame.ip + i.size })
        (m.stack.size - i.operand - 1) ∧ m'.stack = m.stack ∧ i.operand + 1 ≤ m.stack.size := by
  obtain ⟨i', traced, waiting, k, a, below, hentered⟩ := hrunning.entered hframe natives
  obtain rfl : i' = i := by
    have hsame := hentered.decode.symm.trans hdecode
    simpa using hsame
  rw [hentered.step] at hstep
  have hframes := hentered.frames
  rcases hentered.executing.frames_execute hnatives hentered.allows hstep with
    ⟨ip, -, hsame⟩ | ⟨hcall, callee, hbegins, rfl⟩ | ⟨-, hsame⟩
  · rw [hsame, hframes] at hsize
    simp at hsize
  · obtain ⟨op, operand⟩ := i'
    cases hcall
    obtain ⟨b, rfl, -⟩ := hentered.allows
    have hheight := hentered.executing.size
    have hbase := hbegins.base
    rw [stack_entered] at hbase hheight
    simp only [List.append_assoc, List.length_append, List.length_replicate] at hheight
    refine ⟨⟨callee, [], ?_, hbase⟩, ?_, ?_⟩
    · rw [hframes, Array.pop_push, Array.toList_push]
    · dsimp only
      rw [stack_entered]
    · dsimp only
      omega
  · rw [hsame, hframes, Array.size_push] at hsize
    omega

end Nested

end Machine

/-! ## Sessions -/

namespace Vm

variable {vm : Vm}

/-- From one boundary of an input to the next nothing happens, or an instruction is executed that
completes or fails. -/
lemma Steady.boundary_succ (h : vm.Steady) (i : Input) (n : Nat) :
    vm.boundary i (n + 1) = vm.boundary i n ∨
    (∀ k, (vm.boundary i n).Running k) ∧ ∃ frame, (vm.boundary i n).frames.back? = some frame ∧
      ((do Machine.betweenInstructions frame; Machine.step vm.natives frame : MachineM Unit)
          (vm.boundary i n) = .ok () (vm.boundary i (n + 1)) ∨
        ∃ cause m', (do Machine.betweenInstructions frame
                        Machine.step vm.natives frame : MachineM Unit) (vm.boundary i n) =
            .error (.runtime cause) m' ∧ vm.boundary i (n + 1) = m'.resetStack) := by
  rcases boundary_cases vm i with hsame | ⟨script, hscript, hinterpret⟩
  · exact .inl (by rw [hsame, hsame])
  · have hnatives : ∀ native ∈ vm.natives, native.Lawful ∧ native.Contained :=
      fun native hn => ⟨h.natives native hn, h.contained native hn⟩
    have hclock : Machine.Sound { vm.machine with clock := i.clock } := h.machine.of_eq rfl rfl
    rw [hinterpret, hinterpret]
    exact (hclock.interpret_succ hnatives hscript n).imp (fun hend => hend.2) id

/-- As long as a call is active, it stays nested above its caller, and the slots below it stay as
they are but for assignments to captured variables. -/
lemma Steady.nested_run (h : vm.Steady) (i : Input) {lower : Array Frame} {base n j : Nat}
    (hlower : lower ≠ #[]) (hbegin : (vm.boundary i (n + 1)).Nested lower base) (hnj : n < j)
    (hactive : ∀ k, n < k → k ≤ j → lower.size < (vm.boundary i k).frames.size) :
    (vm.boundary i j).Nested lower base ∧ ∀ slot < base,
      (vm.boundary i j).stack[slot]? = (vm.boundary i (n + 1)).stack[slot]? ∨
        ∃ k, n < k ∧ k < j ∧ (vm.boundary i k).AssignsSlot slot := by
  have hnatives : ∀ native ∈ vm.natives, native.Lawful ∧ native.Contained :=
    fun native hn => ⟨h.natives native hn, h.contained native hn⟩
  induction j, hnj using Nat.le_induction with
  | base => exact ⟨hbegin, fun _ _ => .inl rfl⟩
  | succ j hnj ih =>
    obtain ⟨hnested, hslots⟩ := ih fun k hk hkj => hactive k hk (Nat.le_succ_of_le hkj)
    have hlater := hactive (j + 1) (Nat.lt_succ_of_lt hnj) (Nat.le_refl _)
    have hearlier : ∀ slot, (∃ k, n < k ∧ k < j ∧ (vm.boundary i k).AssignsSlot slot) →
        ∃ k, n < k ∧ k < j + 1 ∧ (vm.boundary i k).AssignsSlot slot :=
      fun _ ⟨k, hk, hkj, hassigns⟩ => ⟨k, hk, Nat.lt_succ_of_lt hkj, hassigns⟩
    rcases h.boundary_succ i j with hsame | ⟨hrunning, frame, hframe, hok | ⟨cause, m', -, hfailed⟩⟩
    · rw [hsame]
      exact ⟨hnested, fun slot hslot => (hslots slot hslot).imp id (hearlier slot)⟩
    · obtain ⟨hnext, hkept⟩ := hnested.step hnatives (hrunning 1) hlower hframe hok
      refine ⟨hnext.resolve_right fun hreturned => ?_, fun slot hslot => ?_⟩
      · rw [hreturned.frames] at hlater
        exact Nat.lt_irrefl _ hlater
      · rcases hkept slot hslot with hsame | hassigns
        · rw [hsame]
          exact (hslots slot hslot).imp id (hearlier slot)
        · exact .inr ⟨j, hnj, Nat.lt_succ_self j, hassigns⟩
    · rw [hfailed] at hlater
      exact absurd hlater (Nat.not_lt_zero _)

/-- Calls and returns bracket.  Let a call with `c.operand` arguments be executed behind `n`
instructions of an input, and let it add an active call.  If that call is active until it ends with
the instruction behind `j` others, then this instruction is a return, the active calls are those of
the caller, which goes on behind its call, and callee and arguments are replaced by the value that
was returned.  A slot below the callee has the value it had, unless it was assigned to as a captured
variable in between, and no captured variable is left in the callee's slots. -/
theorem session_calls_bracket (config : MachineConfig) (hosts : List HostFunction)
    (hhosts : ∀ host ∈ hosts, host.native.Lawful ∧ host.native.Contained) (budget : Nat)
    (inputs : List Input) (i : Input) :
    let vm := (session budget ((Vm.new config).register hosts) inputs).2
    ∀ (n j : Nat) (frame : Frame) (c : Instruction), n < j →
      (vm.boundary i n).frames.back? = some frame → frame.chunk.decode frame.ip = .ok c →
      c.opcode = .call → (vm.boundary i (n + 1)).frames.size = (vm.boundary i n).frames.size + 1 →
      (∀ k, n < k → k ≤ j → (vm.boundary i n).frames.size < (vm.boundary i k).frames.size) →
      (vm.boundary i (j + 1)).frames.size = (vm.boundary i n).frames.size →
      (∃ frame' r, (vm.boundary i j).frames.back? = some frame' ∧
        frame'.chunk.decode frame'.ip = .ok r ∧ r.opcode = .ret) ∧
      (vm.boundary i (j + 1)).frames =
        (vm.boundary i n).frames.pop.push { frame with ip := frame.ip + c.size } ∧
      (vm.boundary i (j + 1)).stack.size = (vm.boundary i n).stack.size - c.operand ∧
      (∃ v, (vm.boundary i j).stack.back? = some v ∧ (vm.boundary i (j + 1)).stack.back? = some v) ∧
      (∀ slot < (vm.boundary i n).stack.size - c.operand - 1,
        (vm.boundary i (j + 1)).stack[slot]? = (vm.boundary i n).stack[slot]? ∨
          ∃ k, n < k ∧ k ≤ j ∧ (vm.boundary i k).AssignsSlot slot) ∧
      ∀ u ∈ (vm.boundary i (j + 1)).openUpvalues,
        u.slot < (vm.boundary i n).stack.size - c.operand - 1 := by
  intro vm n j frame c hnj hframe hdecode _ hbegins hactive hends
  have hsteady : vm.Steady := (steady_register config hhosts).session budget inputs
  have hnatives : ∀ native ∈ vm.natives, native.Lawful ∧ native.Contained :=
    fun native hn => ⟨hsteady.natives native hn, hsteady.contained native hn⟩
  have hpos : 0 < (vm.boundary i n).frames.size := by
    rw [Nat.pos_iff_ne_zero]
    intro hzero
    rw [Array.size_eq_zero_iff.1 hzero] at hframe
    cases hframe
  -- The call begins.
  obtain ⟨hnested, hstack, hroom⟩ : (vm.boundary i (n + 1)).Nested
        ((vm.boundary i n).frames.pop.push { frame with ip := frame.ip + c.size })
        ((vm.boundary i n).stack.size - c.operand - 1) ∧
      (vm.boundary i (n + 1)).stack = (vm.boundary i n).stack ∧
      c.operand + 1 ≤ (vm.boundary i n).stack.size := by
    rcases hsteady.boundary_succ i n with hsame | ⟨hrunning, frame', hframe', hok | ⟨_, m', -, hfailed⟩⟩
    · rw [hsame] at hbegins
      omega
    · obtain rfl : frame' = frame := Option.some.inj (hframe'.symm.trans hframe)
      exact (hrunning 1).begins_call (fun native hn => (hnatives native hn).1) hframe hdecode hok
        hbegins
    · rw [hfailed] at hbegins
      cases hbegins
  generalize hlower : (vm.boundary i n).frames.pop.push { frame with ip := frame.ip + c.size } =
    lower at hnested ⊢
  have hsize : lower.size = (vm.boundary i n).frames.size := by
    rw [← hlower, Array.size_push, Array.size_pop]
    omega
  have hne : lower ≠ #[] := by
    rintro rfl
    rw [← hsize] at hpos
    exact Nat.lt_irrefl _ hpos
  -- It is active.
  rw [← hsize] at hactive hends
  obtain ⟨hnested', hslots⟩ := hsteady.nested_run i hne hnested hnj hactive
  rw [hstack] at hslots
  -- It ends.
  rcases hsteady.boundary_succ i j with hsame | ⟨hrunning, frame', hframe', hok | ⟨_, m', -, hfailed⟩⟩
  · rw [hsame] at hends
    exact absurd hends (Nat.ne_of_gt (hactive j hnj (Nat.le_refl _)))
  · obtain ⟨hnext, hkept⟩ := hnested'.step hnatives (hrunning 1) hne hframe' hok
    have hreturned := hnext.resolve_left fun hstill => by
      obtain ⟨callee, rest, hlist, -⟩ := hstill
      rw [← Array.length_toList, hlist] at hends
      simp at hends
    refine ⟨hreturned.next, hreturned.frames, by rw [hreturned.size]; omega, hreturned.result,
      fun slot hslot => ?_, hreturned.opened⟩
    rcases hkept slot hslot with hsame | hassigns
    · rw [hsame]
      refine (hslots slot hslot).imp id ?_
      rintro ⟨k, hk, hkj, hassigns⟩
      exact ⟨k, hk, Nat.le_of_lt hkj, hassigns⟩
    · exact .inr ⟨j, hnj, Nat.le_refl j, hassigns⟩
  · rw [hfailed] at hends
    rw [← hends] at hsize
    rw [← hsize] at hpos
    cases hpos

/-- A function that assigns to a variable of its caller's, called behind four instructions. -/
theorem session_calls_bracket_setter :
    let vm := (session 0 ((Vm.new .standard).register []) []).2
    let i : Input :=
      ⟨false, "{ var n; fun set(v) { n = v; return v; } set(true); }", fun _ => true, 1⟩
    (∀ k < 10, 4 < k → (vm.boundary i 4).frames.size < (vm.boundary i k).frames.size) ∧
      (vm.boundary i 10).stack.size = (vm.boundary i 4).stack.size - 1 ∧
      ∀ slot < (vm.boundary i 4).stack.size - 1 - 1,
        (vm.boundary i 10).stack[slot]? = (vm.boundary i 4).stack[slot]? ∨
          ∃ k, 4 < k ∧ k ≤ 9 ∧ (vm.boundary i k).AssignsSlot slot := by
  intro vm i
  have hnext : ((vm.boundary i 4).frames.back?.bind fun frame =>
      (frame.chunk.decode frame.ip).toOption) = some ⟨.call, 1⟩ := by
    decide +kernel
  obtain ⟨frame, hframe, hdecode⟩ := Option.bind_eq_some_iff.1 hnext
  have hactive : ∀ k < 10, 4 < k → (vm.boundary i 4).frames.size < (vm.boundary i k).frames.size := by
    decide +kernel
  have hok : frame.chunk.decode frame.ip = .ok ⟨.call, 1⟩ := by
    cases hcase : frame.chunk.decode frame.ip with
    | error f => rw [hcase] at hdecode; cases hdecode
    | ok c => rw [hcase] at hdecode; cases hdecode; rfl
  obtain ⟨-, -, hsize, -, hslots, -⟩ := session_calls_bracket .standard []
    (List.forall_mem_nil _) 0 [] i 4 9 frame ⟨.call, 1⟩ (by decide) hframe hok rfl (by decide +kernel)
    (fun k hk hkj => hactive k (Nat.lt_succ_of_le hkj) hk) (by decide +kernel)
  exact ⟨hactive, hsize, hslots⟩

end Vm

end Lox
