import Lox.Proofs.Frames
import Lox.Proofs.Semantics.Programs

/-!
# The lines of an error

A runtime error is reported with a line, and with a stack trace that has a line for each active call.
They are looked up at the byte before the offset at which a call goes on.  That byte is the opcode of
the last instruction that the call has read, or a part of its operand.  In compiled code it does not
matter which, since operands are recorded with the line of their opcode (`Chunk.WellFormed.lineAt`).

An instruction that raises an error leaves the active calls as they were (`Topped.frames_of_error`):
a call that cannot begin has no frame, and the end of a call has room for its result.  Thus the
innermost call has read the instruction that fails, and the others wait behind a call instruction.
`Vm.session_error_lines` says this of all errors of a session.
-/

namespace Lox

/-! ## Lines of active calls -/

/-- What a stack trace says of a call that is at a line. -/
def Frame.entryAt (f : Frame) (line : UInt32) : Text :=
  "[line " ++ Text.ofNat line.toNat ++ "] in " ++
    if f.name.isEmpty then Text.ofString "script" else f.name ++ "()"

/-- The call waits for another one, behind a call instruction on this line. -/
def Frame.WaitsAt (f : Frame) (line : UInt32) : Prop :=
  ∃ o given, f.chunk.IsStart o ∧ f.chunk.decode o = .ok ⟨.call, given⟩ ∧
    f.ip = o + (Instruction.mk .call given).size ∧ f.chunk.lines[o]? = some line

/-- The error was raised by the next instruction of the innermost call, `frame`, while the others were
waiting.  It tells the line of the opcode of this instruction, and of each call the line that it is
at, from the innermost call on. -/
structure RuntimeError.Locates (e : RuntimeError) (frame : Frame) (waiting active : Array Frame) :
    Prop where
  instruction : frame.chunk.IsStart frame.ip ∧ ∃ i, frame.chunk.decode frame.ip = .ok i ∧
    active = waiting.push { frame with ip := frame.ip + i.size }
  line : frame.chunk.lines[frame.ip]? = some e.line
  trace : ∃ lines, List.Forall₂ Frame.WaitsAt waiting.toList.reverse lines ∧
    e.trace = StackTrace.collapse
      (frame.entryAt e.line :: List.zipWith Frame.entryAt waiting.toList.reverse lines)

namespace Machine

section Lines

variable {m m' : Machine} {frame : Frame} {waiting : Array Frame} {arity k n : Nat}
  {height : Nat → Nat} {a below : Shape} {natives : Natives} {i : Instruction} {traced : Array Text}
  {cause : RuntimeError.Cause}

lemma Stacked.waitsAt {stack : Array Value} {low : Nat} (h : Stacked stack waiting low) :
    ∀ f ∈ waiting, f.WaitsAt f.line := by
  induction h with
  | nil => simp
  | @push waiting frame arity o n low height _ hseated ho hi hip _ ih =>
    obtain ⟨upvalues, hlayout⟩ := hseated.wellFormed
    intro f hf
    rcases Array.mem_push.1 hf with hf | rfl
    · exact ih f hf
    · refine ⟨o, n, hlayout.isStart ho, hi, hip, ?_⟩
      rw [Frame.line, hip]
      exact hlayout.lineAt ho hi

/-- The result of a call has a place on the stack. -/
lemma doReturn_ne_error (hpos : 0 < m.stack.size) (hbase : frame.base < m.stack.size)
    (hroom : m.stack.size ≤ m.config.maxStack) : doReturn frame m ≠ .error (.runtime cause) m' := by
  have hconfig : (m.returned frame.base).config = m.config := rfl
  rw [doReturn_apply frame hpos]
  split
  · exact fun h => nomatch h
  · rw [push_apply, size_returned, hconfig, if_neg (by omega)]
    exact fun h => nomatch h

lemma jumpIfFalse_ne_error {operand : Nat} :
    execute natives frame ⟨.jumpIfFalse, operand⟩ m ≠ .error (.runtime cause) m' := by
  unfold execute
  dsimp only
  rw [bind_apply, peek_apply]
  by_cases hpos : 0 < m.stack.size
  · rw [if_pos hpos]
    dsimp only
    split <;> exact fun h => nomatch h
  · rw [if_neg hpos]
    exact fun h => nomatch h

/-- An instruction that raises an error does not begin a call or end one. -/
lemma Entered.frames_of_error (hnatives : ∀ native ∈ natives, native.Lawful)
    (h : m.Entered natives frame i traced waiting k n a below)
    (hroom : m.stack.size ≤ m.config.maxStack)
    (hrun : execute natives { frame with ip := frame.ip + i.size } i
      (m.entered traced (frame.ip + i.size)) = .error (.runtime cause) m') :
    m'.frames = waiting.push { frame with ip := frame.ip + i.size } := by
  obtain ⟨op, operand⟩ := i
  rw [← h.executing.frames]
  by_cases hcall : op = .call
  · subst hcall
    rcases call_cases _ operand _ with ⟨e, herror⟩ | ⟨callee, -, hok⟩ | ⟨o, hnative⟩
    · rw [herror] at hrun
      cases hrun
      rfl
    · rw [hok] at hrun
      cases hrun
    · rw [hnative] at hrun
      have hwithin := within_callNative blind_frames.toMild (fun native hmem =>
        (hnatives native hmem).within fun _ _ hhost => (fixed_of_host hhost).1) o operand
      exact hwithin.error hrun
  by_cases hret : op = .ret
  · subst hret
    obtain ⟨b, rfl⟩ := h.allows
    have hsize := h.executing.size
    have hbase := h.executing.base
    rw [List.cons_append, List.length_cons, List.length_append] at hsize
    refine absurd hrun (doReturn_ne_error (by omega) (by omega) ?_)
    rw [stack_entered, config_entered]
    exact hroom
  by_cases hjump : op = .jump
  · subst hjump
    exact nomatch hrun
  by_cases hif : op = .jumpIfFalse
  · subst hif
    exact absurd hrun jumpIfFalse_ne_error
  by_cases hloop : op = .loop
  · subst hloop
    unfold execute at hrun
    dsimp only at hrun
    split at hrun <;> exact nomatch hrun
  refine (within_execute blind_frames _ hcall (fun _ _ _ => rfl) ?_
    (fun _ _ _ => rfl) fun _ _ _ => rfl).error hrun
  simp [hjump, hif, hloop, hret]

/-- An error that leaves the machine is located. -/
lemma Topped.locates (hnatives : ∀ native ∈ natives, native.Lawful)
    (h : m.Topped frame waiting arity height) (hrunning : m.Running 1)
    (hrun : (do betweenInstructions frame; step natives frame : MachineM Unit) m =
      .error (.runtime cause) m') :
    RuntimeError.Locates ⟨cause, m'.currentLine, m'.stackTrace⟩ frame waiting m'.frames := by
  have hframe : m.frames.back? = some frame := by rw [h.frames, Array.back?_push]
  obtain ⟨i, traced, waiting', k, a, below, hentered⟩ := hrunning.entered hframe natives
  obtain rfl : waiting' = waiting := (Array.push_inj_left.1 (h.frames.symm.trans hentered.frames)).symm
  rw [hentered.step] at hrun
  have hframes := hentered.frames_of_error hnatives h.room hrun
  obtain ⟨upvalues, hlayout⟩ := h.seated.wellFormed
  have hline := hlayout.lineAt h.reaches hentered.decode
  have hcurrent : m'.currentLine = frame.chunk.lineAt (frame.ip + i.size - 1) := by
    rw [currentLine, hframes, Array.back?_push]
    rfl
  refine ⟨⟨hlayout.isStart h.reaches, i, hentered.decode, hframes⟩, hcurrent ▸ hline,
    waiting'.toList.reverse.map Frame.line, ?_, ?_⟩
  · rw [List.forall₂_map_right_iff, List.forall₂_same]
    exact fun f hf => h.waiting.waitsAt f (Array.mem_toList_iff.1 (List.mem_reverse.1 hf))
  · have hentries : List.zipWith Frame.entryAt waiting'.toList.reverse
        (waiting'.toList.reverse.map Frame.line) = waiting'.toList.reverse.map Frame.traceEntry := by
      rw [List.zipWith_map_right, List.zipWith_self]
      rfl
    rw [hentries, hcurrent, stackTrace, hframes, Array.toList_push, List.reverse_append]
    rfl

/-- A run that fails was stopped by an instruction. -/
lemma exists_step_of_run_error (h : run natives n m = .error (.runtime cause) m') :
    ∃ j < n, ∃ m₁ frame, run natives j m = .error .suspended m₁ ∧ m₁.frames.back? = some frame ∧
      (do betweenInstructions frame; step natives frame : MachineM Unit) m₁ =
        .error (.runtime cause) m' := by
  induction n generalizing m with
  | zero => exact nomatch h
  | succ n ih =>
    rw [run_succ_apply] at h
    cases hframe : m.frames.back? with
    | none => simp [hframe] at h
    | some frame =>
      simp only [hframe] at h
      cases hstep : (do betweenInstructions frame; step natives frame : MachineM Unit) m with
      | error e m₁ =>
        simp only [hstep] at h
        cases h
        exact ⟨0, Nat.succ_pos n, m, frame, rfl, hframe, hstep⟩
      | ok _ m₁ =>
        simp only [hstep] at h
        obtain ⟨j, hj, m₂, frame', hrun, hframe', herror⟩ := ih h
        refine ⟨j + 1, Nat.succ_lt_succ hj, m₂, frame', ?_, hframe', herror⟩
        simp only [run_succ_apply, hframe, hstep, hrun]

lemma ending_eq_failed {r : EStateM.Result Halt Machine Unit} {e : RuntimeError}
    (h : (ending r).1 = .failed e) :
    ∃ m', r = .error (.runtime e.cause) m' ∧ e = ⟨e.cause, m'.currentLine, m'.stackTrace⟩ := by
  cases r with
  | ok _ m' => cases h
  | error halt m' =>
    cases halt with
    | runtime cause =>
      cases h
      exact ⟨m', rfl, rfl⟩
    | fault f => cases h
    | suspended => cases h

/-- A script that is called is run, and otherwise there is no room for it. -/
lemma interpret_called {script : Prototype} {w : Chunk} (harity : script.arity = 0)
    (hchunk : script.chunk = some w) (natives : Natives) (m : Machine) :
    (∀ n, (m.interpret natives n script).1 = .failed ⟨.stackOverflow, 0, []⟩ ∧
      (m.interpret natives n script).2.frames = #[]) ∨
    ∀ n, m.interpret natives n script = ending (run natives n (m.started script w)) := by
  by_cases hstack : 0 < m.config.maxStack
  · by_cases hcalls : 0 < m.config.maxCalls
    · exact .inr (interpret_started hstack hcalls harity hchunk natives)
    · refine .inl fun n => ?_
      have harity' : ¬ ((0 : Nat) : Int) ≠ (FunctionObject.ofPrototype script).arity := by
        rw [FunctionObject.ofPrototype, harity]
        exact fun h => h rfl
      have hfull : (m.loaded script).config.maxCalls ≤ (m.loaded script).frames.size :=
        Nat.not_lt.1 hcalls
      rw [interpret_eq, if_neg (Nat.not_le.2 hstack), bind_apply, callClosure_apply, if_neg harity',
        if_pos hfull]
      exact ⟨rfl, rfl⟩
  · refine .inl fun n => ?_
    rw [interpret_eq, if_pos (Nat.not_lt.1 hstack)]
    exact ⟨rfl, rfl⟩

end Lines

end Machine

/-! ## Sessions -/

namespace Vm

/-- When `n` instructions of an input have been executed, the next one raises an error.  It belongs to
the call `frame` and leaves the machine `m'`. -/
structure RaisesAt (vm : Vm) (i : Input) (n : Nat) (frame : Frame) (cause : RuntimeError.Cause)
    (m' : Machine) : Prop where
  suspended : (runInput n vm i).1 = .ok none
  innermost : (vm.boundary i n).frames.back? = some frame
  step : (do Machine.betweenInstructions frame; Machine.step vm.natives frame : MachineM Unit)
    (vm.boundary i n) = .error (.runtime cause) m'

section Lines

variable {config : MachineConfig} {vm : Vm} {i : Input}

lemma executeWithin_eq_suspended {n : Nat} {script : Prototype} :
    (executeWithin n vm script).1 = .ok none ↔
      (vm.machine.interpret vm.natives n script).1 = .suspended := by
  unfold executeWithin
  cases hending : (vm.machine.interpret vm.natives n script).1 <;> simp_all

lemma executeWithin_eq_failed {n : Nat} {script : Prototype} {e : RuntimeError} :
    (executeWithin n vm script).1 = .ok (some (.failed e)) ↔
      (vm.machine.interpret vm.natives n script).1 = .failed e := by
  unfold executeWithin
  cases hending : (vm.machine.interpret vm.natives n script).1 <;> simp_all

/-- An input that is run is called as a script, or there is no room for it. -/
lemma Orderly.runInput_cases (h : vm.Orderly config) (i : Input) :
    (∀ n, (runInput n vm i).1 ≠ .ok none ∧ ∀ e, (runInput n vm i).1 ≠ .ok (some (.failed e))) ∨
    (∀ n, (runInput n vm i).1 = .ok (some (.failed ⟨.stackOverflow, 0, []⟩)) ∧
      (vm.boundary i n).frames = #[]) ∨
    ∃ m, (∀ k, m.Running k) ∧ ∀ n, vm.boundary i n = (Machine.ending (Machine.run vm.natives n m)).2 ∧
      ((runInput n vm i).1 = .ok none ↔
        (Machine.ending (Machine.run vm.natives n m)).1 = .suspended) ∧
      ∀ e, (runInput n vm i).1 = .ok (some (.failed e)) ↔
        (Machine.ending (Machine.run vm.natives n m)).1 = .failed e := by
  rcases runInput_compiled vm i with ⟨_, hended, hunfailed, hsame⟩ | ⟨script, hcompile, hrun⟩
  · exact .inl fun n => hsame n ▸ ⟨hended, hunfailed⟩
  refine .inr ?_
  obtain ⟨w, arity, height, hchunk, -, -, -, -⟩ := Prototype.Regular.exists_chunk (regular_of_compile hcompile)
  have harity : script.arity = 0 := by
    obtain ⟨body, last, tree, c, g, line, -, -, hderives, -, -, hemits, rfl⟩ :=
      compile_eq_script hcompile
    exact congrArg Nat.cast hemits.widens.arity
  have hboundary : ∀ n, vm.boundary i n =
      (Machine.interpret vm.natives n script { vm.machine with clock := i.clock }).2 := by
    intro n
    rw [Vm.boundary, hrun]
    rfl
  rcases Machine.interpret_called harity hchunk vm.natives { vm.machine with clock := i.clock } with
    hfull | hcalled
  · refine .inl fun n => ?_
    rw [hrun, executeWithin_eq_failed, hboundary]
    exact hfull n
  · refine .inr ⟨Machine.started { vm.machine with clock := i.clock } script w, ?_, fun n => ?_⟩
    · -- The machine that is left after no instruction is the one that the script was called on.
      have hclock : Machine.Sound { vm.machine with clock := i.clock } := h.machine.of_eq rfl rfl
      have hnatives : ∀ native ∈ vm.natives, native.Lawful ∧ native.Contained :=
        fun native hn => ⟨h.natives native hn, h.contained native hn⟩
      have hzero := hclock.interpret_succ hnatives (compile_verified hcompile) 0
      rw [hcalled 0] at hzero
      rcases hzero with ⟨hframes, -⟩ | ⟨hrunning, -⟩
      · exact absurd hframes (by simp [Machine.run_zero_apply, Machine.ending, Machine.started])
      · exact hrunning
    · rw [hboundary, hrun, ← hcalled n]
      exact ⟨rfl, executeWithin_eq_suspended, fun e => executeWithin_eq_failed⟩

/-- An error that is raised is reported with its lines, whatever the budget. -/
lemma Orderly.reports (h : vm.Orderly config) {n : Nat} {frame : Frame}
    {cause : RuntimeError.Cause} {m' : Machine} (hraises : vm.RaisesAt i n frame cause m') :
    ∃ e waiting, e.cause = cause ∧ (vm.boundary i n).frames = waiting.push frame ∧
      RuntimeError.Locates e frame waiting m'.frames ∧
      ∀ k, (runInput (n + 1 + k) vm i).1 = .ok (some (.failed e)) := by
  have hnatives : ∀ native ∈ vm.natives, native.Lawful ∧ native.Contained :=
    fun native hn => ⟨h.natives native hn, h.contained native hn⟩
  obtain ⟨hsuspended, hframe, hstep⟩ := hraises
  rcases h.runInput_cases i with hnever | hfull | ⟨m, hrunning, hrun⟩
  · exact absurd hsuspended (hnever n).1
  · rw [(hfull n).1] at hsuspended
    cases hsuspended
  obtain ⟨hboundary, hended, -⟩ := hrun n
  obtain ⟨m₁, hm₁⟩ := Machine.ending_eq_suspended.1 (hended.1 hsuspended)
  rw [hm₁] at hboundary
  change vm.boundary i n = m₁ at hboundary
  have hgoesOn := (hrunning (n + 1)).run hnatives
  rw [hm₁] at hgoesOn
  obtain ⟨hrunning₁, hrest⟩ := hgoesOn
  obtain ⟨horderly, -⟩ := h.boundary i n
  rw [hboundary] at hframe hstep horderly
  cases horderly.layered with
  | idle hidle => simp [hidle] at hframe
  | @call frame' waiting arity height htopped =>
    have hsame : frame' = frame := by
      rw [htopped.frames, Array.back?_push] at hframe
      exact Option.some.inj hframe
    subst hsame
    have hlocates := htopped.locates (fun native hn => (hnatives native hn).1) hrunning₁ hstep
    refine ⟨_, waiting, rfl, hboundary ▸ htopped.frames, hlocates, fun k => ?_⟩
    obtain ⟨-, -, hfailed⟩ := hrun (n + 1 + k)
    rw [hfailed, Nat.add_assoc, hrest, Nat.add_comm 1 k, Machine.run_succ_apply]
    simp only [hframe, hstep]
    rfl

/-- An error that is reported was raised, unless there was no room for the script. -/
lemma Orderly.exists_raisesAt (h : vm.Orderly config) {n : Nat} {e : RuntimeError}
    (hfailed : (runInput n vm i).1 = .ok (some (.failed e))) :
    (e = ⟨.stackOverflow, 0, []⟩ ∧ ∀ k, (vm.boundary i k).frames = #[]) ∨
      ∃ j < n, ∃ frame m', vm.RaisesAt i j frame e.cause m' := by
  rcases h.runInput_cases i with hnever | hfull | ⟨m, hrunning, hrun⟩
  · exact absurd hfailed ((hnever n).2 e)
  · rw [(hfull n).1] at hfailed
    cases hfailed
    exact .inl ⟨rfl, fun k => (hfull k).2⟩
  · obtain ⟨-, -, hended⟩ := hrun n
    obtain ⟨m', herror, -⟩ := Machine.ending_eq_failed ((hended e).1 hfailed)
    obtain ⟨j, hj, m₁, frame, hm₁, hframe, hstep⟩ := Machine.exists_step_of_run_error herror
    obtain ⟨hboundary, hsuspended, -⟩ := hrun j
    rw [hm₁] at hboundary hsuspended
    refine .inr ⟨j, hj, frame, m', hsuspended.2 rfl, ?_, ?_⟩
    · rw [hboundary]
      exact hframe
    · rw [hboundary]
      exact hstep

end Lines

/-- Whatever the configuration, the host functions and the inputs so far, an error that is raised
while a call is active is reported with the line of the opcode of the instruction that raised it.  Its
stack trace lists all active calls, the innermost first, with their names and lines: the innermost is
at that instruction, the others at the call that they wait for.  There is no other error, except that
there is no room for the script itself. -/
theorem session_error_lines (config : MachineConfig) (hosts : List HostFunction)
    (hhosts : ∀ host ∈ hosts, host.native.Lawful ∧ host.native.Contained) (budget : Nat)
    (inputs : List Input) (i : Input) :
    let vm := (session budget ((Vm.new config).register hosts) inputs).2
    (∀ n frame cause m', vm.RaisesAt i n frame cause m' →
      ∃ e waiting, e.cause = cause ∧ (vm.boundary i n).frames = waiting.push frame ∧
        RuntimeError.Locates e frame waiting m'.frames ∧
        ∀ k, (runInput (n + 1 + k) vm i).1 = .ok (some (.failed e))) ∧
    ∀ n e, (runInput n vm i).1 = .ok (some (.failed e)) →
      (e = ⟨.stackOverflow, 0, []⟩ ∧ ∀ k, (vm.boundary i k).frames = #[]) ∨
        ∃ j < n, ∃ frame m', vm.RaisesAt i j frame e.cause m' := by
  intro vm
  have hvm : vm.Orderly config := (orderly_register config hhosts).session budget inputs
  exact ⟨fun _ _ _ _ hraises => hvm.reports hraises, fun _ _ hfailed => hvm.exists_raisesAt hfailed⟩

/-- An operand on another line than its operator, in a function that was called three times. -/
theorem session_error_lines_nested :
    (∀ host ∈ [HostFunction.mk "gc" 0 Native.collect],
      host.native.Lawful ∧ host.native.Contained) ∧
    let vm := (session 0 ((Vm.new .standard).register [⟨"gc", 0, Native.collect⟩]) []).2
    let i : Input := ⟨false, "fun f(a, b) \x7b\n  if (a)\n    return gc()\n      + a;\n  f(b, true);\n\x7d\nf(\nfalse, false);",
      fun _ => true, 1⟩
    let e : RuntimeError := ⟨.operandsNotAddable, 4, ["[line 4] in f()", "[line 5] in f()",
      "[previous frame repeated 1 more times]", "[line 7] in script"]⟩
    (runInput 100 vm i).1 = .ok (some (.failed e)) ∧ ∃ j < 100, ∃ frame m' waiting,
      vm.RaisesAt i j frame .operandsNotAddable m' ∧ e.Locates frame waiting m'.frames := by
  refine ⟨Native.contained_gc, ?_⟩
  intro vm i e
  have hfailed : (runInput 100 vm i).1 = .ok (some (.failed e)) := by decide +kernel
  obtain ⟨hreports, hraised⟩ := session_error_lines .standard _ Native.contained_gc 0 [] i
  refine ⟨hfailed, ?_⟩
  rcases hraised 100 e hfailed with ⟨heq, -⟩ | ⟨j, hj, frame, m', hraises⟩
  · exact absurd heq (by decide)
  obtain ⟨e', waiting, -, -, hlocates, hreported⟩ := hreports j frame _ m' hraises
  have hlast := hreported (100 - (j + 1))
  rw [Nat.add_sub_cancel' hj] at hlast
  have hsame : e' = e := by
    have hboth := hlast.symm.trans hfailed
    simpa using hboth
  exact ⟨j, hj, frame, m', waiting, hraises, hsame ▸ hlocates⟩

end Vm

end Lox
