import Lox.Proofs.Machine.Untraced
import Lox.Proofs.Host

/-!
# Listings and the machine

The length of an instruction and the target of a jump are worked out twice: for the listing of a
chunk and where the machine executes it.  `Machine.Follows` says for an instruction that the two
agree, and they do for every chunk, well-formed or not (`Machine.follows_of_decode`); where the
operand is missing, both fail alike.  So a trace is never the reason why a run ends, and histories of
two machines of which one has a trace are the same but for what was traced (`Vm.quiet_after`).
Together this is `Vm.listing_faithful`.
-/

namespace Lox

/-! ## Listings -/

namespace Chunk

variable {c : Chunk} {offset : Nat}

/-- At a valid opcode only the operand can be missing. -/
lemma decode_cases {byte : UInt8} {op : Opcode} (hbyte : c.code[offset]? = some byte)
    (hop : Opcode.ofByte? byte = some op) :
    c.decode offset = .error (.readPastEnd (offset + 1)) ∨
      ∃ operand, c.decode offset = .ok ⟨op, operand⟩ := by
  unfold decode readByte
  rw [hbyte]
  dsimp only
  rw [hop]
  dsimp only
  rcases c.readOperand_cases op.operandWidth (offset + 1) with herror | ⟨operand, hok⟩
  · rw [herror]
    exact .inl rfl
  · rw [hok]
    exact .inr ⟨operand, rfl⟩

end Chunk

namespace Machine

/-- The innermost call goes on at this offset. -/
def GoesOn (m : Machine) (waiting : Array Frame) (frame : Frame) (target : Int) : Prop :=
  ∃ ip : Nat, (ip : Int) = target ∧ m.frames = waiting.push { frame with ip }

/-- What a listing says of the next instruction of the innermost call, by its text and by the offset
of what follows it, is what the instruction does. -/
structure Follows (natives : Natives) (m : Machine) (waiting : Array Frame) (frame : Frame)
    (op : Opcode) (text : Text) (next : Nat) : Prop where
  /-- The operand is there. -/
  fetched : ∀ k m', step natives frame m ≠ .error (.fault (.readPastEnd k)) m'
  straight : ∀ m', step natives frame m = .ok () m' →
    op ≠ .jump → op ≠ .jumpIfFalse → op ≠ .loop → op ≠ .call → op ≠ .ret →
      m'.GoesOn waiting frame next
  /-- A call of a host function is over; a closure's frame is above the one that waits. -/
  call : op = .call → ∀ m', step natives frame m = .ok () m' → m'.GoesOn waiting frame next ∨
    ∃ callee, m'.frames = (waiting.push { frame with ip := next }).push callee
  jump : op = .jump → ∃ target : Int,
    text = Chunk.operandColumns op frame.ip ++ " -> " ++ Text.ofInt target ++ "\n" ∧
      ∃ m', step natives frame m = .ok () m' ∧ m'.GoesOn waiting frame target
  jumpIfFalse : op = .jumpIfFalse → ∃ target : Int,
    text = Chunk.operandColumns op frame.ip ++ " -> " ++ Text.ofInt target ++ "\n" ∧
      ∀ m', step natives frame m = .ok () m' → ∃ v, m.stack.back? = some v ∧
        m'.GoesOn waiting frame (if v.isFalsey then target else next)
  loop : op = .loop → ∃ target : Int,
    text = Chunk.operandColumns op frame.ip ++ " -> " ++ Text.ofInt target ++ "\n" ∧
      ((∃ f m', step natives frame m = .error (.fault f) m') ↔ target < 0) ∧
      (0 ≤ target → ∃ m', step natives frame m = .ok () m' ∧ m'.GoesOn waiting frame target)

section Listings

variable {natives : Natives} {m : Machine} {waiting : Array Frame} {frame : Frame} {op : Opcode}
  {operand : Nat}

lemma step_apply (hframes : m.frames = waiting.push frame)
    (hdecode : frame.chunk.decode frame.ip = .ok ⟨op, operand⟩) :
    step natives frame m =
      execute natives { frame with ip := frame.ip + op.size } ⟨op, operand⟩
        { m with frames := waiting.push { frame with ip := frame.ip + op.size } } := by
  unfold step
  rw [hdecode]
  dsimp only
  rw [bind_apply, setIp_apply, modify_last hframes]
  rfl

lemma setIp_last {ip : Nat} (hframes : m.frames = waiting.push frame) :
    setIp ip m = .ok () { m with frames := waiting.push { frame with ip } } := by
  rw [setIp_apply, modify_last hframes]

/-- An instruction that can be read is listed as it is executed. -/
lemma follows_of_decode (hnatives : ∀ native ∈ natives, native.Aside)
    (hframes : m.frames = waiting.push frame)
    (hdecode : frame.chunk.decode frame.ip = .ok ⟨op, operand⟩) :
    Follows natives m waiting frame op (frame.chunk.instructionText frame.ip ⟨op, operand⟩)
      (frame.ip + op.size) := by
  have hstep : step natives frame m =
      execute natives { frame with ip := frame.ip + op.size } ⟨op, operand⟩
        { m with frames := waiting.push { frame with ip := frame.ip + op.size } } :=
    step_apply hframes hdecode
  constructor
  · intro k m'
    rw [hstep]
    by_cases hcall : op = .call
    · subst hcall
      rw [call_apply]
      split
      · simp
      · exact fetched_callValue hnatives _ _ _ k m'
    · exact (plain_execute natives _ hcall).fetched _ k m'
  · intro m' hrun hjump hif hloop hcall hret
    rw [hstep] at hrun
    refine ⟨frame.ip + op.size, rfl, ?_⟩
    exact (within_execute blind_frames _ hcall (fun _ _ _ => rfl) (by simp [hjump, hif, hloop, hret])
      (fun _ _ _ => rfl) fun _ _ _ => rfl).ok hrun
  · rintro rfl m' hrun
    rw [hstep] at hrun
    rcases call_cases _ operand _ with ⟨e, herror⟩ | ⟨callee, -, hok⟩ | ⟨o, hnative⟩
    · rw [herror] at hrun
      cases hrun
    · rw [hok] at hrun
      cases hrun
      exact .inr ⟨callee, rfl⟩
    · rw [hnative] at hrun
      exact .inl ⟨_, rfl, (callNative_within hnatives o operand).ok hrun⟩
  · rintro rfl
    exact ⟨(frame.ip + 3 + operand : Nat), rfl, _, hstep.trans (setIp_last rfl), _, rfl, rfl⟩
  · rintro rfl
    refine ⟨(frame.ip + 3 + operand : Nat), rfl, fun m' hrun => ?_⟩
    rw [hstep] at hrun
    unfold execute at hrun
    dsimp only at hrun
    rw [bind_apply, peek_apply] at hrun
    by_cases hpos : 0 < m.stack.size
    · rw [if_pos hpos] at hrun
      dsimp only at hrun
      refine ⟨m.stack.getD (m.stack.size - 1 - 0) .nil, ?_, ?_⟩
      · rw [Array.back?, Array.getD_eq_getD_getElem?, Nat.sub_zero,
          Array.getElem?_eq_getElem (by omega)]
        rfl
      · split
        · rename_i hfalsey
          rw [if_pos hfalsey, setIp_last rfl] at hrun
          cases hrun
          exact ⟨_, rfl, rfl⟩
        · rename_i hfalsey
          rw [if_neg hfalsey] at hrun
          cases hrun
          exact ⟨_, rfl, rfl⟩
    · rw [if_neg hpos] at hrun
      cases hrun
  · rintro rfl
    have hsize : frame.ip + Opcode.loop.size = frame.ip + 3 := rfl
    unfold execute at hstep
    dsimp only at hstep
    refine ⟨(frame.ip : Int) + 3 - operand, rfl, ⟨?_, fun hbefore => ?_⟩, fun hwithin => ?_⟩
    · rintro ⟨f, m', hrun⟩
      rw [hstep] at hrun
      by_cases hfar : frame.ip + Opcode.loop.size < operand
      · omega
      · rw [if_neg hfar, setIp_last rfl] at hrun
        cases hrun
    · rw [hstep, if_pos (by omega)]
      exact ⟨_, _, rfl⟩
    · rw [hstep, if_neg (by omega), setIp_last rfl]
      exact ⟨_, rfl, frame.ip + Opcode.loop.size - operand, by omega, rfl⟩

end Listings

end Machine

/-! ## Sessions without a trace -/

namespace Vm

/-- The machine without its trace. -/
def quiet (vm : Vm) : Vm :=
  { vm with machine := vm.machine.quiet }

section Quiet

variable {vm : Vm}

lemma quiet_executeWithin (vm : Vm) (hnatives : ∀ native ∈ vm.natives, native.Untraced)
    (budget : Nat) (script : Prototype) :
    executeWithin budget vm.quiet script =
      ((executeWithin budget vm script).1, (executeWithin budget vm script).2.quiet) := by
  have hinterpret := Machine.interpret_quiet hnatives budget script vm.machine
  have hnative : vm.quiet.natives = vm.natives := rfl
  have hmachine : vm.quiet.machine = vm.machine.quiet := rfl
  unfold executeWithin
  rw [hnative, hmachine, hinterpret]
  rfl

lemma quiet_runInput (hnatives : ∀ native ∈ vm.natives, native.Untraced) (budget : Nat) (i : Input) :
    runInput budget vm.quiet i = ((runInput budget vm i).1, (runInput budget vm i).2.quiet) := by
  unfold runInput interpretWithin
  split
  · rfl
  · rfl
  · split
    · exact quiet_executeWithin { vm with machine := { vm.machine with clock := i.clock } } hnatives
        budget _
    · rfl

lemma quiet_perform {α : Type} {f : MachineM α} (hf : Machine.Untraced f) :
    (vm.quiet.perform f).2 = (vm.perform f).2.quiet := by
  have hrun := hf vm.machine
  have hmachine : vm.quiet.machine = vm.machine.quiet := rfl
  unfold perform EStateM.run
  rw [hmachine, hrun]
  cases f vm.machine <;> rfl

/-- What a host does has the same effect without a trace. -/
lemma quiet_act (hnatives : ∀ native ∈ vm.natives, native.Untraced) (a : HostAction) :
    vm.quiet.act a = (vm.act a).quiet := by
  cases a with
  | run budget i => exact congrArg Prod.snd (quiet_runInput hnatives budget i)
  | execute budget script => exact congrArg Prod.snd (quiet_executeWithin _ hnatives budget script)
  | push v => exact quiet_perform (Machine.plain_push v).untraced
  | pop => exact quiet_perform Machine.plain_pop.untraced
  | _ => rfl

lemma quiet_after {acts : List HostAction}
    (hnatives : ∀ native ∈ (vm.after acts).natives, native.Untraced) :
    vm.quiet.after acts = (vm.after acts).quiet := by
  induction acts generalizing vm with
  | nil => rfl
  | cons a acts ih =>
    have hnow : ∀ native ∈ vm.natives, native.Untraced := by
      intro native hmem
      refine hnatives native ?_
      rw [natives_after]
      exact Array.mem_append_left _ hmem
    show (vm.quiet.act a).after acts = ((vm.act a).after acts).quiet
    rw [quiet_act hnow a]
    exact ih hnatives

end Quiet

end Vm

namespace Native

lemma untraced_clock : clock.Untraced := fun _ => fun _ => rfl

lemma untraced_collect : collect.Untraced := fun _ => fun _ => rfl

lemma aside_collect : collect.Aside := fun _ => ⟨fun _ => rfl, fun _ _ _ h => nomatch h⟩

end Native

namespace Vm

/-- The machine after a history, with or without a trace. -/
def historyOf (config : MachineConfig) (acts : List HostAction) (trace : Bool) : Vm :=
  (Vm.new { config with trace }).after acts

/-- The listing and the machine agree on the code.  For every chunk, whatever its code is, and every
valid opcode in it, either the operand is missing for both of them, or what the listing says is what
the instruction does.  Therefore a trace changes nothing: whatever a host did with two machines of
which only one has a trace, sources and scripts end with the same result on both of them and print
the same. -/
theorem listing_faithful :
    (∀ (natives : Natives), (∀ native ∈ natives, native.Aside) →
      ∀ (m : Machine) (waiting : Array Frame) (frame : Frame) (byte : UInt8) (op : Opcode),
        m.frames = waiting.push frame → frame.chunk.code[frame.ip]? = some byte →
        Opcode.ofByte? byte = some op →
        (∀ f, frame.chunk.listAt frame.ip = .error f → f = .readPastEnd (frame.ip + 1) ∧
          Machine.step natives frame m = .error (.fault f) m) ∧
        ∀ text next, frame.chunk.listAt frame.ip = .ok (text, next) →
          m.Follows natives waiting frame op text next) ∧
    ∀ (config : MachineConfig) (acts : List HostAction),
      (∀ a ∈ acts, ∀ native, a.native? = some native → native.Untraced) →
      let vm := historyOf config acts
      (∀ budget i, (runInput budget (vm true) i).1 = (runInput budget (vm false) i).1 ∧
        (runInput budget (vm true) i).2.machine.printed =
          (runInput budget (vm false) i).2.machine.printed) ∧
      ∀ budget script,
        (executeWithin budget (vm true) script).1 = (executeWithin budget (vm false) script).1 ∧
        (executeWithin budget (vm true) script).2.machine.printed =
          (executeWithin budget (vm false) script).2.machine.printed := by
  constructor
  · intro natives hnatives m waiting frame byte op hframes hbyte hop
    rcases Chunk.decode_cases hbyte hop with herror | ⟨operand, hok⟩
    · have hlist : frame.chunk.listAt frame.ip = .error (.readPastEnd (frame.ip + 1)) := by
        rw [Chunk.listAt_eq, herror]
      rw [hlist]
      refine ⟨fun f hf => ?_, fun text next h => (by cases h)⟩
      cases hf
      refine ⟨rfl, ?_⟩
      unfold Machine.step
      rw [herror]
      rfl
    · rw [Chunk.listAt_of_decode hok]
      refine ⟨fun f hf => (by cases hf), fun text next h => ?_⟩
      cases h
      exact Machine.follows_of_decode hnatives hframes hok
  · intro config acts hacts vm
    have hnatives : ∀ trace, ∀ native ∈ (vm trace).natives, native.Untraced := by
      intro trace native hmem
      have hmem : native ∈ ((Vm.new { config with trace }).after acts).natives := hmem
      rw [natives_after, Array.mem_append] at hmem
      rcases hmem with hmem | hmem
      · rw [List.mem_singleton.1 (Array.mem_toList_iff.2 hmem)]
        exact Native.untraced_clock
      · obtain ⟨a, ha, hnative⟩ := List.mem_filterMap.1 (Array.mem_toList_iff.2 hmem)
        exact hacts a ha native hnative
    have hquiet : (vm true).quiet = (vm false).quiet := by
      exact (quiet_after (hnatives true)).symm.trans (quiet_after (hnatives false))
    constructor
    · intro budget i
      have hrun := (quiet_runInput (hnatives true) budget i).symm.trans
        ((congrArg (runInput budget · i) hquiet).trans (quiet_runInput (hnatives false) budget i))
      obtain ⟨hresult, hleft⟩ := Prod.mk.inj hrun
      have hprinted : (runInput budget (vm true) i).2.quiet.machine.printed =
          (runInput budget (vm false) i).2.quiet.machine.printed := by rw [hleft]
      exact ⟨hresult, hprinted⟩
    · intro budget script
      have hrun := (quiet_executeWithin _ (hnatives true) budget script).symm.trans
        ((congrArg (executeWithin budget · script) hquiet).trans
          (quiet_executeWithin _ (hnatives false) budget script))
      obtain ⟨hresult, hleft⟩ := Prod.mk.inj hrun
      have hprinted : (executeWithin budget (vm true) script).2.quiet.machine.printed =
          (executeWithin budget (vm false) script).2.quiet.machine.printed := by rw [hleft]
      exact ⟨hresult, hprinted⟩

/-- A loop that goes back behind the beginning of the code, and a jump without its operand. -/
def stray : Chunk :=
  { Chunk.empty with
    code := #[Opcode.loop.toByte, 0, 7, Opcode.jump.toByte, 0], lines := #[1, 1, 1, 1, 1] }

/-- The listing shows a negative target where the machine fails, and it fails itself where an operand
is missing.  A program that collects garbage prints the same with and without a trace. -/
theorem listing_faithful_stray :
    let frame (ip : Nat) : Frame := { closure := 0, name := [], chunk := stray, ip, base := 0 }
    let m (ip : Nat) : Machine := { Machine.new .standard with frames := #[frame ip] }
    stray.listAt 0 = .ok (Chunk.operandColumns .loop 0 ++ " -> -4\n", 3) ∧
      (m 0).Follows #[Native.collect] #[] (frame 0) .loop
        (Chunk.operandColumns .loop 0 ++ " -> -4\n") 3 ∧
      stray.listAt 3 = .error (.readPastEnd 4) ∧
      Machine.step #[Native.collect] (frame 3) (m 3) = .error (.fault (.readPastEnd 4)) (m 3) ∧
      let vm := historyOf .standard [.defineNative ⟨"gc", 0, Native.collect⟩]
      let i : Input :=
        ⟨false, "var i = 0; while (i < 2) { gc(); i = i + 1; print i; }", fun _ => true, 0⟩
      (runInput 100 (vm true) i).1 = (runInput 100 (vm false) i).1 ∧
        (runInput 100 (vm true) i).2.machine.printed =
          (runInput 100 (vm false) i).2.machine.printed := by
  intro frame m
  have hnatives : ∀ native ∈ (#[Native.collect] : Natives), native.Aside := by
    intro native hmem
    rw [Array.mem_singleton.1 hmem]
    exact Native.aside_collect
  obtain ⟨hlisting, htrace⟩ := listing_faithful
  have hloop : stray.listAt 0 = .ok (Chunk.operandColumns .loop 0 ++ " -> -4\n", 3) := by
    decide +kernel
  refine ⟨hloop, ?_, by decide +kernel, ?_, ?_⟩
  · exact (hlisting _ hnatives (m 0) #[] (frame 0) _ .loop rfl rfl rfl).2 _ _ hloop
  · exact ((hlisting _ hnatives (m 3) #[] (frame 3) _ .jump rfl rfl rfl).1 (.readPastEnd 4)
      (by decide +kernel)).2
  · intro vm i
    have hacts : ∀ a ∈ [HostAction.defineNative ⟨"gc", 0, Native.collect⟩],
        ∀ native, a.native? = some native → native.Untraced := by
      intro a ha native hnative
      rw [List.mem_singleton.1 ha] at hnative
      cases hnative
      exact Native.untraced_collect
    clear_value i
    exact (htrace .standard _ hacts).1 100 i

end Vm

end Lox
