import Lox.Proofs.Machine.Footprint

/-!
# Runs without a trace

A machine can be asked to record the listing of every instruction before it executes it.  The
recording is an output only: `quiet` takes a machine to the one that has recorded nothing and will
record nothing, and a computation is `Untraced` if it does the same to the two.  All of them are, up
to whole scripts (`interpret_quiet`).  There is one place where this is not obvious.  The listing of
an instruction whose operand is missing fails, and then the machine stops before the instruction; but
this is where the instruction would have failed too, and with the same fault.

Apart from that, no instruction finds an operand missing once it has been decoded (`Fetched`).  The
two properties are shown together, since they come from the same parts (`Plain`).
-/

namespace Lox

namespace Machine

/-! ## Operations and instructions -/

section Quiet

variable {α β : Type}

/-- The machine without its trace: nothing was traced, and nothing will be. -/
def quiet (m : Machine) : Machine :=
  { m with config := { m.config with trace := false }, traced := #[] }

/-- What a computation has come to, with the trace left out. -/
def hush : EStateM.Result Halt Machine α → EStateM.Result Halt Machine α
  | .ok a m => .ok a m.quiet
  | .error e m => .error e m.quiet

/-- The computation does the same without a trace. -/
def Untraced (f : MachineM α) : Prop :=
  ∀ m, f m.quiet = hush (f m)

/-- The computation finds no operand missing. -/
def Fetched (f : MachineM α) : Prop :=
  ∀ m k m', f m ≠ .error (.fault (.readPastEnd k)) m'

/-- The computation neither looks at the trace nor reads code. -/
structure Plain (f : MachineM α) : Prop where
  untraced : Untraced f
  fetched : Fetched f

lemma Untraced.bind {f : MachineM α} {g : α → MachineM β} (hf : Untraced f)
    (hg : ∀ a, Untraced (g a)) : Untraced (f >>= g) := by
  intro m
  rw [bind_apply, bind_apply, hf m]
  cases f m with
  | ok a m' => exact hg a m'
  | error e m' => rfl

lemma Fetched.bind {f : MachineM α} {g : α → MachineM β} (hf : Fetched f)
    (hg : ∀ a, Fetched (g a)) : Fetched (f >>= g) := by
  intro m k m'
  rw [bind_apply]
  cases hrun : f m with
  | ok a m₁ => exact hg a m₁ k m'
  | error e m₁ =>
    intro h
    cases h
    exact hf m k m' hrun

lemma Plain.pure (a : α) : Plain (Pure.pure a : MachineM α) :=
  ⟨fun _ => rfl, fun _ _ _ h => nomatch h⟩

lemma Plain.throw {e : Halt} (he : ∀ k, e ≠ .fault (.readPastEnd k)) :
    Plain (MonadExcept.throw e : MachineM α) := by
  refine ⟨fun _ => rfl, fun m k m' h => ?_⟩
  cases h
  exact he k rfl

lemma Plain.bind {f : MachineM α} {g : α → MachineM β} (hf : Plain f) (hg : ∀ a, Plain (g a)) :
    Plain (f >>= g) :=
  ⟨hf.untraced.bind fun a => (hg a).untraced, hf.fetched.bind fun a => (hg a).fetched⟩

lemma Untraced.get {g : Machine → MachineM β} (hquiet : ∀ m : Machine, g m.quiet = g m)
    (hg : ∀ m, Untraced (g m)) : Untraced (MonadState.get >>= g) := by
  intro m
  rw [bind_apply, bind_apply, get_apply, get_apply]
  dsimp only
  rw [hquiet]
  exact hg m m

lemma Fetched.get {g : Machine → MachineM β} (hg : ∀ m, Fetched (g m)) :
    Fetched (MonadState.get >>= g) :=
  fun m => hg m m

lemma Plain.get {g : Machine → MachineM β} (hquiet : ∀ m : Machine, g m.quiet = g m)
    (hg : ∀ m, Plain (g m)) : Plain (MonadState.get >>= g) :=
  ⟨.get hquiet fun m => (hg m).untraced, fun m => (hg m).fetched m⟩

lemma Plain.change {f : Machine → Machine} (hf : ∀ m : Machine, f m.quiet = (f m).quiet) :
    Plain (modifyThe Machine f) :=
  ⟨fun m => congrArg (EStateM.Result.ok ()) (hf m), fun _ _ _ h => nomatch h⟩

/-- A change that does not look at the trace, and what comes after it. -/
lemma Plain.modify {f : Machine → Machine} {g : PUnit → MachineM β}
    (hf : ∀ m : Machine, f m.quiet = (f m).quiet) (hg : Plain (g ())) :
    Plain (modifyThe Machine f >>= g) :=
  (Plain.change hf).bind fun _ => hg

/-- Both ways on are plain, and which one it is does not depend on the trace. -/
lemma Plain.of_ite {f f₁ f₂ : MachineM α} {c : Machine → Prop} [∀ m, Decidable (c m)]
    (hf : ∀ m, f m = if c m then f₁ m else f₂ m) (hc : ∀ m : Machine, c m.quiet ↔ c m)
    (h₁ : Plain f₁) (h₂ : Plain f₂) : Plain f := by
  constructor
  · intro m
    rw [hf, hf]
    by_cases h : c m
    · rw [if_pos h, if_pos ((hc m).2 h)]
      exact h₁.untraced m
    · rw [if_neg h, if_neg (mt (hc m).1 h)]
      exact h₂.untraced m
  · intro m
    rw [hf]
    split
    · exact h₁.fetched m
    · exact h₂.fetched m

lemma plain_push (v : Value) : Plain (push v) := by
  have hput : Plain fun m : Machine =>
      EStateM.Result.ok () { m with stack := m.stack.push v } :=
    ⟨fun _ => rfl, fun _ _ _ h => nomatch h⟩
  exact .of_ite (push_apply v) (fun _ => Iff.rfl) (.throw (by simp)) hput

lemma plain_pop : Plain pop := by
  constructor
  · intro m
    have hstack : m.quiet.stack = m.stack := rfl
    rw [pop_apply, pop_apply, hstack]
    cases m.stack.back? <;> rfl
  · intro m k m'
    rw [pop_apply]
    split <;> simp

lemma plain_peek (d : Nat) : Plain (peek d) := by
  have hread : Plain fun m : Machine =>
      EStateM.Result.ok (m.stack.getD (m.stack.size - 1 - d) .nil) m :=
    ⟨fun _ => rfl, fun _ _ _ h => nomatch h⟩
  exact .of_ite (peek_apply d) (fun _ => Iff.rfl) hread (.throw (by simp))

lemma plain_intern (t : Text) : Plain (intern t) := ⟨fun _ => rfl, fun _ _ _ h => nomatch h⟩

lemma plain_allocate (o : Object) : Plain (allocate o) := ⟨fun _ => rfl, fun _ _ _ h => nomatch h⟩

lemma plain_readString (chunk : Chunk) (i : Nat) : Plain (readString chunk i) := by
  unfold readString
  split
  · exact .pure _
  · exact .throw (by simp)

/-- Two operands give way to a result. -/
lemma plain_replace_two (v : Value) :
    Plain (do let _ ← pop; let _ ← pop; push v) :=
  plain_pop.bind fun _ => plain_pop.bind fun _ => plain_push v

lemma plain_binaryNumber (f : Float → Float → Value) : Plain (binaryNumber f) := by
  refine (plain_peek 0).bind fun b => (plain_peek 1).bind fun a => ?_
  split
  · exact plain_replace_two _
  · exact .throw (by simp)

lemma plain_add : Plain add := by
  refine (plain_peek 0).bind fun b => (plain_peek 1).bind fun a => ?_
  split
  · exact plain_replace_two _
  · refine .get (fun _ => rfl) fun m => ?_
    dsimp only
    split
    · exact (plain_intern _).bind fun _ => plain_replace_two _
    · exact .throw (by simp)

lemma plain_negate : Plain negate := by
  refine (plain_peek 0).bind fun a => ?_
  split
  · exact plain_pop.bind fun _ => plain_push _
  · exact .throw (by simp)

lemma plain_compareEqual (expected : Bool) : Plain (compareEqual expected) :=
  plain_pop.bind fun _ => plain_pop.bind fun _ => plain_push _

lemma plain_typeof : Plain typeof :=
  plain_pop.bind fun _ => .get (fun _ => rfl) fun _ =>
    (plain_intern _).bind fun _ => plain_push _

lemma plain_print : Plain print :=
  plain_pop.bind fun _ => .change fun _ => rfl

lemma plain_defineGlobal (name : Text) : Plain (defineGlobal name) :=
  (plain_intern name).bind fun _ => (plain_peek 0).bind fun _ =>
    .modify (fun _ => rfl) (plain_pop.bind fun _ => .pure _)

lemma plain_getGlobal (name : Text) : Plain (getGlobal name) := by
  refine (plain_intern name).bind fun id => .get (fun _ => rfl) fun m => ?_
  split
  · exact plain_push _
  · exact .throw (by simp)

lemma plain_setGlobal (name : Text) : Plain (setGlobal name) := by
  refine (plain_intern name).bind fun id => .get (fun _ => rfl) fun m => ?_
  split
  · exact (plain_peek 0).bind fun _ => .change fun _ => rfl
  · exact .throw (by simp)

lemma plain_getLocal (slot : Nat) : Plain (getLocal slot) := by
  refine .get (fun _ => rfl) fun m => ?_
  split
  · exact plain_push _
  · exact .throw (by simp)

lemma plain_setLocal (slot : Nat) : Plain (setLocal slot) := by
  refine .get (fun _ => rfl) fun m => ?_
  split
  · exact (plain_peek 0).bind fun _ => .change fun _ => rfl
  · exact .throw (by simp)

lemma plain_upvalueAt (frame : Frame) (place : Nat) : Plain (upvalueAt frame place) := by
  refine .get (fun _ => rfl) fun m => ?_
  split
  · exact .pure _
  · exact .throw (by simp)

lemma plain_readUpvalue (id : Option ObjectId) : Plain (readUpvalue id) := by
  refine .get (fun _ => rfl) fun m => ?_
  split
  · split
    · exact .pure _
    · exact .throw (by simp)
  · exact .pure _
  · exact .pure _

lemma plain_writeUpvalue (id : Option ObjectId) (v : Value) : Plain (writeUpvalue id v) := by
  constructor
  · intro m
    unfold writeUpvalue
    rw [bind_apply, bind_apply, get_apply, get_apply]
    dsimp only
    have hsame : m.quiet.upvalue? id = m.upvalue? id := rfl
    rw [hsame]
    rcases m.upvalue? id with _ | ⟨slot | w⟩
    · rfl
    · by_cases hslot : slot < m.stack.size
      · have hslot' : slot < m.quiet.stack.size := hslot
        simp only [if_pos hslot, if_pos hslot']
        rfl
      · have hslot' : ¬ slot < m.quiet.stack.size := hslot
        simp only [if_neg hslot, if_neg hslot']
        rfl
    · cases id <;> rfl
  · intro m k m' h
    unfold writeUpvalue at h
    rw [bind_apply, get_apply] at h
    dsimp only at h
    revert h
    rcases m.upvalue? id with _ | ⟨slot | w⟩
    · exact fun h => nomatch h
    · dsimp only
      by_cases hslot : slot < m.stack.size
      · rw [if_pos hslot]
        exact fun h => nomatch h
      · rw [if_neg hslot]
        exact fun h => nomatch h
    · cases id <;> exact fun h => nomatch h

lemma plain_captureSlot (slot : Nat) : Plain (captureSlot slot) := by
  refine .get (fun _ => rfl) fun m => ?_
  dsimp only
  split
  · exact .pure _
  · exact (plain_allocate _).bind fun _ => .modify (fun _ => rfl) (.pure _)

lemma plain_capture (frame : Frame) (c : Capture) : Plain (capture frame c) := by
  unfold capture
  split
  · exact (plain_captureSlot _).bind fun _ => .pure _
  · refine .get (fun _ => rfl) fun m => ?_
    split
    · exact .pure _
    · exact .throw (by simp)

lemma plain_captureAll (frame : Frame) (closure : ObjectId) (cs : List Capture) (place : Nat) :
    Plain (captureAll frame closure place cs) := by
  induction cs generalizing place with
  | nil => exact .pure _
  | cons c cs ih =>
    exact (plain_capture frame c).bind fun _ => .modify (fun _ => rfl) (ih _)

lemma plain_makeClosure (frame : Frame) (i : Nat) : Plain (makeClosure frame i) := by
  unfold makeClosure
  split
  · exact .throw (by simp)
  · refine Plain.bind ?_ fun closure => ?_
    · exact (plain_allocate _).bind fun _ => plain_allocate _
    · exact (plain_captureAll frame closure _ 0).bind fun _ => plain_push _

lemma plain_setIp (ip : Nat) : Plain (setIp ip) := .change fun _ => rfl

lemma plain_doReturn (frame : Frame) : Plain (doReturn frame) := by
  refine plain_pop.bind fun result => .modify (fun _ => rfl) (.get (fun _ => rfl) fun m => ?_)
  split
  · exact .pure _
  · exact plain_push _

/-- Every instruction but a call is plain. -/
lemma plain_execute (natives : Natives) (frame : Frame) {i : Instruction} (hcall : i.opcode ≠ .call) :
    Plain (execute natives frame i) := by
  obtain ⟨op, operand⟩ := i
  cases op with
  | loadConstant =>
    unfold execute
    dsimp only
    split
    · exact plain_push _
    · exact .throw (by simp)
  | loadString =>
    exact (plain_readString _ _).bind fun t => (plain_intern t).bind fun _ => plain_push _
  | loadNil | loadTrue | loadFalse => exact plain_push _
  | pop => exact plain_pop.bind fun _ => .pure _
  | add => exact plain_add
  | subtract | multiply | divide | less | greater | lessEqual | greaterEqual =>
    exact plain_binaryNumber _
  | negate => exact plain_negate
  | not => exact plain_pop.bind fun _ => plain_push _
  | equal | notEqual => exact plain_compareEqual _
  | typeof => exact plain_typeof
  | defineGlobal => exact (plain_readString _ _).bind fun t => plain_defineGlobal t
  | getGlobal => exact (plain_readString _ _).bind fun t => plain_getGlobal t
  | setGlobal => exact (plain_readString _ _).bind fun t => plain_setGlobal t
  | getLocal => exact plain_getLocal _
  | setLocal => exact plain_setLocal _
  | getUpvalue =>
    exact (plain_upvalueAt frame operand).bind fun id => (plain_readUpvalue id).bind fun v => plain_push v
  | setUpvalue =>
    exact (plain_upvalueAt frame operand).bind fun id => (plain_peek 0).bind fun v => plain_writeUpvalue id v
  | closeUpvalue =>
    refine .get (fun _ => rfl) fun m => ?_
    dsimp only
    split
    · exact .throw (by simp)
    · exact .modify (fun _ => rfl) (plain_pop.bind fun _ => .pure _)
  | jump => exact plain_setIp _
  | jumpIfFalse =>
    refine (plain_peek 0).bind fun v => ?_
    split
    · exact plain_setIp _
    · exact .pure _
  | loop =>
    unfold execute
    dsimp only
    split
    · exact .throw (by simp)
    · exact plain_setIp _
  | call => exact absurd rfl hcall
  | closure => exact plain_makeClosure frame operand
  | ret => exact plain_doReturn frame
  | print => exact plain_print

end Quiet

end Machine

/-- A host function that does not look at the trace. -/
def Native.Untraced (native : Native) : Prop :=
  ∀ args, Machine.Untraced (native args)

/-- A host function that neither begins nor ends a call nor reads code. -/
def Native.Aside (native : Native) : Prop :=
  ∀ args, Machine.Within (fun m m' => m'.frames = m.frames) (native args) ∧
    Machine.Fetched (native args)

namespace Machine

/-! ## Calls -/

section Calls

variable {natives : Natives}

lemma plain_callClosure (id : ObjectId) (f : FunctionObject) (given : Nat) :
    Plain (callClosure id f given) := by
  constructor
  · intro m
    rw [callClosure_apply, callClosure_apply, apply_ite hush, apply_ite hush]
    rfl
  · intro m k m'
    rw [callClosure_apply]
    split
    · simp
    · split <;> simp

/-- The result of a host function takes the place of callee and arguments. -/
lemma plain_putResult (size : Nat) (v : Value) :
    Plain (do modify fun m => { m with stack := resized m.stack size }; push v) :=
  .modify (fun _ => rfl) (plain_push v)

lemma untraced_callNative (hnatives : ∀ native ∈ natives, native.Untraced) (n : NativeObject)
    (given : Nat) : Untraced (callNative natives n given) := by
  unfold callNative
  dsimp only
  split
  · exact fun _ => rfl
  · split
    · exact fun _ => rfl
    · rename_i native hnative
      refine .get (fun _ => rfl) fun m => ?_
      refine (hnatives native (Array.mem_of_getElem? hnative) _).bind fun v => ?_
      exact (plain_putResult _ v).untraced

lemma callNative_within (hnatives : ∀ native ∈ natives, native.Aside) (n : NativeObject)
    (given : Nat) : Within (fun m m' => m'.frames = m.frames) (callNative natives n given) :=
  within_callNative blind_frames.toMild (fun native hmem args => (hnatives native hmem args).1) n given

lemma fetched_callNative (hnatives : ∀ native ∈ natives, native.Aside) (n : NativeObject)
    (given : Nat) : Fetched (callNative natives n given) := by
  unfold callNative
  dsimp only
  split
  · exact (Plain.throw (by simp)).fetched
  · split
    · exact (Plain.throw (by simp)).fetched
    · rename_i native hnative
      refine .get fun m => ?_
      refine Fetched.bind (hnatives native (Array.mem_of_getElem? hnative) _).2 fun v => ?_
      exact (plain_putResult _ v).fetched

lemma fetched_callValue (hnatives : ∀ native ∈ natives, native.Aside) (callee : Value)
    (given : Nat) : Fetched (callValue natives callee given) := by
  refine .get fun m => ?_
  split
  · split
    · exact (plain_callClosure _ _ given).fetched
    · exact (Plain.throw (by simp)).fetched
  · exact fetched_callNative hnatives _ given
  · exact (Plain.throw (by simp)).fetched

lemma untraced_callValue (hnatives : ∀ native ∈ natives, native.Untraced) (callee : Value)
    (given : Nat) : Untraced (callValue natives callee given) := by
  refine .get (fun _ => rfl) fun m => ?_
  split
  · split
    · exact (plain_callClosure _ _ given).untraced
    · exact fun _ => rfl
  · exact untraced_callNative hnatives _ given
  · exact fun _ => rfl

/-- Every instruction does the same without a trace. -/
lemma untraced_execute (hnatives : ∀ native ∈ natives, native.Untraced) (frame : Frame)
    (i : Instruction) : Untraced (execute natives frame i) := by
  by_cases hcall : i.opcode = .call
  · obtain ⟨op, given⟩ := i
    cases hcall
    intro m
    rw [call_apply, call_apply, apply_ite hush]
    exact if_congr Iff.rfl rfl (untraced_callValue hnatives _ given m)
  · exact (plain_execute natives frame hcall).untraced

end Calls

/-! ## Runs -/

section Runs

variable {natives : Natives}

lemma quiet_collectIfDue (m : Machine) : m.quiet.collectIfDue = m.collectIfDue.quiet :=
  (apply_ite quiet m.heap.isDue m.collect m).symm

lemma untraced_step (hnatives : ∀ native ∈ natives, native.Untraced) (frame : Frame) :
    Untraced (step natives frame) := by
  unfold step
  split
  · exact fun _ => rfl
  · exact (plain_setIp _).untraced.bind fun _ => untraced_execute hnatives _ _

lemma traceInstruction_cases (frame : Frame) (m : Machine) :
    (∃ traced, traceInstruction frame m = .ok () (m.withTraced traced)) ∨
      ∃ f traced, frame.chunk.listAt frame.ip = .error f ∧
        traceInstruction frame m = .error (.fault f) (m.withTraced traced) := by
  unfold traceInstruction
  rw [bind_apply, modify_apply]
  dsimp only
  cases hlist : frame.chunk.listAt frame.ip with
  | ok line => exact .inl ⟨_, rfl⟩
  | error f => exact .inr ⟨f, _, rfl, rfl⟩

lemma betweenInstructions_apply (frame : Frame) (m : Machine) :
    betweenInstructions frame m =
      if m.collectIfDue.config.trace = true then traceInstruction frame m.collectIfDue
      else .ok () m.collectIfDue := by
  unfold betweenInstructions
  rw [bind_apply, modify_apply]
  dsimp only
  rw [bind_apply, get_apply]
  dsimp only
  split <;> rfl

/-- Between instructions nothing but the trace depends on whether there is one.  An instruction that
cannot be listed cannot be executed. -/
lemma untraced_between_step (hnatives : ∀ native ∈ natives, native.Untraced) (frame : Frame) :
    Untraced (do betweenInstructions frame; step natives frame) := by
  intro m
  have hskip : betweenInstructions frame m.quiet = .ok () m.collectIfDue.quiet := by
    rw [betweenInstructions_apply, quiet_collectIfDue]
    rfl
  rw [bind_apply, bind_apply, hskip, betweenInstructions_apply]
  by_cases htrace : m.collectIfDue.config.trace = true
  · rw [if_pos htrace]
    rcases traceInstruction_cases frame m.collectIfDue with ⟨traced, hok⟩ | ⟨f, traced, hlist, herror⟩
    · rw [hok]
      exact untraced_step hnatives frame (m.collectIfDue.withTraced traced)
    · rw [herror]
      unfold step
      rw [Chunk.decode_of_listAt hlist]
      rfl
  · rw [if_neg htrace]
    exact untraced_step hnatives frame m.collectIfDue

/-- A run is the same without a trace. -/
theorem untraced_run (hnatives : ∀ native ∈ natives, native.Untraced) (budget : Nat) :
    Untraced (run natives budget) := by
  induction budget with
  | zero => exact fun _ => rfl
  | succ budget ih =>
    intro m
    rw [run_succ_apply, run_succ_apply]
    have hframes : m.quiet.frames = m.frames := rfl
    rw [hframes]
    cases m.frames.back? with
    | none => rfl
    | some frame =>
      dsimp only
      rw [untraced_between_step hnatives frame m]
      cases (do betweenInstructions frame; step natives frame : MachineM Unit) m with
      | ok _ m' => exact ih m'
      | error e m' => rfl

/-- A script ends in the same way without a trace. -/
theorem interpret_quiet (hnatives : ∀ native ∈ natives, native.Untraced) (budget : Nat)
    (script : Prototype) (m : Machine) :
    m.quiet.interpret natives budget script =
      ((m.interpret natives budget script).1, (m.interpret natives budget script).2.quiet) := by
  have hcall := (plain_callClosure m.scriptId (.ofPrototype script) 0).untraced.bind
    (fun _ => untraced_run hnatives budget) (m.loaded script)
  have hconfig : m.quiet.config.maxStack = m.config.maxStack := rfl
  have hloaded : m.quiet.loaded script = (m.loaded script).quiet := rfl
  have hid : m.quiet.scriptId = m.scriptId := rfl
  rw [interpret_eq, interpret_eq, hconfig, hloaded, hid]
  split
  · rfl
  · rw [hcall]
    cases (do callClosure m.scriptId (.ofPrototype script) 0; run natives budget : MachineM Unit)
        (m.loaded script) with
    | ok _ m' => rfl
    | error e m' => cases e <;> rfl

end Runs

end Machine

end Lox
