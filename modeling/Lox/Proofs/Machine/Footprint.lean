import Lox.Proofs.Machine.Effect

/-!
# What instructions do not touch

Most instructions are about values and objects.  The active calls, the list of captured variables
on the stack, the globals and the limits of the machine are parts that only a few instructions
change.  `Within R f` says that the computation `f` takes a machine to one that is related to it by
`R`, whether it completes or not.  `within_execute` says it of all instructions at once: each of
them asks of the relation only that it allows for what this instruction changes.  A relation may be
that a part of the machine stays as it is (`blind_of_part`).

Calls are the exception.  A call of a closure changes the active calls only (`call_cases`), and a
call of a host function may do what a lawful host function does.
-/

namespace Lox

namespace Machine

/-! ## Parts of the machine -/

section Within

variable {α β γ : Type} {R : Machine → Machine → Prop}

/-- Whatever the outcome, the computation leaves a machine that the relation allows for. -/
def Within (R : Machine → Machine → Prop) (f : MachineM α) : Prop :=
  ∀ m, match f m with
    | .ok _ m' | .error _ m' => R m m'

lemma Within.ok {f : MachineM α} (h : Within R f) {m m' : Machine} {a : α} (hrun : f m = .ok a m') :
    R m m' := by
  have hwithin := h m
  rw [hrun] at hwithin
  exact hwithin

lemma Within.error {f : MachineM α} (h : Within R f) {m m' : Machine} {e : Halt}
    (hrun : f m = .error e m') : R m m' := by
  have hwithin := h m
  rw [hrun] at hwithin
  exact hwithin

/-- A relation that allows for changes of values, strings and printed lines. -/
structure Mild (R : Machine → Machine → Prop) : Prop where
  refl : ∀ m, R m m
  trans : ∀ {m m' m''}, R m m' → R m' m'' → R m m''
  stack : ∀ m s, R m { m with stack := s }
  printed : ∀ m ts, R m { m with printed := ts }
  intern : ∀ m t, R m { m with heap := (m.heap.intern t).2 }
  assign : ∀ m i x v, m.heap.get? i = some (.upvalue x) →
    R m { m with heap := m.heap.closeUpvalue i v }

/-- A relation that allows for changes of values, objects and printed lines, but for those only that
make no string of another object and no other object of a string. -/
structure Blind (R : Machine → Machine → Prop) : Prop extends Mild R where
  allocate : ∀ m o, (∀ t, o ≠ .string t) → R m { m with heap := (m.heap.allocate o).2 }
  setUpvalue : ∀ m closure place u, R m { m with heap := m.heap.setUpvalue closure place u }

/-- A part of the machine that is not about values, objects and printed lines stays as it is. -/
lemma blind_of_part {π : Machine → γ} (hstack : ∀ m s, π { m with stack := s } = π m)
    (hprinted : ∀ m ts, π { m with printed := ts } = π m)
    (hheap : ∀ m h, π { m with heap := h } = π m) : Blind fun m m' => π m' = π m where
  refl _ := rfl
  trans h h' := h'.trans h
  stack := hstack
  printed := hprinted
  intern m _ := hheap m _
  allocate m _ _ := hheap m _
  setUpvalue m _ _ _ := hheap m _
  assign m _ _ _ _ := hheap m _

lemma blind_frames : Blind fun m m' => m'.frames = m.frames :=
  blind_of_part (fun _ _ => rfl) (fun _ _ => rfl) fun _ _ => rfl

lemma blind_openUpvalues : Blind fun m m' => m'.openUpvalues = m.openUpvalues :=
  blind_of_part (fun _ _ => rfl) (fun _ _ => rfl) fun _ _ => rfl

lemma blind_config : Blind fun m m' => m'.config = m.config :=
  blind_of_part (fun _ _ => rfl) (fun _ _ => rfl) fun _ _ => rfl

lemma Within.get {g : Machine → MachineM β} (hg : ∀ m, Within R (g m)) :
    Within R (MonadState.get >>= g) :=
  fun m => hg m m

lemma Within.modify {f : Machine → Machine} (h : ∀ m, R m (f m)) :
    Within R (modifyThe Machine f : MachineM PUnit) := h

lemma Within.pure (hR : Mild R) (a : α) : Within R (Pure.pure a : MachineM α) :=
  fun m => hR.refl m

lemma Within.throw (hR : Mild R) (e : Halt) : Within R (MonadExcept.throw e : MachineM α) :=
  fun m => hR.refl m

lemma Within.bind {f : MachineM α} {g : α → MachineM β} (hf : Within R f) (hR : Mild R)
    (hg : ∀ a, Within R (g a)) : Within R (f >>= g) := by
  intro m
  have hfirst := hf m
  rw [bind_apply]
  cases hrun : f m with
  | error e m' =>
    rw [hrun] at hfirst
    exact hfirst
  | ok a m' =>
    rw [hrun] at hfirst
    have hrest := hg a m'
    dsimp only
    cases hrun' : g a m' with
    | ok b m'' =>
      rw [hrun'] at hrest
      exact hR.trans hfirst hrest
    | error e m'' =>
      rw [hrun'] at hrest
      exact hR.trans hfirst hrest

end Within

/-! ## Values -/

section Values

variable {R : Machine → Machine → Prop}

lemma within_push (hR : Mild R) (v : Value) : Within R (push v) := by
  intro m
  rw [push_apply]
  by_cases hfull : m.config.maxStack ≤ m.stack.size
  · rw [if_pos hfull]
    exact hR.refl m
  · rw [if_neg hfull]
    exact hR.stack m _

lemma within_pop (hR : Mild R) : Within R pop := by
  intro m
  rw [pop_apply]
  cases m.stack.back? with
  | none => exact hR.refl m
  | some v => exact hR.stack m _

lemma within_peek (hR : Mild R) (d : Nat) : Within R (peek d) := by
  intro m
  rw [peek_apply]
  by_cases hd : d < m.stack.size
  · rw [if_pos hd]
    exact hR.refl m
  · rw [if_neg hd]
    exact hR.refl m

lemma within_intern (hR : Mild R) (t : Text) : Within R (intern t) :=
  fun m => hR.intern m t

lemma within_allocateClosure (hR : Blind R) (p : Prototype) : Within R (allocateClosure p) := by
  intro m
  have hfunction := hR.allocate m (.function (.ofPrototype p)) (by simp)
  have hclosure := hR.allocate { m with heap := (m.heap.allocate (.function (.ofPrototype p))).2 }
    (.newClosure (some m.heap.fresh) p.captures.size) (by simp [Object.newClosure])
  exact hR.trans hfunction hclosure

lemma within_readString (hR : Mild R) (chunk : Chunk) (i : Nat) :
    Within R (readString chunk i) := by
  intro m
  rw [readString_apply]
  cases chunk.strings.get? i with
  | none => exact hR.refl m
  | some t => exact hR.refl m

/-! ## Instructions that compute -/

lemma within_replace_one (hR : Mild R) (v : Value) : Within R (do let _ ← pop; push v) :=
  (within_pop hR).bind hR fun _ => within_push hR v

lemma within_replace_two (hR : Mild R) (v : Value) :
    Within R (do let _ ← pop; let _ ← pop; push v) :=
  (within_pop hR).bind hR fun _ => within_replace_one hR v

lemma within_binaryNumber (hR : Mild R) (f : Float → Float → Value) :
    Within R (binaryNumber f) := by
  refine (within_peek hR 0).bind hR fun b => (within_peek hR 1).bind hR fun a => ?_
  split
  · exact within_replace_two hR _
  · exact .throw hR _

lemma within_add (hR : Mild R) : Within R add := by
  refine (within_peek hR 0).bind hR fun b => (within_peek hR 1).bind hR fun a => ?_
  split
  · exact within_replace_two hR _
  · refine .get fun m => ?_
    dsimp only
    split
    · exact (within_intern hR _).bind hR fun _ => within_replace_two hR _
    · exact .throw hR _

lemma within_negate (hR : Mild R) : Within R negate := by
  refine (within_peek hR 0).bind hR fun v => ?_
  split
  · exact within_replace_one hR _
  · exact .throw hR _

lemma within_compareEqual (hR : Mild R) (expected : Bool) : Within R (compareEqual expected) :=
  (within_pop hR).bind hR fun _ => (within_pop hR).bind hR fun _ => within_push hR _

lemma within_typeof (hR : Mild R) : Within R typeof := by
  refine (within_pop hR).bind hR fun v => .get fun m => ?_
  exact (within_intern hR _).bind hR fun _ => within_push hR _

lemma within_print (hR : Mild R) : Within R print :=
  (within_pop hR).bind hR fun _ => .modify fun m => hR.printed m _

/-! ## Instructions on variables -/

lemma within_defineGlobal (hR : Mild R) (hglobals : ∀ m g, R m { m with globals := g })
    (name : Text) : Within R (defineGlobal name) := by
  refine (within_intern hR name).bind hR fun id => (within_peek hR 0).bind hR fun v => ?_
  refine Within.bind (.modify fun m => hglobals m _) hR fun _ => ?_
  exact (within_pop hR).bind hR fun _ => .pure hR _

lemma within_setGlobal (hR : Mild R) (hglobals : ∀ m g, R m { m with globals := g })
    (name : Text) : Within R (setGlobal name) := by
  refine (within_intern hR name).bind hR fun id => .get fun m => ?_
  split
  · exact (within_peek hR 0).bind hR fun v => .modify fun m => hglobals m _
  · exact .throw hR _

lemma within_getGlobal (hR : Mild R) (name : Text) : Within R (getGlobal name) := by
  refine (within_intern hR name).bind hR fun id => .get fun m => ?_
  split
  · exact within_push hR _
  · exact .throw hR _

lemma within_getLocal (hR : Mild R) (slot : Nat) : Within R (getLocal slot) := by
  refine .get fun m => ?_
  split
  · exact within_push hR _
  · exact .throw hR _

lemma within_setLocal (hR : Mild R) (slot : Nat) : Within R (setLocal slot) := by
  refine .get fun m => ?_
  split
  · exact (within_peek hR 0).bind hR fun v => .modify fun m => hR.stack m _
  · exact .throw hR _

lemma within_upvalueAt (hR : Mild R) (frame : Frame) (place : Nat) :
    Within R (upvalueAt frame place) := by
  refine .get fun m => ?_
  split
  · exact .pure hR _
  · exact .throw hR _

lemma within_readUpvalue (hR : Mild R) (id : Option ObjectId) : Within R (readUpvalue id) := by
  refine .get fun m => ?_
  split
  · split
    · exact .pure hR _
    · exact .throw hR _
  · exact .pure hR _
  · exact .pure hR _

lemma within_writeUpvalue (hR : Mild R) (id : Option ObjectId) (v : Value) :
    Within R (writeUpvalue id v) := by
  intro m
  rcases writeUpvalue_cases id v m with ⟨f, hrun⟩ | hrun |
    ⟨i, -, ⟨slot, -, -, hrun⟩ | ⟨v', hclosed, hrun⟩⟩
  · rw [hrun]
    exact hR.refl m
  · rw [hrun]
    exact hR.refl m
  · rw [hrun]
    exact hR.stack m _
  · rw [hrun]
    exact hR.assign m i _ v hclosed

/-! ## Closures -/

lemma within_captureSlot (hR : Blind R) (hopened : ∀ m us, R m { m with openUpvalues := us })
    (slot : Nat) : Within R (captureSlot slot) := by
  intro m
  rcases captureSlot_cases slot m with ⟨u, -, -, hrun⟩ | ⟨above, rest, -, -, -, hrun⟩
  · rw [hrun]
    exact hR.refl m
  · rw [hrun]
    exact hR.trans (hR.allocate m _ (by simp)) (hopened _ _)

lemma within_capture (hR : Mild R) (frame : Frame) (c : Capture)
    (hslot : c.isLocal = true → Within R (captureSlot (frame.base + c.index))) :
    Within R (capture frame c) := by
  unfold capture
  split
  · rename_i hlocal
    exact (hslot hlocal).bind hR fun _ => .pure hR _
  · refine .get fun m => ?_
    split
    · exact .pure hR _
    · exact .throw hR _

lemma within_captureAll (hR : Mild R) (frame : Frame) (closure : ObjectId)
    (hset : ∀ m place u, R m { m with heap := m.heap.setUpvalue closure place u }) {cs : List Capture}
    (hslot : ∀ c ∈ cs, c.isLocal = true → Within R (captureSlot (frame.base + c.index)))
    (place : Nat) : Within R (captureAll frame closure place cs) := by
  induction cs generalizing place with
  | nil => exact .pure hR _
  | cons c cs ih =>
    obtain ⟨hc, hcs⟩ := List.forall_mem_cons.1 hslot
    refine (within_capture hR frame c hc).bind hR fun u => ?_
    exact Within.bind (.modify fun m => hset m place u) hR fun _ => ih hcs (place + 1)

/-- Making a closure puts a function on the heap and a closure of it, which then gets its captured
variables. -/
lemma within_makeClosure (hR : Mild R) (frame : Frame) (i : Nat)
    (hallocate : ∀ p, frame.chunk.functions[i]? = some p → Within R (allocateClosure p))
    (hset : ∀ m closure place u, R m { m with heap := m.heap.setUpvalue closure place u })
    (hslot : ∀ p, frame.chunk.functions[i]? = some p → ∀ c ∈ p.captures, c.isLocal = true →
      Within R (captureSlot (frame.base + c.index))) :
    Within R (makeClosure frame i) := by
  unfold makeClosure
  split
  · exact .throw hR _
  · rename_i p hp
    refine (hallocate p hp).bind hR fun id => ?_
    have hcaptures : ∀ c ∈ p.captures.toList, c.isLocal = true →
        Within R (captureSlot (frame.base + c.index)) :=
      fun c hc => hslot p hp c (Array.mem_toList_iff.1 hc)
    exact (within_captureAll hR frame id (fun m => hset m id) hcaptures 0).bind hR fun _ =>
      within_push hR _

lemma Blind.within_makeClosure (hR : Blind R) (hslot : ∀ slot, Within R (captureSlot slot))
    (frame : Frame) (i : Nat) : Within R (makeClosure frame i) :=
  Machine.within_makeClosure hR.toMild frame i (fun p _ => within_allocateClosure hR p) hR.setUpvalue
    fun _ _ c _ _ => hslot (frame.base + c.index)

/-! ## Jumps and returns -/

lemma within_setIp (hframes : ∀ m fs, R m { m with frames := fs }) (ip : Nat) :
    Within R (setIp ip) :=
  fun m => hframes m _

lemma within_doReturn (hR : Mild R) (hclosing : ∀ m last, R m (m.closeUpvalues last))
    (hframes : ∀ m fs, R m { m with frames := fs }) (frame : Frame) :
    Within R (doReturn frame) := by
  refine (within_pop hR).bind hR fun v => Within.bind (.modify fun m => ?_) hR fun _ => .get fun m => ?_
  · have hcut := hR.stack (m.closeUpvalues frame.base) (resized m.stack frame.base)
    have hpopped := hframes { m.closeUpvalues frame.base with stack := resized m.stack frame.base }
      m.frames.pop
    exact hR.trans (hR.trans (hclosing m frame.base) hcut) hpopped
  · split
    · exact .pure hR _
    · exact within_push hR v

end Values

/-! ## Instructions -/

section Instructions

variable {R : Machine → Machine → Prop} {natives : Natives}

/-- What an instruction does to a machine, up to values, strings and printed lines: nothing, unless it
is about the globals, the active calls or closures and the variables they capture. -/
theorem within_execute_of_mild (hR : Mild R) (frame : Frame) {i : Instruction}
    (hcall : i.opcode ≠ .call)
    (hglobals : i.opcode = .defineGlobal ∨ i.opcode = .setGlobal →
      ∀ m g, R m { m with globals := g })
    (hframes : i.opcode = .jump ∨ i.opcode = .jumpIfFalse ∨ i.opcode = .loop ∨ i.opcode = .ret →
      ∀ m fs, R m { m with frames := fs })
    (hclosure : i.opcode = .closure → Within R (makeClosure frame i.operand))
    (hclosing : i.opcode = .closeUpvalue ∨ i.opcode = .ret → ∀ m last, R m (m.closeUpvalues last)) :
    Within R (execute natives frame i) := by
  obtain ⟨op, operand⟩ := i
  cases op with
  | loadConstant =>
    unfold execute
    dsimp only
    split
    · exact within_push hR _
    · exact .throw hR _
  | loadString =>
    refine (within_readString hR _ _).bind hR fun t => ?_
    exact (within_intern hR t).bind hR fun _ => within_push hR _
  | loadNil | loadTrue | loadFalse => exact within_push hR _
  | pop => exact (within_pop hR).bind hR fun _ => .pure hR _
  | add => exact within_add hR
  | subtract | multiply | divide | less | greater | lessEqual | greaterEqual =>
    exact within_binaryNumber hR _
  | negate => exact within_negate hR
  | not => exact (within_pop hR).bind hR fun _ => within_push hR _
  | equal | notEqual => exact within_compareEqual hR _
  | typeof => exact within_typeof hR
  | defineGlobal =>
    exact (within_readString hR _ _).bind hR fun t =>
      within_defineGlobal hR (hglobals (.inl rfl)) t
  | getGlobal => exact (within_readString hR _ _).bind hR fun t => within_getGlobal hR t
  | setGlobal =>
    exact (within_readString hR _ _).bind hR fun t => within_setGlobal hR (hglobals (.inr rfl)) t
  | getLocal => exact within_getLocal hR _
  | setLocal => exact within_setLocal hR _
  | getUpvalue =>
    refine (within_upvalueAt hR frame operand).bind hR fun id => ?_
    exact (within_readUpvalue hR id).bind hR fun v => within_push hR v
  | setUpvalue =>
    refine (within_upvalueAt hR frame operand).bind hR fun id => ?_
    exact (within_peek hR 0).bind hR fun v => within_writeUpvalue hR id v
  | closeUpvalue =>
    refine .get fun m => ?_
    dsimp only
    split
    · exact .throw hR _
    · refine Within.bind (.modify fun m => hclosing (.inl rfl) m _) hR fun _ => ?_
      exact (within_pop hR).bind hR fun _ => .pure hR _
  | jump => exact within_setIp (hframes (.inl rfl)) _
  | jumpIfFalse =>
    refine (within_peek hR 0).bind hR fun v => ?_
    split
    · exact within_setIp (hframes (.inr (.inl rfl))) _
    · exact .pure hR _
  | loop =>
    unfold execute
    dsimp only
    split
    · exact .throw hR _
    · exact within_setIp (hframes (.inr (.inr (.inl rfl)))) _
  | call => exact absurd rfl hcall
  | closure => exact hclosure rfl
  | ret => exact within_doReturn hR (hclosing (.inr rfl)) (hframes (.inr (.inr (.inr rfl)))) frame
  | print => exact within_print hR

/-- What an instruction does to a machine, up to values, objects and printed lines: nothing, unless it
is about the globals, the active calls or the captured variables on the stack. -/
theorem within_execute (hR : Blind R) (frame : Frame) {i : Instruction} (hcall : i.opcode ≠ .call)
    (hglobals : i.opcode = .defineGlobal ∨ i.opcode = .setGlobal →
      ∀ m g, R m { m with globals := g })
    (hframes : i.opcode = .jump ∨ i.opcode = .jumpIfFalse ∨ i.opcode = .loop ∨ i.opcode = .ret →
      ∀ m fs, R m { m with frames := fs })
    (hopened : i.opcode = .closure → ∀ m us, R m { m with openUpvalues := us })
    (hclosing : i.opcode = .closeUpvalue ∨ i.opcode = .ret → ∀ m last, R m (m.closeUpvalues last)) :
    Within R (execute natives frame i) :=
  within_execute_of_mild hR.toMild frame hcall hglobals hframes
    (fun hclosure => hR.within_makeClosure (within_captureSlot hR (hopened hclosure)) frame i.operand)
    hclosing

/-- What is left of the captured variables on the stack was there before. -/
lemma openUpvalues_closeUpvalues_subset (m : Machine) (last : Nat) :
    (m.closeUpvalues last).openUpvalues ⊆ m.openUpvalues := by
  rw [closeUpvalues, List.span_eq_takeWhile_dropWhile]
  exact (List.dropWhile_sublist _).subset

/-- A call of a host function does no more than its host functions do. -/
lemma within_callNative (hR : Mild R) (hnatives : ∀ native ∈ natives, ∀ args, Within R (native args))
    (o : NativeObject) (given : Nat) : Within R (callNative natives o given) := by
  unfold callNative
  dsimp only
  split
  · exact .throw hR _
  · split
    · exact .throw hR _
    · rename_i native hnative
      refine .get fun m => (hnatives native (Array.mem_of_getElem? hnative) _).bind hR fun v => ?_
      exact Within.bind (.modify fun m => hR.stack m _) hR fun _ => within_push hR v

/-- The frame is that of a call of a closure which begins with `given` arguments on top of the
stack. -/
structure Begins (m : Machine) (callee : Value) (given : Nat) (frame : Frame) : Prop where
  callee : callee = .object (some frame.closure)
  /-- The closure is on the heap, and so is its function, which takes that many arguments. -/
  function : ∃ made us f, m.heap.get? frame.closure = some (.closure made us) ∧
    m.heap.function? made = some f ∧ f.arity = given ∧ frame.chunk = f.chunk.getD .empty
  ip : frame.ip = 0
  base : frame.base = m.stack.size - given - 1
  room : m.frames.size < m.config.maxCalls

/-- The value is no host function. -/
def Foreign (m : Machine) (callee : Value) : Prop :=
  ∀ o, m.heap.deref? callee ≠ some (.native o)

lemma callValue_cases (callee : Value) (given : Nat) (m : Machine) :
    (m.Foreign callee ∧ ∃ e, callValue natives callee given m = .error e m) ∨
      (m.Foreign callee ∧ ∃ frame, m.Begins callee given frame ∧
        callValue natives callee given m = .ok () { m with frames := m.frames.push frame }) ∨
      ∃ o, m.heap.deref? callee = some (.native o) ∧
        callValue natives callee given m = callNative natives o given m := by
  unfold callValue Foreign
  rw [bind_apply, get_apply]
  dsimp only
  cases hid : callee.reference? with
  | none =>
    have hnone : m.heap.deref? callee = none := by rw [Heap.deref?, hid]; rfl
    rw [hnone]
    exact .inl ⟨by simp, _, rfl⟩
  | some id =>
    cases hderef : m.heap.deref? callee with
    | none => exact .inl ⟨by simp, _, rfl⟩
    | some o =>
      cases o with
      | native o => exact .inr (.inr ⟨o, rfl, rfl⟩)
      | closure made us =>
        dsimp only
        cases hmade : m.heap.function? made with
        | none => exact .inl ⟨by simp, _, rfl⟩
        | some f =>
          dsimp only
          rw [callClosure_apply]
          split
          · exact .inl ⟨by simp, _, rfl⟩
          · rename_i harity
            split
            · exact .inl ⟨by simp, _, rfl⟩
            · rename_i hroom
              refine .inr (.inl ⟨by simp, _, ⟨?_, ?_, rfl, rfl, Nat.not_le.1 hroom⟩, rfl⟩)
              · cases callee with
                | object ref => exact congrArg Value.object hid
                | _ => cases hid
              · rw [Heap.deref?, hid] at hderef
                exact ⟨made, us, f, hderef, hmade, (not_not.1 harity).symm, rfl⟩
      | _ => exact .inl ⟨by simp, _, rfl⟩

/-- The value that a call with this many arguments calls. -/
def callee (m : Machine) (given : Nat) : Value :=
  m.stack.getD (m.stack.size - 1 - given) .nil

lemma call_apply (frame : Frame) (given : Nat) (m : Machine) :
    execute natives frame ⟨.call, given⟩ m =
      if m.stack.size < given + 1 then .error (.fault .tooFewValuesForCall) m
      else callValue natives (m.callee given) given m := by
  unfold execute
  dsimp only
  rw [bind_apply, get_apply]
  dsimp only
  by_cases hfew : m.stack.size < given + 1
  · rw [if_pos hfew, if_pos hfew]
    rfl
  · rw [if_neg hfew, if_neg hfew, bind_apply, peek_apply, if_pos (by omega)]
    rfl

/-- A call either fails at once, or adds an active call for a closure, or is one of a host
function. -/
lemma call_cases (frame : Frame) (given : Nat) (m : Machine) :
    (∃ e, execute natives frame ⟨.call, given⟩ m = .error e m) ∨
      (∃ frame', m.Begins (m.callee given) given frame' ∧
        execute natives frame ⟨.call, given⟩ m = .ok () { m with frames := m.frames.push frame' }) ∨
      ∃ o, execute natives frame ⟨.call, given⟩ m = callNative natives o given m := by
  rw [call_apply]
  split
  · exact .inl ⟨_, rfl⟩
  · rcases @callValue_cases natives (m.callee given) given m with
      ⟨-, herror⟩ | ⟨-, frame', hbegins, hok⟩ | ⟨o, -, hnative⟩
    · exact .inl herror
    · exact .inr (.inl ⟨frame', hbegins, hok⟩)
    · exact .inr (.inr ⟨o, hnative⟩)

/-- Where the relation allows for all that instructions do themselves, it is up to the host functions. -/
lemma within_execute_of_natives (hR : Blind R) (hglobals : ∀ m g, R m { m with globals := g })
    (hframes : ∀ m fs, R m { m with frames := fs }) (hopened : ∀ m us, R m { m with openUpvalues := us })
    (hclosing : ∀ m last, R m (m.closeUpvalues last))
    (hnatives : ∀ native ∈ natives, ∀ args, Within R (native args)) (frame : Frame) (i : Instruction) :
    Within R (execute natives frame i) := by
  by_cases hcall : i.opcode = .call
  · obtain ⟨op, operand⟩ := i
    cases hcall
    intro m
    rcases @call_cases natives frame operand m with ⟨e, herror⟩ | ⟨callee, -, hok⟩ | ⟨o, hnative⟩
    · rw [herror]
      exact hR.refl m
    · rw [hok]
      exact hframes m _
    · rw [hnative]
      exact within_callNative hR.toMild hnatives o operand m
  · exact within_execute hR frame hcall (fun _ => hglobals) (fun _ => hframes) (fun _ => hopened)
      fun _ => hclosing

end Instructions

/-! ## Host functions -/

section Host

variable {m m' : Machine}

lemma HostStep.fixed (hstep : HostStep m m') :
    m'.frames = m.frames ∧ m'.openUpvalues = m.openUpvalues ∧ m'.config = m.config := by
  cases hstep <;> exact ⟨rfl, rfl, rfl⟩

lemma fixed_of_host (hhost : Relation.ReflTransGen HostStep m m') :
    m'.frames = m.frames ∧ m'.openUpvalues = m.openUpvalues ∧ m'.config = m.config := by
  induction hhost with
  | refl => exact ⟨rfl, rfl, rfl⟩
  | tail _ hstep ih =>
    obtain ⟨hframes, hopened, hconfig⟩ := ih
    obtain ⟨hframes', hopened', hconfig'⟩ := hstep.fixed
    exact ⟨hframes'.trans hframes, hopened'.trans hopened, hconfig'.trans hconfig⟩

end Host

end Machine

/-- A lawful host function neither begins nor ends a call, and captures no variable. -/
lemma Native.Lawful.within {native : Native} (h : native.Lawful)
    {R : Machine → Machine → Prop}
    (hR : ∀ m m', Relation.ReflTransGen Machine.HostStep m m' → R m m') (args : Array Value) :
    Machine.Within R (native args) := by
  intro m
  have hhost := h args m
  cases hrun : native args m with
  | ok v m' =>
    rw [hrun] at hhost
    exact hR m m' hhost
  | error e m' =>
    rw [hrun] at hhost
    cases e with
    | runtime cause => exact hR m m' hhost
    | fault f => exact hhost.elim
    | suspended => exact hhost.elim

namespace Machine

/-! ## Limits -/

/-- No instruction changes the limits of the machine. -/
lemma within_config {natives : Natives} (hnatives : ∀ native ∈ natives, native.Lawful)
    (frame : Frame) (i : Instruction) :
    Within (fun m m' => m'.config = m.config) (execute natives frame i) := by
  refine within_execute_of_natives blind_config (fun _ _ => rfl) (fun _ _ => rfl) (fun _ _ => rfl)
    (fun _ _ => rfl) (fun native hmem => ?_) frame i
  exact (hnatives native hmem).within fun _ _ hhost => (fixed_of_host hhost).2.2

/-! ## Captured variables on the stack -/

/-- A slot that is captured by an instruction is one that the new closure's function captures. -/
lemma opened_execute {natives : Natives} (hnatives : ∀ native ∈ natives, native.Lawful)
    (frame : Frame) {i : Instruction} {m m' : Machine} (hrun : execute natives frame i m = .ok () m')
    {u : OpenUpvalue} (hu : u ∈ m'.openUpvalues) :
    u ∈ m.openUpvalues ∨ i.opcode = .closure ∧ ∃ p, frame.chunk.functions[i.operand]? = some p ∧
      ∃ c ∈ p.captures, c.isLocal = true ∧ u.slot = frame.base + c.index := by
  by_cases hcall : i.opcode = .call
  · obtain ⟨op, operand⟩ := i
    cases hcall
    refine .inl ?_
    rcases @call_cases natives frame operand m with ⟨e, herror⟩ | ⟨callee, -, hok⟩ | ⟨o, hnative⟩
    · rw [herror] at hrun
      cases hrun
    · rw [hok] at hrun
      cases hrun
      exact hu
    · rw [hnative] at hrun
      have hsame : m'.openUpvalues = m.openUpvalues :=
        (within_callNative blind_openUpvalues.toMild (fun native hmem =>
          (hnatives native hmem).within fun _ _ hhost => (fixed_of_host hhost).2.1) o operand).ok hrun
      exact hsame ▸ hu
  revert u
  have hR : Mild fun m m' : Machine => ∀ u ∈ m'.openUpvalues, u ∈ m.openUpvalues ∨
      i.opcode = .closure ∧ ∃ p, frame.chunk.functions[i.operand]? = some p ∧
        ∃ c ∈ p.captures, c.isLocal = true ∧ u.slot = frame.base + c.index :=
    { refl := fun _ _ hu => .inl hu
      trans := fun h h' u hu => (h' u hu).elim (h u) .inr
      stack := fun _ _ _ hu => .inl hu
      printed := fun _ _ _ hu => .inl hu
      intern := fun _ _ _ hu => .inl hu
      assign := fun _ _ _ _ _ _ hu => .inl hu }
  refine (within_execute_of_mild hR frame hcall (fun _ _ _ _ hu => .inl hu)
    (fun _ _ _ _ hu => .inl hu) (fun hclosure => ?_)
    fun _ m last _ hu => .inl (openUpvalues_closeUpvalues_subset m last hu)).ok hrun
  refine within_makeClosure hR frame i.operand (fun _ _ _ _ hu => .inl hu)
    (fun _ _ _ _ _ hu => .inl hu) fun p hp c hc hlocal m => ?_
  rcases captureSlot_cases (frame.base + c.index) m with ⟨u, -, -, hslot⟩ |
    ⟨above, rest, hsplit, -, -, hslot⟩
  · rw [hslot]
    exact fun _ hu => .inl hu
  · rw [hslot]
    intro u hu
    rw [hsplit, List.mem_append]
    rcases List.mem_append.1 hu with hu | hu
    · exact .inl (.inl hu)
    · rcases List.mem_cons.1 hu with rfl | hu
      · exact .inr ⟨hclosure, p, hp, c, hc, hlocal, rfl⟩
      · exact .inl (.inr hu)

end Machine

end Lox
