import Lox.Proofs.Bytecode.Layout
import Lox.Proofs.Machine.Safety

/-!
# What instructions leave alone

Most instructions work on top of the stack only.  The values below the ones they take stay where
they are, and captured variables that have left the stack keep their values
(`execute_leaves`).  The exceptions are the instructions that assign to a variable or move captured
variables off the stack, for which the state they leave is written out (`setLocal_apply`,
`writeUpvalue_cases`, `closeUpvalue_apply`, `doReturn_cases`).

It follows that `Instruction.takes` and `Instruction.gives` are the effect of an instruction on the
height of the stack (`execute_height`).
-/

namespace Lox

/-! ## Heaps -/

namespace Heap

/-- The heap went on to another, on which the old captured variables are as they were, if they are
there at all. -/
structure Spares (h h' : Heap) : Prop where
  fresh : h.fresh ≤ h'.fresh
  upvalues : ∀ {id : ObjectId} {u : Upvalue}, id < h.fresh → h'.get? id = some (.upvalue u) →
    h.get? id = some (.upvalue u)

namespace Spares

lemma refl (h : Heap) : h.Spares h := ⟨Nat.le_refl _, fun _ hu => hu⟩

lemma trans {h h' h'' : Heap} (h₁ : h.Spares h') (h₂ : h'.Spares h'') : h.Spares h'' :=
  ⟨Nat.le_trans h₁.fresh h₂.fresh, fun hid hu =>
    h₁.upvalues hid (h₂.upvalues (Nat.lt_of_lt_of_le hid h₁.fresh) hu)⟩

end Spares

lemma spares_allocate (h : Heap) (o : Object) : h.Spares (h.allocate o).2 := by
  refine ⟨Nat.le_succ _, fun {id u} hid hu => ?_⟩
  rwa [get?_allocate, if_neg (Nat.ne_of_lt hid)] at hu

lemma spares_intern (h : Heap) (t : Text) : h.Spares (h.intern t).2 := by
  unfold intern
  split
  · exact .refl h
  · exact ⟨Nat.le_succ _, (spares_allocate h (.string t)).upvalues⟩

lemma spares_setUpvalue (h : Heap) (id : ObjectId) (place : Nat) (u : Option ObjectId) :
    h.Spares (h.setUpvalue id place u) := by
  refine ⟨Nat.le_of_eq (fresh_setUpvalue h id place u).symm, fun {id' u'} _ hu' => ?_⟩
  rw [get?_setUpvalue] at hu'
  split at hu'
  · rename_i heq
    subst heq
    obtain ⟨o, ho, hsame⟩ := Option.map_eq_some_iff.1 hu'
    cases o with
    | upvalue u => exact ho.trans (congrArg some hsame)
    | _ => simp at hsame
  · exact hu'

lemma Valid.spares_collect {h : Heap} (hv : h.Valid) (roots : List ObjectId) :
    h.Spares (h.collect roots) :=
  ⟨Nat.le_of_eq (hv.fresh_collect roots).symm, fun _ hu => (hv.get?_collect_eq_some.1 hu).2⟩

end Heap

namespace Machine

/-! ## Computations on top of the stack -/

/-- The machine went on to another, and left the slots below `low` and the old captured variables
on the heap as they were. -/
structure Spares (low : Nat) (m m' : Machine) : Prop where
  heap : m.heap.Spares m'.heap
  stack : ∀ slot < low, m'.stack[slot]? = m.stack[slot]?

namespace Spares

variable {low : Nat} {m m' m'' : Machine}

lemma refl (low : Nat) (m : Machine) : m.Spares low m := ⟨.refl _, fun _ _ => rfl⟩

lemma trans (h₁ : m.Spares low m') (h₂ : m'.Spares low m'') : m.Spares low m'' :=
  ⟨h₁.heap.trans h₂.heap, fun slot hslot => (h₂.stack slot hslot).trans (h₁.stack slot hslot)⟩

lemma of_heap (hheap : m.heap.Spares m'.heap) (hstack : m'.stack = m.stack) : m.Spares low m' :=
  ⟨hheap, fun _ _ => by rw [hstack]⟩

lemma of_stack (hheap : m'.heap = m.heap) (hstack : ∀ slot < low, m'.stack[slot]? = m.stack[slot]?) :
    m.Spares low m' :=
  ⟨hheap ▸ .refl _, hstack⟩

/-- Cutting the stack down to a size that is not below `low`. -/
lemma resized {size : Nat} (hlow : low ≤ size) (hsize : size ≤ m.stack.size) :
    m.Spares low { m with stack := Machine.resized m.stack size } := by
  refine .of_stack rfl fun slot hslot => ?_
  have hlt : slot < m.stack.size := by omega
  rw [getElem?_resized, if_pos (by omega), Array.getD_eq_getD_getElem?, Array.getElem?_eq_getElem hlt]
  rfl

end Spares

section Leaves

variable {α β : Type} {low : Nat} {m : Machine}

/-- From `m` the computation does not touch what is below `low`, and completes with a machine that
satisfies `Q`, if it completes.  It is not suspended. -/
def Leaves (low : Nat) (f : MachineM α) (m : Machine) (Q : α → Machine → Prop) : Prop :=
  match f m with
  | .ok a m' => m.Spares low m' ∧ Q a m'
  | .error e m' => e ≠ .suspended ∧ m.Spares low m'

lemma Leaves.bind {f : MachineM α} {g : α → MachineM β} {Q : α → Machine → Prop}
    {R : β → Machine → Prop} (h : Leaves low f m Q) (hg : ∀ a m', Q a m' → Leaves low (g a) m' R) :
    Leaves low (f >>= g) m R := by
  unfold Leaves at h ⊢
  rw [bind_apply]
  cases hf : f m with
  | error e m' =>
    rw [hf] at h
    exact h
  | ok a m' =>
    rw [hf] at h
    have hrest := hg a m' h.2
    unfold Leaves at hrest
    dsimp only
    cases hga : g a m' with
    | ok b m'' =>
      rw [hga] at hrest
      exact ⟨h.1.trans hrest.1, hrest.2⟩
    | error e m'' =>
      rw [hga] at hrest
      exact ⟨hrest.1, h.1.trans hrest.2⟩

lemma Leaves.of_ok {f : MachineM α} {Q : α → Machine → Prop} {a : α} {m' : Machine}
    (hf : f m = .ok a m') (h : m.Spares low m') (hQ : Q a m') : Leaves low f m Q := by
  unfold Leaves
  rw [hf]
  exact ⟨h, hQ⟩

/-- A step that completes, and what comes after it. -/
lemma Leaves.step {f : MachineM α} {g : α → MachineM β} {R : β → Machine → Prop} {a : α}
    {m' : Machine} (hf : f m = .ok a m') (h : m.Spares low m') (hg : Leaves low (g a) m' R) :
    Leaves low (f >>= g) m R := by
  have hstep : Leaves low f m fun b m'' => b = a ∧ m'' = m' := .of_ok hf h ⟨rfl, rfl⟩
  exact hstep.bind fun _ _ ⟨ha, hm⟩ => ha ▸ hm ▸ hg

lemma Leaves.get {g : Machine → MachineM β} {R : β → Machine → Prop} (hg : Leaves low (g m) m R) :
    Leaves low (MonadState.get >>= g) m R :=
  .step (get_apply m) (.refl low m) hg

lemma Leaves.pure {Q : α → Machine → Prop} {a : α} (h : Q a m) :
    Leaves low (Pure.pure a : MachineM α) m Q :=
  .of_ok (pure_apply a m) (.refl low m) h

lemma Leaves.throw {Q : α → Machine → Prop} {e : Halt} (he : e ≠ .suspended) :
    Leaves low (MonadExcept.throw e : MachineM α) m Q :=
  ⟨he, .refl low m⟩

lemma Leaves.mono {f : MachineM α} {Q R : α → Machine → Prop} (h : Leaves low f m Q)
    (hQR : ∀ a m', Q a m' → R a m') : Leaves low f m R := by
  unfold Leaves at h ⊢
  cases hf : f m with
  | ok a m' =>
    rw [hf] at h
    exact ⟨h.1, hQR a m' h.2⟩
  | error e m' =>
    rw [hf] at h
    exact h

end Leaves

/-! ## Values on the stack -/

section Stack

variable {low k : Nat} {m : Machine}

lemma leaves_push (hsize : m.stack.size = low + k) (v : Value) :
    Leaves low (push v) m fun _ m' => m'.stack.size = low + (k + 1) := by
  unfold Leaves
  rw [push_apply]
  by_cases hfull : m.config.maxStack ≤ m.stack.size
  · rw [if_pos hfull]
    exact ⟨by simp, .refl low m⟩
  · rw [if_neg hfull]
    refine ⟨.of_stack rfl fun slot hslot => ?_, by simp [hsize]; omega⟩
    show (m.stack.push v)[slot]? = _
    rw [Array.getElem?_push, if_neg (by omega)]

lemma leaves_pop (hsize : m.stack.size = low + (k + 1)) :
    Leaves low pop m fun _ m' => m'.stack.size = low + k := by
  unfold Leaves
  rw [pop_apply]
  cases m.stack.back? with
  | none => exact ⟨by simp, .refl low m⟩
  | some v =>
    refine ⟨.of_stack rfl fun slot hslot => ?_, by simp [hsize]⟩
    show m.stack.pop[slot]? = _
    rw [Array.getElem?_pop, if_pos (by omega)]

lemma leaves_peek (d : Nat) : Leaves low (peek d) m fun _ m' => m' = m := by
  unfold Leaves
  rw [peek_apply]
  by_cases hd : d < m.stack.size
  · rw [if_pos hd]
    exact ⟨.refl low m, rfl⟩
  · rw [if_neg hd]
    exact ⟨by simp, .refl low m⟩

lemma leaves_intern (hsize : m.stack.size = low + k) (t : Text) :
    Leaves low (intern t) m fun _ m' => m'.stack.size = low + k :=
  .of_ok (intern_apply t m) (.of_heap (m.heap.spares_intern t) rfl) hsize

lemma leaves_readString (chunk : Chunk) (i : Nat) :
    Leaves low (readString chunk i) m fun _ m' => m' = m := by
  unfold Leaves
  rw [readString_apply]
  cases chunk.strings.get? i with
  | none => exact ⟨by simp, .refl low m⟩
  | some t => exact ⟨.refl low m, rfl⟩

lemma leaves_setIp (hsize : m.stack.size = low + k) (ip : Nat) :
    Leaves low (setIp ip) m fun _ m' => m'.stack.size = low + k :=
  .of_ok (setIp_apply ip m) (.of_heap (.refl _) rfl) hsize

/-! ## Instructions that compute -/

lemma leaves_replace_one (hsize : m.stack.size = low + 1) (v : Value) :
    Leaves low (do let _ ← pop; push v) m fun _ m' => m'.stack.size = low + 1 :=
  (leaves_pop (k := 0) hsize).bind fun _ _ h => leaves_push h v

lemma leaves_replace_two (hsize : m.stack.size = low + 2) (v : Value) :
    Leaves low (do let _ ← pop; let _ ← pop; push v) m fun _ m' => m'.stack.size = low + 1 :=
  (leaves_pop (k := 1) hsize).bind fun _ _ h => leaves_replace_one h v

lemma leaves_binaryNumber (hsize : m.stack.size = low + 2) (f : Float → Float → Value) :
    Leaves low (binaryNumber f) m fun _ m' => m'.stack.size = low + 1 := by
  unfold binaryNumber
  refine (leaves_peek 0).bind fun b m₁ h₁ => ?_
  refine (leaves_peek 1).bind fun a m₂ h₂ => ?_
  subst h₁ h₂
  split
  · exact leaves_replace_two hsize _
  · exact .throw (by simp)

lemma leaves_add (hsize : m.stack.size = low + 2) :
    Leaves low add m fun _ m' => m'.stack.size = low + 1 := by
  unfold add
  refine (leaves_peek 0).bind fun b m₁ h₁ => ?_
  refine (leaves_peek 1).bind fun a m₂ h₂ => ?_
  subst h₁ h₂
  split
  · exact leaves_replace_two hsize _
  · refine .get ?_
    dsimp only
    split
    · exact (leaves_intern hsize _).bind fun _ _ h => leaves_replace_two h _
    · exact .throw (by simp)

lemma leaves_negate (hsize : m.stack.size = low + 1) :
    Leaves low negate m fun _ m' => m'.stack.size = low + 1 := by
  unfold negate
  refine (leaves_peek 0).bind fun a m₁ h₁ => ?_
  subst h₁
  split
  · exact leaves_replace_one hsize _
  · exact .throw (by simp)

lemma leaves_compareEqual (hsize : m.stack.size = low + 2) (expected : Bool) :
    Leaves low (compareEqual expected) m fun _ m' => m'.stack.size = low + 1 := by
  unfold compareEqual
  refine (leaves_pop (k := 1) hsize).bind fun b _ h => ?_
  exact (leaves_pop (k := 0) h).bind fun a _ h' => leaves_push h' _

lemma leaves_typeof (hsize : m.stack.size = low + 1) :
    Leaves low typeof m fun _ m' => m'.stack.size = low + 1 := by
  unfold typeof
  refine (leaves_pop (k := 0) hsize).bind fun v _ h => .get ?_
  exact (leaves_intern h _).bind fun _ _ h' => leaves_push h' _

/-! ## Instructions on variables -/

lemma leaves_defineGlobal (hsize : m.stack.size = low + 1) (name : Text) :
    Leaves low (defineGlobal name) m fun _ m' => m'.stack.size = low := by
  unfold defineGlobal
  refine (leaves_intern hsize name).bind fun id m₁ h₁ => ?_
  refine (leaves_peek 0).bind fun v m₂ h₂ => ?_
  subst h₂
  refine .step (modify_apply _ _) (.of_heap (.refl _) rfl) ?_
  refine Leaves.bind (leaves_pop (k := 0) ?_) fun _ _ h₂ => .pure h₂
  exact h₁

lemma leaves_getGlobal (hsize : m.stack.size = low) (name : Text) :
    Leaves low (getGlobal name) m fun _ m' => m'.stack.size = low + 1 := by
  unfold getGlobal
  refine (leaves_intern (k := 0) hsize name).bind fun id m₁ h₁ => .get ?_
  split
  · exact leaves_push h₁ _
  · exact .throw (by simp)

lemma leaves_setGlobal (hsize : m.stack.size = low) (name : Text) :
    Leaves low (setGlobal name) m fun _ m' => m'.stack.size = low := by
  unfold setGlobal
  refine (leaves_intern (k := 0) hsize name).bind fun id m₁ h₁ => .get ?_
  split
  · refine (leaves_peek 0).bind fun v m₂ h₂ => ?_
    subst h₂
    exact .of_ok (modify_apply _ _) (.of_heap (.refl _) rfl) h₁
  · exact .throw (by simp)

lemma leaves_getLocal (hsize : m.stack.size = low) (slot : Nat) :
    Leaves low (getLocal slot) m fun _ m' => m'.stack.size = low + 1 := by
  unfold getLocal
  refine .get ?_
  split
  · exact leaves_push (k := 0) hsize _
  · exact .throw (by simp)

lemma leaves_upvalueAt (frame : Frame) (place : Nat) :
    Leaves low (upvalueAt frame place) m fun _ m' => m' = m := by
  unfold upvalueAt
  refine .get ?_
  split
  · exact .pure rfl
  · exact .throw (by simp)

lemma leaves_readUpvalue (id : Option ObjectId) :
    Leaves low (readUpvalue id) m fun _ m' => m' = m := by
  unfold readUpvalue
  refine .get ?_
  split
  · split
    · exact .pure rfl
    · exact .throw (by simp)
  · exact .pure rfl
  · exact .pure rfl

lemma leaves_print (hsize : m.stack.size = low + 1) :
    Leaves low print m fun _ m' => m'.stack.size = low := by
  unfold print
  refine (leaves_pop (k := 0) hsize).bind fun v m₁ h₁ => ?_
  exact .of_ok (modify_apply _ _) (.of_heap (.refl _) rfl) h₁

/-! ## Closures -/

lemma leaves_capture (frame : Frame) (c : Capture) :
    Leaves low (capture frame c) m fun _ m' => m'.stack = m.stack := by
  unfold capture
  split
  · rcases captureSlot_cases (frame.base + c.index) m with ⟨u, -, -, hrun⟩ | ⟨above, rest, -, -, -, hrun⟩
    · exact .step hrun (.refl low m) (.pure rfl)
    · exact .step hrun (.of_heap (m.heap.spares_allocate _) rfl) (.pure rfl)
  · refine .get ?_
    split
    · exact .pure rfl
    · exact .throw (by simp)

lemma leaves_captureAll (frame : Frame) (closure : ObjectId) (place : Nat) (cs : List Capture) :
    Leaves low (captureAll frame closure place cs) m fun _ m' => m'.stack = m.stack := by
  induction cs generalizing m place with
  | nil => exact .pure rfl
  | cons c cs ih =>
    refine (leaves_capture frame c).bind fun u m₁ h₁ => ?_
    refine .step (modify_apply _ _) (.of_heap (m₁.heap.spares_setUpvalue closure place u) rfl) ?_
    exact (ih (place + 1)).mono fun _ _ h => h.trans h₁

lemma leaves_makeClosure (hsize : m.stack.size = low) (frame : Frame) (i : Nat) :
    Leaves low (makeClosure frame i) m fun _ m' => m'.stack.size = low + 1 := by
  unfold makeClosure
  split
  · exact .throw (by simp)
  · rename_i p _
    have hheap := (m.heap.spares_allocate (.function (.ofPrototype p))).trans
      (Heap.spares_allocate _ (.newClosure (some m.heap.fresh) p.captures.size))
    refine .step (allocateClosure_apply p m) (.of_heap hheap rfl) ?_
    refine (leaves_captureAll frame _ 0 p.captures.toList).bind fun _ m₁ h₁ => ?_
    exact leaves_push (k := 0) (by rw [h₁]; exact hsize) _

end Stack

end Machine

/-! ## Host functions -/

/-- A host function that may overwrite its arguments, but no other value on the stack. -/
def Native.Contained (native : Native) : Prop :=
  ∀ args m, match native args m with
    | .ok _ m' | .error _ m' => ∀ slot < m.stack.size - args.size, m'.stack[slot]? = m.stack[slot]?

namespace Machine

lemma HostStep.sound {m m' : Machine} (hstep : HostStep m m') (h : m.Sound) :
    m'.Sound ∧ m.heap.Spares m'.heap ∧ m'.stack.size = m.stack.size := by
  cases hstep with
  | intern t => exact ⟨h.intern t, m.heap.spares_intern t, rfl⟩
  | native o => exact ⟨h.allocate (by simp) trivial, m.heap.spares_allocate _, rfl⟩
  | setGlobal name v => exact ⟨h.of_eq rfl rfl, .refl _, rfl⟩
  | setSlot slot v => exact ⟨h.of_eq rfl rfl, .refl _, by simp⟩
  | print t => exact ⟨h.of_eq rfl rfl, .refl _, rfl⟩
  | setClock x => exact ⟨h.of_eq rfl rfl, .refl _, rfl⟩
  | collect => exact ⟨h.collect, h.heap.spares_collect _, rfl⟩

lemma sound_of_host {m m' : Machine} (hhost : Relation.ReflTransGen HostStep m m') (h : m.Sound) :
    m'.Sound ∧ m.heap.Spares m'.heap ∧ m'.stack.size = m.stack.size := by
  induction hhost with
  | refl => exact ⟨h, .refl _, rfl⟩
  | tail _ hstep ih =>
    obtain ⟨hsound, hspares, hsize⟩ := ih
    obtain ⟨hsound', hspares', hsize'⟩ := hstep.sound hsound
    exact ⟨hsound', hspares.trans hspares', hsize'.trans hsize⟩

section Calls

variable {low : Nat} {m : Machine} {natives : Natives}

lemma leaves_native (h : m.Sound) {native : Native} (hlawful : native.Lawful)
    (hcontained : native.Contained) {args : Array Value} (hlow : low ≤ m.stack.size - args.size) :
    Leaves low (native args) m fun _ m' => m'.stack.size = m.stack.size := by
  have hhost := hlawful args m
  have hslots := hcontained args m
  unfold Leaves
  cases hrun : native args m with
  | ok v m' =>
    rw [hrun] at hhost hslots
    obtain ⟨-, hspares, hsize⟩ := sound_of_host hhost h
    exact ⟨⟨hspares, fun slot hslot => hslots slot (Nat.lt_of_lt_of_le hslot hlow)⟩, hsize⟩
  | error e m' =>
    rw [hrun] at hhost hslots
    cases e with
    | runtime cause =>
      obtain ⟨-, hspares, -⟩ := sound_of_host hhost h
      exact ⟨by simp, hspares, fun slot hslot => hslots slot (Nat.lt_of_lt_of_le hslot hlow)⟩
    | fault f => exact hhost.elim
    | suspended => exact hhost.elim

lemma leaves_callNative (hnatives : ∀ native ∈ natives, native.Lawful ∧ native.Contained)
    (h : m.Sound) {given : Nat} (hsize : m.stack.size = low + (given + 1)) (o : NativeObject) :
    Leaves low (callNative natives o given) m fun _ m' => m'.stack.size = low + 1 := by
  unfold callNative
  dsimp only
  split
  · exact .throw (by simp)
  · split
    · exact .throw (by simp)
    · rename_i native hnative
      obtain ⟨hlawful, hcontained⟩ := hnatives native (Array.mem_of_getElem? hnative)
      refine .get ?_
      have hargs : (m.stack.extract (m.stack.size - given) m.stack.size).size = given := by
        rw [Array.size_extract]
        omega
      refine (leaves_native h hlawful hcontained (by omega)).bind fun v m₁ h₁ => ?_
      have hbase : m.stack.size - given - 1 = low := by omega
      refine .step (modify_apply _ m₁) (.resized (by omega) (by omega)) ?_
      refine leaves_push (k := 0) ?_ v
      show (resized m₁.stack (m.stack.size - given - 1)).size = low
      rw [size_resized, hbase]

lemma leaves_callClosure (id : ObjectId) (f : FunctionObject) (given : Nat) :
    Leaves low (callClosure id f given) m fun _ _ => True := by
  unfold callClosure
  dsimp only
  split
  · exact .throw (by simp)
  · refine .get ?_
    split
    · exact .throw (by simp)
    · exact .of_ok (set_apply _ _) (.of_heap (.refl _) rfl) trivial

lemma leaves_callValue (hnatives : ∀ native ∈ natives, native.Lawful ∧ native.Contained)
    (h : m.Sound) {given : Nat} (hsize : m.stack.size = low + (given + 1)) (callee : Value) :
    Leaves low (callValue natives callee given) m fun _ _ => True := by
  unfold callValue
  refine .get ?_
  split
  · split
    · exact leaves_callClosure _ _ _
    · exact .throw (by simp)
  · exact (leaves_callNative hnatives h hsize _).mono fun _ _ _ => trivial
  · exact .throw (by simp)

end Calls

end Machine

/-! ## Instructions -/

/-- How many values an instruction takes off the stack, those apart that it only looks at. -/
def Instruction.drops (i : Instruction) : Nat :=
  match i.opcode with
  | .setGlobal | .setLocal | .setUpvalue | .jumpIfFalse => 0
  | _ => i.takes

lemma Instruction.drops_le_takes (i : Instruction) : i.drops ≤ i.takes := by
  unfold drops
  split
  all_goals omega

/-- Not an assignment to a local or captured variable, and not the end of its scope. -/
def Instruction.Neutral (i : Instruction) : Prop :=
  i.opcode ≠ .setLocal ∧ i.opcode ≠ .setUpvalue ∧ i.opcode ≠ .closeUpvalue ∧ i.opcode ≠ .ret

namespace Machine

variable {low : Nat} {m : Machine} {natives : Natives} {i : Instruction}

/-- The values below those that an instruction drops stay as they are, unless it is about a
variable's scope. -/
lemma execute_leaves (hnatives : ∀ native ∈ natives, native.Lawful ∧ native.Contained)
    (h : m.Sound) (hneutral : i.Neutral) (hsize : m.stack.size = low + i.drops) (frame : Frame) :
    Leaves low (execute natives frame i) m fun _ m' =>
      i.opcode ≠ .call → m'.stack.size + i.takes = m.stack.size + i.gives := by
  obtain ⟨op, operand⟩ := i
  obtain ⟨hlocal, hupvalue, hclose, hret⟩ := hneutral
  -- The height that an instruction leaves is told from `low`.
  have hheight : ∀ {f : MachineM Unit} {k : Nat},
      k + (Instruction.mk op operand).takes =
        (Instruction.mk op operand).drops + (Instruction.mk op operand).gives →
      Leaves low f m (fun _ m' => m'.stack.size = low + k) →
      Leaves low f m fun _ m' => op ≠ .call →
        m'.stack.size + (Instruction.mk op operand).takes =
          m.stack.size + (Instruction.mk op operand).gives := by
    intro f k hk hf
    refine hf.mono fun _ m' hm' _ => ?_
    omega
  cases op with
  | setLocal => exact absurd rfl hlocal
  | setUpvalue => exact absurd rfl hupvalue
  | closeUpvalue => exact absurd rfl hclose
  | ret => exact absurd rfl hret
  | loadConstant =>
    refine hheight (k := 1) rfl ?_
    unfold execute
    dsimp only
    split
    · exact leaves_push (k := 0) hsize _
    · exact .throw (by simp)
  | loadString =>
    refine hheight (k := 1) rfl ?_
    refine (leaves_readString frame.chunk operand).bind fun t m₁ h₁ => ?_
    subst h₁
    exact (leaves_intern (k := 0) hsize t).bind fun _ _ h₁ => leaves_push h₁ _
  | loadNil | loadTrue | loadFalse => exact hheight (k := 1) rfl (leaves_push (k := 0) hsize _)
  | pop =>
    refine hheight (k := 0) rfl ?_
    exact (leaves_pop (k := 0) hsize).bind fun _ _ h₁ => .pure h₁
  | add => exact hheight (k := 1) rfl (leaves_add hsize)
  | subtract | multiply | divide | less | greater | lessEqual | greaterEqual =>
    exact hheight (k := 1) rfl (leaves_binaryNumber hsize _)
  | negate => exact hheight (k := 1) rfl (leaves_negate hsize)
  | not =>
    refine hheight (k := 1) rfl ?_
    exact (leaves_pop (k := 0) hsize).bind fun _ _ h₁ => leaves_push h₁ _
  | equal | notEqual => exact hheight (k := 1) rfl (leaves_compareEqual hsize _)
  | typeof => exact hheight (k := 1) rfl (leaves_typeof hsize)
  | defineGlobal =>
    refine hheight (k := 0) rfl ?_
    refine (leaves_readString frame.chunk operand).bind fun t m₁ h₁ => ?_
    subst h₁
    exact leaves_defineGlobal hsize t
  | getGlobal =>
    refine hheight (k := 1) rfl ?_
    refine (leaves_readString frame.chunk operand).bind fun t m₁ h₁ => ?_
    subst h₁
    exact leaves_getGlobal hsize t
  | setGlobal =>
    refine hheight (k := 0) rfl ?_
    refine (leaves_readString frame.chunk operand).bind fun t m₁ h₁ => ?_
    subst h₁
    exact leaves_setGlobal hsize t
  | getLocal => exact hheight (k := 1) rfl (leaves_getLocal hsize _)
  | getUpvalue =>
    refine hheight (k := 1) rfl ?_
    refine (leaves_upvalueAt frame operand).bind fun id m₁ h₁ => ?_
    refine (leaves_readUpvalue id).bind fun v m₂ h₂ => ?_
    subst h₁ h₂
    exact leaves_push (k := 0) hsize v
  | jump => exact hheight (k := 0) rfl (leaves_setIp (k := 0) hsize _)
  | jumpIfFalse =>
    refine hheight (k := 0) rfl ?_
    refine (leaves_peek 0).bind fun v m₁ h₁ => ?_
    subst h₁
    split
    · exact leaves_setIp (k := 0) hsize _
    · exact .pure hsize
  | loop =>
    refine hheight (k := 0) rfl ?_
    unfold execute
    dsimp only
    split
    · exact .throw (by simp)
    · exact leaves_setIp (k := 0) hsize _
  | call =>
    refine .get ?_
    dsimp only
    split
    · exact .throw (by simp)
    · refine (leaves_peek operand).bind fun v m₁ h₁ => ?_
      subst h₁
      exact (leaves_callValue hnatives h hsize v).mono fun _ _ _ hcall => absurd rfl hcall
  | closure => exact hheight (k := 1) rfl (leaves_makeClosure hsize frame operand)
  | print => exact hheight (k := 0) rfl (leaves_print hsize)

/-! ## Instructions on local and captured variables -/

/-- Assigning to a captured variable changes its slot if it is on the stack, and else its own
value. -/
lemma writeUpvalue_cases (id : Option ObjectId) (v : Value) (m : Machine) :
    (∃ f, writeUpvalue id v m = .error (.fault f) m) ∨
      writeUpvalue id v m = .ok () m ∨
      ∃ i, id = some i ∧
        ((∃ slot, m.heap.get? i = some (.upvalue (.onStack slot)) ∧ slot < m.stack.size ∧
          writeUpvalue id v m = .ok () { m with stack := m.stack.setIfInBounds slot v }) ∨
        (∃ v', m.heap.get? i = some (.upvalue (.closed v')) ∧
          writeUpvalue id v m = .ok () { m with heap := m.heap.closeUpvalue i v })) := by
  unfold writeUpvalue
  simp only [bind_apply, get_apply]
  cases hup : m.upvalue? id with
  | none => exact .inr (.inl rfl)
  | some u =>
    obtain ⟨i, rfl, hi⟩ := upvalue?_eq_some hup
    cases u with
    | closed v' => exact .inr (.inr ⟨i, rfl, .inr ⟨v', hi, rfl⟩⟩)
    | onStack slot =>
      dsimp only
      by_cases hslot : slot < m.stack.size
      · rw [if_pos hslot]
        exact .inr (.inr ⟨i, rfl, .inl ⟨slot, hi, hslot, rfl⟩⟩)
      · rw [if_neg hslot]
        exact .inl ⟨_, rfl⟩

/-- An assignment through one of the running closure's upvalues. -/
lemma setUpvalue_cases (frame : Frame) (operand : Nat) (m : Machine) :
    (∃ f, execute natives frame ⟨.setUpvalue, operand⟩ m = .error (.fault f) m) ∨
      ∃ id v, (m.upvaluesOf frame.closure)[operand]? = some id ∧
        execute natives frame ⟨.setUpvalue, operand⟩ m = writeUpvalue id v m := by
  unfold execute upvalueAt
  simp only [bind_apply, get_apply]
  cases hid : (m.upvaluesOf frame.closure)[operand]? with
  | none => exact .inl ⟨_, rfl⟩
  | some id =>
    dsimp only [pure_apply]
    rw [peek_apply]
    by_cases hpos : 0 < m.stack.size
    · rw [if_pos hpos]
      exact .inr ⟨id, _, rfl, rfl⟩
    · rw [if_neg hpos]
      exact .inl ⟨_, rfl⟩

lemma closeUpvalue_apply (frame : Frame) (operand : Nat) (hpos : 0 < m.stack.size) :
    execute natives frame ⟨.closeUpvalue, operand⟩ m = .ok () { m.closeUpvalues (m.stack.size - 1) with
      stack := m.stack.pop } := by
  unfold execute
  dsimp only
  rw [bind_apply, get_apply]
  dsimp only
  have hstack : (m.closeUpvalues (m.stack.size - 1)).stack = m.stack := rfl
  have hback : m.stack.back? = some (m.stack.back hpos) := by
    simp [Array.back?, Array.back]
  rw [if_neg (by omega), bind_apply, modify_apply]
  dsimp only
  rw [bind_apply, pop_apply, hstack, hback]
  rfl

lemma setLocal_height {slot : Nat} {m' : Machine} (hrun : setLocal slot m = .ok () m') :
    m'.stack.size = m.stack.size := by
  by_cases hslot : slot < m.stack.size
  · rw [setLocal_apply hslot] at hrun
    cases hrun
    simp
  · unfold setLocal at hrun
    rw [bind_apply, get_apply] at hrun
    dsimp only at hrun
    rw [if_neg hslot] at hrun
    cases hrun

lemma writeUpvalue_height {id : Option ObjectId} {v : Value} {m' : Machine}
    (hrun : writeUpvalue id v m = .ok () m') : m'.stack.size = m.stack.size := by
  rcases writeUpvalue_cases id v m with ⟨f, herror⟩ | hsame |
    ⟨i, -, ⟨slot, -, -, hset⟩ | ⟨v', -, hset⟩⟩
  · rw [herror] at hrun
    cases hrun
  · rw [hsame] at hrun
    cases hrun
    rfl
  · rw [hset] at hrun
    cases hrun
    simp
  · rw [hset] at hrun
    cases hrun
    rfl

/-- The height of the stack changes by what the instruction takes and gives, unless it begins or
ends a call. -/
theorem execute_height (hnatives : ∀ native ∈ natives, native.Lawful ∧ native.Contained)
    (h : m.Sound) (hcall : i.opcode ≠ .call) (hret : i.opcode ≠ .ret)
    (hsize : i.takes ≤ m.stack.size) {frame : Frame} {m' : Machine}
    (hrun : execute natives frame i m = .ok () m') :
    m'.stack.size + i.takes = m.stack.size + i.gives := by
  obtain ⟨op, operand⟩ := i
  by_cases hlocal : op = .setLocal
  · subst hlocal
    have hheight : m'.stack.size = m.stack.size := setLocal_height hrun
    rw [hheight]
    rfl
  by_cases hupvalue : op = .setUpvalue
  · subst hupvalue
    have hheight : m'.stack.size = m.stack.size := by
      rcases setUpvalue_cases frame operand m with ⟨f, herror⟩ | ⟨id, v, -, hwrite⟩
      · rw [herror] at hrun
        cases hrun
      · exact writeUpvalue_height (hwrite ▸ hrun)
    rw [hheight]
    rfl
  by_cases hclose : op = .closeUpvalue
  · subst hclose
    have hpos : 0 < m.stack.size := hsize
    rw [closeUpvalue_apply frame operand hpos] at hrun
    cases hrun
    simp only [Array.size_pop, Instruction.takes, Instruction.gives]
    omega
  have hdrops := Nat.le_trans (Instruction.drops_le_takes ⟨op, operand⟩) hsize
  have hlow : m.stack.size =
      m.stack.size - (Instruction.mk op operand).drops + (Instruction.mk op operand).drops := by
    omega
  have hleaves := execute_leaves hnatives h ⟨hlocal, hupvalue, hclose, hret⟩ hlow frame
  unfold Leaves at hleaves
  rw [hrun] at hleaves
  exact hleaves.2 hcall

end Machine

end Lox
