import Mathlib.Logic.Relation
import Lox.Proofs.Machine.Invariant
import Lox.Machine.Native

/-!
# Verified code never faults

A machine whose calls run verified code executes every instruction without a fault and is such a
machine again afterwards (`execute_running`), so that no run ever faults (`ensures_run`).

A run stands at a boundary whenever an instruction is complete.  `Running.entered` takes the step to
the next boundary apart: first comes what happens between instructions, then the instruction is
executed on a machine whose stack has the shape that its code allows for.

`Machine.Executing` is the state of a machine in the middle of an instruction.  The innermost
call has the shape `a` on the stack, and the calls below it, which wait for it, have the shape
`below`.  What an instruction does to the stack it does to the shape, as `Instruction.Allows`
describes it, and every fault would be a difference between the two.

Host functions are not code that can be verified.  They are required to be lawful
(`Native.Lawful`): they return or raise a runtime error, and what they do to the machine before
that, they do by the operations that a machine offers to its host, none of which puts a value on
the stack or takes one off.
-/

namespace Lox

namespace Machine

/-! ## Computations that do not fault -/

section Ensures

variable {α β : Type} {m : Machine}

/-- From `m` the computation completes with a result and a machine that satisfy `Q`, or halts for
another reason than a fault and leaves a sound machine. -/
def Ensures (f : MachineM α) (m : Machine) (Q : α → Machine → Prop) : Prop :=
  match f m with
  | .ok a m' => Q a m'
  | .error (.fault _) _ => False
  | .error _ m' => m'.Sound

lemma Ensures.bind {f : MachineM α} {g : α → MachineM β} {Q : α → Machine → Prop}
    {R : β → Machine → Prop} (h : Ensures f m Q) (hg : ∀ a m', Q a m' → Ensures (g a) m' R) :
    Ensures (f >>= g) m R := by
  rw [Ensures] at h ⊢
  rw [bind_apply]
  cases hf : f m with
  | ok a m' =>
    rw [hf] at h
    exact hg a m' h
  | error e m' =>
    rw [hf] at h
    cases e <;> exact h

lemma Ensures.of_ok {f : MachineM α} {Q : α → Machine → Prop} {a : α} {m' : Machine}
    (hf : f m = .ok a m') (h : Q a m') : Ensures f m Q := by
  rw [Ensures, hf]
  exact h

/-- A step that completes, and what comes after it. -/
lemma Ensures.step {f : MachineM α} {g : α → MachineM β} {R : β → Machine → Prop} {a : α}
    {m' : Machine} (hf : f m = .ok a m') (hg : Ensures (g a) m' R) : Ensures (f >>= g) m R :=
  (Ensures.of_ok (Q := fun b m'' => b = a ∧ m'' = m') hf ⟨rfl, rfl⟩).bind
    fun _ _ ⟨ha, hm⟩ => ha ▸ hm ▸ hg

lemma Ensures.pure {Q : α → Machine → Prop} {a : α} (h : Q a m) :
    Ensures (Pure.pure a : MachineM α) m Q := h

lemma Ensures.raise {Q : α → Machine → Prop} (h : m.Sound) (cause : RuntimeError.Cause) :
    Ensures (throw (.runtime cause) : MachineM α) m Q := h

lemma Ensures.mono {f : MachineM α} {Q R : α → Machine → Prop} (h : Ensures f m Q)
    (hQR : ∀ a m', Q a m' → R a m') : Ensures f m R := by
  rw [Ensures] at h ⊢
  cases hf : f m with
  | ok a m' =>
    rw [hf] at h
    exact hQR a m' h
  | error e m' =>
    rw [hf] at h
    cases e <;> exact h

end Ensures

/-! ## Calls -/

/-- The calls that wait for another one to return, and the shape of what they have on the stack:
each goes on with one more value. -/
inductive Waiting (h : Heap) (n : Nat) : Array Frame → Shape → Prop
  | nil : Waiting h n #[] []
  | cons {frame : Frame} {waiting : Array Frame} {k : Nat} {a below : Shape} :
      h.HasClosure frame.closure k → (∀ p ∈ frame.chunk.functions, p.Verified) →
      frame.chunk.Runs k n frame.ip (false :: a) → frame.base = below.length →
      Waiting h n waiting below → Waiting h n (waiting.push frame) (a ++ below)

/-- The heap may change as long as the closures of the waiting calls stay. -/
lemma Waiting.of_closures {h h' : Heap} {n : Nat} {waiting : Array Frame} {below : Shape}
    (hw : Waiting h n waiting below)
    (hkept : ∀ frame ∈ waiting, ∀ k, h.HasClosure frame.closure k → h'.HasClosure frame.closure k) :
    Waiting h' n waiting below := by
  induction hw with
  | nil => exact .nil
  | @cons frame waiting k a below hclosure hfunctions hruns hbase _ ih =>
    refine .cons (hkept frame (by simp) k hclosure) hfunctions hruns hbase (ih ?_)
    exact fun frame hframe => hkept frame (by simp [hframe])

lemma Waiting.pred {h : Heap} {n : Nat} {waiting : Array Frame} {below : Shape}
    (hw : Waiting h (n + 1) waiting below) : Waiting h n waiting below := by
  induction hw with
  | nil => exact .nil
  | cons hclosure hfunctions hruns hbase _ ih => exact .cons hclosure hfunctions hruns.pred hbase ih

/-- A call is executing an instruction, and the stack is to have the shape `a` on top of what
belongs to the waiting calls. -/
structure Calling (m : Machine) (frame : Frame) (waiting : Array Frame) (k n : Nat)
    (a below : Shape) : Prop where
  sound : m.Sound
  frames : m.frames = waiting.push frame
  base : frame.base = below.length
  opened : ∀ u ∈ m.openUpvalues, Shape.flag? (a ++ below) u.slot = some true
  closure : m.heap.HasClosure frame.closure k
  functions : ∀ p ∈ frame.chunk.functions, p.Verified
  calls : Waiting m.heap n waiting below

/-- The stack has that shape. -/
structure Executing (m : Machine) (frame : Frame) (waiting : Array Frame) (k n : Nat)
    (a below : Shape) : Prop extends Calling m frame waiting k n a below where
  size : m.stack.size = (a ++ below).length

/-- No call is active, or the innermost one runs verified code. -/
inductive Running (n : Nat) (m : Machine) : Prop
  | idle : m.Sound → m.frames = #[] → m.openUpvalues = [] → Running n m
  | call {frame : Frame} {waiting : Array Frame} {k : Nat} {a below : Shape} :
      m.Executing frame waiting k n a below → frame.chunk.Runs k n frame.ip a → Running n m

lemma Running.sound {n : Nat} {m : Machine} (h : m.Running n) : m.Sound := by
  cases h with
  | idle h _ _ => exact h
  | call h => exact h.sound

section Executing

variable {m : Machine} {frame : Frame} {waiting : Array Frame} {k n : Nat} {a below : Shape}

/-- What a change of the machine must keep for the call to go on. -/
lemma Calling.of_kept {m' : Machine} {b : Shape} (h : m.Calling frame waiting k n a below)
    (hsound : m'.Sound) (hframes : m'.frames = m.frames)
    (hopened : ∀ u ∈ m'.openUpvalues, Shape.flag? (b ++ below) u.slot = some true)
    (hkept : ∀ id k, m.heap.HasClosure id k → m'.heap.HasClosure id k) :
    m'.Calling frame waiting k n b below where
  sound := hsound
  frames := hframes.trans h.frames
  base := h.base
  opened := hopened
  closure := hkept _ _ h.closure
  functions := h.functions
  calls := h.calls.of_closures fun _ _ => hkept _

/-- Only the number of values on the stack matters. -/
lemma Executing.of_stack {m' : Machine} (h : m.Executing frame waiting k n a below)
    (hheap : m'.heap = m.heap) (hframes : m'.frames = m.frames)
    (hopened : m'.openUpvalues = m.openUpvalues) (hsize : m'.stack.size = m.stack.size) :
    m'.Executing frame waiting k n a below where
  toCalling := h.toCalling.of_kept (h.sound.of_eq hheap hopened) hframes (hopened ▸ h.opened)
    (fun _ _ hc => hheap ▸ hc)
  size := hsize.trans h.size

/-- More slots may be taken for captured. -/
lemma Executing.raise {b : Shape} (h : m.Executing frame waiting k n a below) (hab : a.Le b) :
    m.Executing frame waiting k n b below where
  toCalling := h.toCalling.of_kept h.sound rfl
    (fun u hu => (hab.append (.refl below)).flag?_true (h.opened u hu)) fun _ _ hc => hc
  size := by
    rw [h.size, List.length_append, List.length_append, hab.length_eq]

lemma Executing.running (h : m.Executing frame waiting k n a below)
    (hruns : frame.chunk.Runs k n frame.ip a) : m.Running n :=
  .call h hruns

/-- Captured variables are on the stack. -/
lemma Executing.slot_lt (h : m.Executing frame waiting k n a below) {u : OpenUpvalue}
    (hu : u ∈ m.openUpvalues) : u.slot < m.stack.size := by
  have hflag := h.opened u hu
  rw [Shape.flag?] at hflag
  obtain ⟨hlt, -⟩ := List.getElem?_eq_some_iff.1 hflag
  rwa [h.size, ← List.length_reverse]

lemma Running.slot_lt {n : Nat} (h : m.Running n) : ∀ u ∈ m.openUpvalues, u.slot < m.stack.size := by
  cases h with
  | idle _ _ hopened => simp [hopened]
  | call h => exact fun u hu => h.slot_lt hu

end Executing

end Machine

lemma Shape.lt_of_flag?_cons {a : Shape} {slot : Nat}
    (h : Shape.flag? (false :: a) slot = some true) : slot < a.length := by
  rw [Shape.flag?, List.reverse_cons] at h
  by_contra hge
  rw [List.getElem?_append_right (by simpa using hge)] at h
  rw [List.getElem?_singleton] at h
  split at h <;> cases h

lemma Shape.lt_of_flag?_replicate {a : Shape} {k slot : Nat}
    (h : Shape.flag? (List.replicate k false ++ a) slot = some true) : slot < a.length := by
  induction k with
  | zero =>
    rw [List.replicate_zero, List.nil_append, Shape.flag?] at h
    simpa using (List.getElem?_eq_some_iff.1 h).1
  | succ k ih =>
    rw [List.replicate_succ, List.cons_append] at h
    have hlt := Shape.lt_of_flag?_cons h
    rw [← List.singleton_append, Shape.flag?_append hlt] at h
    exact ih h

namespace Machine

/-! ## Values on the stack -/

section Stack

variable {m : Machine} {frame : Frame} {waiting : Array Frame} {k n : Nat} {a below : Shape}

lemma Sound.ensures_push (h : m.Sound) (v : Value) :
    Ensures (push v) m fun _ m' => m' = { m with stack := m.stack.push v } := by
  by_cases hfull : m.config.maxStack ≤ m.stack.size
  · rw [Ensures, push_apply, if_pos hfull]
    exact h
  · rw [Ensures, push_apply, if_neg hfull]

lemma Executing.push {x : Bool} (h : m.Calling frame waiting k n (x :: a) below)
    (hsize : m.stack.size = (a ++ below).length) (v : Value) :
    Ensures (push v) m fun _ m' => m'.Executing frame waiting k n (x :: a) below := by
  refine (h.sound.ensures_push v).mono fun _ m' hm' => ?_
  subst hm'
  refine ⟨h.of_kept (h.sound.of_eq rfl rfl) rfl h.opened fun _ _ hc => hc, ?_⟩
  simp [hsize]

/-- A value of a computation. -/
lemma Executing.push_value (h : m.Executing frame waiting k n a below) (v : Value) :
    Ensures (Machine.push v) m fun _ m' => m'.Executing frame waiting k n (false :: a) below := by
  refine Executing.push (h.toCalling.of_kept h.sound rfl (fun u hu => ?_) fun _ _ hc => hc) h.size v
  have hlt := h.slot_lt hu
  rw [h.size] at hlt
  have hflag := h.opened u hu
  rw [← Shape.flag?_append (a := [false]) hlt] at hflag
  exact hflag

lemma Executing.pop_of_lt {x : Bool} (h : m.Executing frame waiting k n (x :: a) below)
    (hlt : ∀ u ∈ m.openUpvalues, u.slot < (a ++ below).length) :
    Ensures pop m fun _ m' => m'.Executing frame waiting k n a below := by
  have hsize := h.size
  rw [List.cons_append, List.length_cons] at hsize
  have hback : m.stack.back? = some (m.stack.back (by omega)) := by
    simp [Array.back?, Array.back]
  rw [Ensures, pop_apply, hback]
  refine ⟨h.toCalling.of_kept (h.sound.of_eq rfl rfl) rfl (fun u hu => ?_) fun _ _ hc => hc, ?_⟩
  · rw [← Shape.flag?_append (a := [x]) (hlt u hu)]
    exact h.opened u hu
  · simp [hsize]

/-- A value that is not a captured variable can be dropped. -/
lemma Executing.pop (h : m.Executing frame waiting k n (false :: a) below) :
    Ensures pop m fun _ m' => m'.Executing frame waiting k n a below :=
  h.pop_of_lt fun u hu => Shape.lt_of_flag?_cons (h.opened u hu)

lemma Executing.peek (h : m.Executing frame waiting k n a below) {d : Nat} (hd : d < a.length) :
    ∃ v, peek d m = .ok v m := by
  have hsize := h.size
  rw [List.length_append] at hsize
  exact ⟨_, by rw [peek_apply, if_pos (by omega)]⟩

lemma Executing.intern (h : m.Executing frame waiting k n a below) (t : Text) :
    Executing { m with heap := (m.heap.intern t).2 } frame waiting k n a below where
  toCalling := h.toCalling.of_kept (h.sound.intern t) rfl h.opened fun _ _ hc =>
    hc.intern h.sound.heap t
  size := h.size

end Stack

/-! ## Instructions that compute -/

section Computing

variable {m : Machine} {frame : Frame} {waiting : Array Frame} {k n : Nat} {a below : Shape}

lemma Executing.ensures_push (h : m.Executing frame waiting k n a below)
    (hruns : frame.chunk.Runs k n frame.ip (false :: a)) (v : Value) :
    Ensures (Machine.push v) m fun _ => Running n :=
  (h.push_value v).mono fun _ _ h' => h'.running hruns

/-- Two values are replaced by one. -/
lemma Executing.ensures_replace_two (h : m.Executing frame waiting k n (false :: false :: a) below)
    (hruns : frame.chunk.Runs k n frame.ip (false :: a)) (v : Value) :
    Ensures (do let _ ← Machine.pop; let _ ← Machine.pop; Machine.push v) m fun _ => Running n :=
  h.pop.bind fun _ _ h' => h'.pop.bind fun _ _ h'' => h''.ensures_push hruns v

lemma Executing.ensures_binaryNumber
    (h : m.Executing frame waiting k n (false :: false :: a) below)
    (hruns : frame.chunk.Runs k n frame.ip (false :: a)) (f : Float → Float → Value) :
    Ensures (binaryNumber f) m fun _ => Running n := by
  obtain ⟨y, hy⟩ := h.peek (d := 0) (by simp)
  obtain ⟨x, hx⟩ := h.peek (d := 1) (by simp)
  refine .step hy (.step hx ?_)
  split
  · exact h.ensures_replace_two hruns _
  · exact .raise h.sound _

lemma Executing.ensures_add (h : m.Executing frame waiting k n (false :: false :: a) below)
    (hruns : frame.chunk.Runs k n frame.ip (false :: a)) :
    Ensures add m fun _ => Running n := by
  obtain ⟨y, hy⟩ := h.peek (d := 0) (by simp)
  obtain ⟨x, hx⟩ := h.peek (d := 1) (by simp)
  refine .step hy (.step hx ?_)
  split
  · exact h.ensures_replace_two hruns _
  · refine .step (get_apply m) ?_
    dsimp only
    split
    · exact .step (intern_apply _ m) ((h.intern _).ensures_replace_two hruns _)
    · exact .raise h.sound _

lemma Executing.ensures_negate (h : m.Executing frame waiting k n (false :: a) below)
    (hruns : frame.chunk.Runs k n frame.ip (false :: a)) :
    Ensures negate m fun _ => Running n := by
  obtain ⟨x, hx⟩ := h.peek (d := 0) (by simp)
  refine .step hx ?_
  split
  · exact h.pop.bind fun _ _ h' => h'.ensures_push hruns _
  · exact .raise h.sound _

lemma Executing.ensures_compareEqual
    (h : m.Executing frame waiting k n (false :: false :: a) below)
    (hruns : frame.chunk.Runs k n frame.ip (false :: a)) (expected : Bool) :
    Ensures (compareEqual expected) m fun _ => Running n :=
  h.pop.bind fun _ _ h' => h'.pop.bind fun _ _ h'' => h''.ensures_push hruns _

lemma Executing.ensures_typeof (h : m.Executing frame waiting k n (false :: a) below)
    (hruns : frame.chunk.Runs k n frame.ip (false :: a)) :
    Ensures typeof m fun _ => Running n := by
  refine h.pop.bind fun v m' h' => .step (get_apply m') ?_
  exact .step (intern_apply _ m') ((h'.intern _).ensures_push hruns _)

/-! ## Instructions on variables -/

lemma ensures_readString {R : Unit → Machine → Prop} {i : Nat} {g : Text → MachineM Unit}
    (hi : i < frame.chunk.strings.size) (hg : ∀ t, Ensures (g t) m R) :
    Ensures (readString frame.chunk i >>= g) m R := by
  have hget : frame.chunk.strings.get? i = some frame.chunk.strings.items[i] :=
    Array.getElem?_eq_getElem hi
  refine .step ?_ (hg frame.chunk.strings.items[i])
  rw [readString_apply, hget]

lemma Executing.ensures_defineGlobal (h : m.Executing frame waiting k n (false :: a) below)
    (hruns : frame.chunk.Runs k n frame.ip a) (name : Text) :
    Ensures (defineGlobal name) m fun _ => Running n := by
  have hname := h.intern name
  obtain ⟨v, hv⟩ := hname.peek (d := 0) (by simp)
  refine .step (intern_apply name m) (.step hv (.step (modify_apply _ _) ?_))
  exact Ensures.bind (Executing.pop (hname.of_stack rfl rfl rfl rfl)) fun _ _ h' =>
    .pure (h'.running hruns)

lemma Executing.ensures_getGlobal (h : m.Executing frame waiting k n a below)
    (hruns : frame.chunk.Runs k n frame.ip (false :: a)) (name : Text) :
    Ensures (getGlobal name) m fun _ => Running n := by
  have hname := h.intern name
  refine .step (intern_apply name m) (.step (get_apply _) ?_)
  split
  · exact hname.ensures_push hruns _
  · exact .raise hname.sound _

lemma Executing.ensures_setGlobal (h : m.Executing frame waiting k n a below) (ha : a ≠ [])
    (hruns : frame.chunk.Runs k n frame.ip a) (name : Text) :
    Ensures (setGlobal name) m fun _ => Running n := by
  have hname := h.intern name
  obtain ⟨v, hv⟩ := hname.peek (d := 0) (List.length_pos_iff.2 ha)
  refine .step (intern_apply name m) (.step (get_apply _) ?_)
  split
  · refine .step hv (.of_ok (modify_apply _ _) ?_)
    exact Executing.running (hname.of_stack rfl rfl rfl rfl) hruns
  · exact .raise hname.sound _

lemma Executing.slot_of_lt (h : m.Executing frame waiting k n a below) {i : Nat}
    (hi : i < a.length) : frame.base + i < m.stack.size := by
  rw [h.size, h.base, List.length_append]
  omega

lemma Executing.ensures_getLocal (h : m.Executing frame waiting k n a below) {i : Nat}
    (hi : i < a.length) (hruns : frame.chunk.Runs k n frame.ip (false :: a)) :
    Ensures (getLocal (frame.base + i)) m fun _ => Running n := by
  refine .step (get_apply m) ?_
  rw [Array.getElem?_eq_getElem (h.slot_of_lt hi)]
  exact h.ensures_push hruns _

lemma Executing.ensures_setLocal (h : m.Executing frame waiting k n a below) {i : Nat}
    (hi : i < a.length) (hruns : frame.chunk.Runs k n frame.ip a) :
    Ensures (setLocal (frame.base + i)) m fun _ => Running n := by
  obtain ⟨v, hv⟩ := h.peek (d := 0) (by omega)
  refine .step (get_apply m) ?_
  rw [if_pos (h.slot_of_lt hi)]
  refine .step hv (.of_ok (modify_apply _ _) ?_)
  exact Executing.running (h.of_stack rfl rfl rfl (by simp)) hruns

/-- The running closure has the captured variable. -/
lemma Executing.upvaluesOf (h : m.Calling frame waiting k n a below) {i : Nat} (hi : i < k) :
    ∃ u, (m.upvaluesOf frame.closure)[i]? = some u := by
  obtain ⟨made, us, hget, hsize⟩ := h.closure
  rw [Machine.upvaluesOf, hget]
  exact ⟨us[i], Array.getElem?_eq_getElem (hsize ▸ hi)⟩

lemma upvalue?_eq_some {m : Machine} {id : Option ObjectId} {u : Upvalue}
    (h : m.upvalue? id = some u) : ∃ i, id = some i ∧ m.heap.get? i = some (.upvalue u) := by
  rw [upvalue?] at h
  split at h
  · rename_i u' hget
    cases h
    obtain ⟨i, rfl, hi⟩ := Option.bind_eq_some_iff.1 hget
    exact ⟨i, rfl, hi⟩
  · cases h

/-- A captured variable that is on the stack is below the top. -/
lemma Executing.onStack_lt (h : m.Executing frame waiting k n a below) {id : Option ObjectId}
    {slot : Nat} (hid : m.upvalue? id = some (.onStack slot)) : slot < m.stack.size := by
  obtain ⟨i, rfl, hi⟩ := upvalue?_eq_some hid
  exact h.slot_lt (u := ⟨slot, i⟩) (h.sound.objects hi)

lemma Executing.ensures_getUpvalue (h : m.Executing frame waiting k n a below) {i : Nat}
    (hi : i < k) (hruns : frame.chunk.Runs k n frame.ip (false :: a)) :
    Ensures (do Machine.push (← readUpvalue (← upvalueAt frame i))) m fun _ => Running n := by
  obtain ⟨u, hu⟩ := Executing.upvaluesOf h.toCalling hi
  have hat : upvalueAt frame i m = .ok u m := by
    rw [upvalueAt, bind_apply, get_apply]
    dsimp only
    rw [hu]
    rfl
  refine .step hat ?_
  have hread : ∃ v, readUpvalue u m = .ok v m := by
    rw [readUpvalue, bind_apply, get_apply]
    dsimp only
    cases hup : m.upvalue? u with
    | none => exact ⟨_, rfl⟩
    | some up =>
      cases up with
      | closed v => exact ⟨_, rfl⟩
      | onStack slot =>
        dsimp only
        rw [Array.getElem?_eq_getElem (h.onStack_lt hup)]
        exact ⟨_, rfl⟩
  obtain ⟨v, hv⟩ := hread
  exact .step hv (h.ensures_push hruns v)

lemma Executing.ensures_setUpvalue (h : m.Executing frame waiting k n a below) {i : Nat}
    (hi : i < k) (ha : a ≠ []) (hruns : frame.chunk.Runs k n frame.ip a) :
    Ensures (do
      let id ← upvalueAt frame i
      writeUpvalue id (← Machine.peek 0)) m fun _ => Running n := by
  obtain ⟨u, hu⟩ := Executing.upvaluesOf h.toCalling hi
  obtain ⟨v, hv⟩ := h.peek (d := 0) (List.length_pos_iff.2 ha)
  have hat : upvalueAt frame i m = .ok u m := by
    rw [upvalueAt, bind_apply, get_apply]
    dsimp only
    rw [hu]
    rfl
  refine .step hat (.step hv (.step (get_apply m) ?_))
  cases hup : m.upvalue? u with
  | none => exact .pure (h.running hruns)
  | some up =>
    cases up with
    | onStack slot =>
      dsimp only
      rw [if_pos (h.onStack_lt hup)]
      exact .of_ok (set_apply _ _) (Executing.running (h.of_stack rfl rfl rfl (by simp)) hruns)
    | closed v' =>
      obtain ⟨id, rfl, hid⟩ := upvalue?_eq_some hup
      have hcalling : Calling { m with heap := m.heap.closeUpvalue id v } frame waiting k n a
          below :=
        h.toCalling.of_kept (h.sound.closeUpvalue hid v) rfl h.opened fun _ _ hc => hc.update hid
      exact .of_ok (set_apply _ _) (Executing.running ⟨hcalling, h.size⟩ hruns)

lemma Executing.ensures_closeUpvalue {x : Bool}
    (h : m.Executing frame waiting k n (x :: a) below) (hruns : frame.chunk.Runs k n frame.ip a) :
    Ensures (do
      let size := (← get).stack.size
      if size = 0 then
        throw (.fault .closeUpvalueOnEmptyStack)
      modify (·.closeUpvalues (size - 1))
      let _ ← Machine.pop) m fun _ => Running n := by
  have hsize := h.size
  rw [List.cons_append, List.length_cons] at hsize
  refine .step (get_apply m) ?_
  dsimp only
  rw [if_neg (by omega)]
  obtain ⟨hsound, hleft, hkept⟩ := h.sound.closeUpvalues (m.stack.size - 1)
  refine .step (modify_apply _ _) ?_
  have hclosed : Executing (m.closeUpvalues (m.stack.size - 1)) frame waiting k n (x :: a) below :=
    ⟨h.toCalling.of_kept hsound rfl (fun u hu => h.opened u (hleft u hu).1) hkept, h.size⟩
  refine (hclosed.pop_of_lt fun u hu => ?_).bind fun _ _ h' => .pure (h'.running hruns)
  have hlt := (hleft u hu).2
  rw [hsize] at hlt
  exact hlt

lemma Executing.ensures_print (h : m.Executing frame waiting k n (false :: a) below)
    (hruns : frame.chunk.Runs k n frame.ip a) : Ensures print m fun _ => Running n :=
  h.pop.bind fun _ _ h' =>
    .of_ok (modify_apply _ _) (Executing.running (h'.of_stack rfl rfl rfl rfl) hruns)

end Computing

end Machine

/-! ## Closures -/

lemma Shape.flag?_above (a below : Shape) (i : Nat) :
    Shape.flag? (a ++ below) (below.length + i) = a.flag? i := by
  rw [Shape.flag?, Shape.flag?, List.reverse_append, List.getElem?_append_right (by simp)]
  simp

namespace Machine

section Closures

variable {m : Machine} {frame : Frame} {waiting : Array Frame} {k n : Nat} {a below : Shape}

/-- Capturing a variable that the shape has as a captured one. -/
lemma Calling.ensures_capture (h : m.Calling frame waiting k n a below) {c : Capture}
    (hc : if c.isLocal then a.flag? c.index = some true else c.index < k) :
    Ensures (capture frame c) m fun _ m' =>
      m'.Calling frame waiting k n a below ∧ m'.stack = m.stack := by
  rw [capture]
  split at hc <;> rename_i hlocal
  · rw [if_pos hlocal]
    rcases captureSlot_cases (frame.base + c.index) m with ⟨u, -, -, hrun⟩ |
      ⟨above, rest, hsplit, habove, hrest, hrun⟩
    · exact .step hrun (.pure ⟨h, rfl⟩)
    · refine .step hrun (.pure ⟨h.of_kept (h.sound.openUpvalue hsplit habove hrest) rfl ?_ ?_, rfl⟩)
      · intro u hu
        have hold : u ∈ m.openUpvalues → Shape.flag? (a ++ below) u.slot = some true := h.opened u
        rcases List.mem_append.1 hu with hin | hin
        · exact hold (hsplit ▸ List.mem_append_left _ hin)
        · rcases List.mem_cons.1 hin with rfl | hin
          · rw [h.base, Shape.flag?_above]
            exact hc
          · exact hold (hsplit ▸ List.mem_append_right _ hin)
      · exact fun _ _ hclosure => hclosure.allocate h.sound.heap _
  · rw [if_neg hlocal]
    obtain ⟨u, hu⟩ := Executing.upvaluesOf h hc
    refine .step (get_apply m) ?_
    rw [hu]
    exact .pure ⟨h, rfl⟩

/-- Capturing all variables of a function. -/
lemma Calling.ensures_captureAll (h : m.Calling frame waiting k n a below) {cs : List Capture}
    (hcs : ∀ c ∈ cs, if c.isLocal then a.flag? c.index = some true else c.index < k)
    (closure : ObjectId) (place : Nat) :
    Ensures (captureAll frame closure place cs) m fun _ m' =>
      m'.Calling frame waiting k n a below ∧ m'.stack = m.stack := by
  induction cs generalizing m place with
  | nil => exact .pure ⟨h, rfl⟩
  | cons c cs ih =>
    obtain ⟨hc, hcs⟩ := List.forall_mem_cons.1 hcs
    refine (h.ensures_capture hc).bind fun u m' ⟨h', hstack⟩ => .step (modify_apply _ _) ?_
    obtain ⟨hsound, hkept⟩ := h'.sound.setUpvalue closure place u
    have hset : Calling { m' with heap := m'.heap.setUpvalue closure place u } frame waiting k n a
        below := h'.of_kept hsound rfl h'.opened hkept
    exact (ih hset hcs (place + 1)).mono fun _ m'' ⟨h'', hstack'⟩ => ⟨h'', hstack'.trans hstack⟩

/-- A new closure of a verified function. -/
lemma Sound.allocateClosure (h : m.Sound) {p : Prototype} (hp : p.Verified) :
    Sound { m with heap := ((m.heap.allocate (.function (.ofPrototype p))).2.allocate
        (.newClosure (some m.heap.fresh) p.captures.size)).2 } := by
  have hfunction : Sound { m with heap := (m.heap.allocate (.function (.ofPrototype p))).2 } :=
    h.allocate (by simp) ⟨p, hp, rfl⟩
  refine hfunction.allocate (by simp [Object.newClosure]) ?_
  rw [Object.newClosure]
  rintro i ⟨⟩
  refine ⟨Nat.lt_add_of_pos_right Nat.two_pos, fun f hf => ?_⟩
  simp only [Heap.get?_allocate, Heap.fresh_allocate] at hf
  rw [if_neg (Nat.ne_of_lt (Nat.lt_succ_self _)), if_pos trivial] at hf
  cases hf
  simp [FunctionObject.ofPrototype]

/-- A new closure of a verified function, which is not on the stack yet.  Its slot may be among those
that it captures. -/
lemma Executing.allocateClosure {p : Prototype} (h : m.Executing frame waiting k n a below)
    (hp : p.Verified) (x : Bool) :
    Calling { m with heap := ((m.heap.allocate (.function (.ofPrototype p))).2.allocate
      (.newClosure (some m.heap.fresh) p.captures.size)).2 } frame waiting k n (x :: a) below := by
  refine h.toCalling.of_kept (h.sound.allocateClosure hp) rfl (fun u hu => ?_) ?_
  · have hlt := h.slot_lt hu
    rw [h.size] at hlt
    exact (Shape.flag?_append (a := [x]) hlt).trans (h.opened u hu)
  · have hvalid := h.sound.heap.allocate (o := .function (.ofPrototype p)) (by simp)
    exact fun _ _ hc => (hc.allocate h.sound.heap _).allocate hvalid _

lemma Executing.ensures_makeClosure {p : Prototype} {x : Bool} {i : Nat}
    (h : m.Executing frame waiting k n a below) (hp : frame.chunk.functions[i]? = some p)
    (hcaptures : p.Capturable k (x :: a)) (hruns : frame.chunk.Runs k n frame.ip (x :: a)) :
    Ensures (makeClosure frame i) m fun _ => Running n := by
  have hverified : p.Verified := h.functions p (Array.mem_of_getElem? hp)
  rw [makeClosure, hp]
  dsimp only
  refine .step (allocateClosure_apply p m) ?_
  refine ((h.allocateClosure hverified x).ensures_captureAll
    (fun c hc => hcaptures c (Array.mem_def.2 hc)) _ 0).bind ?_
  rintro _ m' ⟨h', hstack⟩
  refine (Executing.push h' ?_ _).mono fun _ _ h'' => h''.running hruns
  rw [hstack]
  exact h.size

end Closures

/-! ## Jumps and calls -/

section Control

variable {m : Machine} {frame : Frame} {waiting : Array Frame} {k n : Nat} {a below : Shape}

lemma modify_last {frames waiting : Array Frame} {frame : Frame} (h : frames = waiting.push frame)
    (f : Frame → Frame) : frames.modify (frames.size - 1) f = waiting.push (f frame) := by
  subst h
  apply Array.ext
  · simp
  · intro i hi hi'
    simp only [Array.getElem_modify, Array.size_push, Nat.add_sub_cancel, Array.getElem_push]
    by_cases heq : waiting.size = i
    · simp [heq]
    · have hlt : i < waiting.size := by
        rw [Array.size_push] at hi'
        omega
      simp [heq, hlt]

/-- The innermost call goes on somewhere else. -/
lemma Executing.setIp (h : m.Executing frame waiting k n a below) (ip : Nat) :
    Executing { m with frames := m.frames.modify (m.frames.size - 1) ({ · with ip }) }
      { frame with ip } waiting k n a below where
  sound := h.sound.of_eq rfl rfl
  frames := modify_last h.frames ({ · with ip })
  base := h.base
  opened := h.opened
  closure := h.closure
  functions := h.functions
  calls := h.calls
  size := h.size

lemma Executing.ensures_setIp (h : m.Executing frame waiting k n a below) {ip : Nat}
    (hruns : frame.chunk.Runs k n ip a) : Ensures (Machine.setIp ip) m fun _ => Running n :=
  .of_ok (setIp_apply ip m) ((h.setIp ip).running hruns)

/-- Ending a call. -/
lemma Executing.ensures_doReturn (h : m.Executing frame waiting k n (false :: a) below) :
    Ensures (doReturn frame) m fun _ => Running n := by
  refine h.pop.bind fun v m' h' => .step (modify_apply _ _) (.step (get_apply _) ?_)
  obtain ⟨hsound, hleft, hkept⟩ := h'.sound.closeUpvalues frame.base
  have hframes : (m'.closeUpvalues frame.base).frames.pop = waiting := by
    change m'.frames.pop = waiting
    rw [h'.frames, Array.pop_push]
  have hsize : (resized m'.stack frame.base).size = below.length := by
    rw [size_resized, h'.base]
  have hcalls := h'.calls.of_closures fun f _ => hkept f.closure
  have hopened : ∀ u ∈ (m'.closeUpvalues frame.base).openUpvalues,
      Shape.flag? below u.slot = some true := by
    intro u hu
    obtain ⟨hmem, hlt⟩ := hleft u hu
    rw [h'.base] at hlt
    rw [← Shape.flag?_append (a := a) hlt]
    exact h'.opened u hmem
  simp only [hframes]
  cases hcalls with
  | nil =>
    have hnone : (m'.closeUpvalues frame.base).openUpvalues = [] :=
      List.eq_nil_iff_forall_not_mem.2 fun u hu => by simpa [Shape.flag?] using hopened u hu
    exact .pure (.idle (hsound.of_eq rfl rfl) rfl hnone)
  | @cons frame' waiting' k' a' below' hclosure hfunctions hruns hbase' hcalls =>
    have hnot : ¬ (waiting'.push frame').isEmpty = true := by simp
    rw [if_neg hnot]
    have hback : Executing { m'.closeUpvalues frame.base with
        frames := waiting'.push frame', stack := resized m'.stack frame.base }
        frame' waiting' k' n a' below' :=
      ⟨⟨hsound.of_eq rfl rfl, rfl, hbase', hopened, hclosure, hfunctions, hcalls⟩, hsize⟩
    exact hback.ensures_push hruns v

/-- Beginning a call of a closure. -/
lemma Sound.ensures_callClosure {given : Nat} {id i : ObjectId} {us : Array (Option ObjectId)}
    {f : FunctionObject} (h : m.Sound) (hcalls : Waiting m.heap n m.frames below)
    (hsize : m.stack.size = given + 1 + below.length)
    (hopened : ∀ u ∈ m.openUpvalues,
      Shape.flag? (List.replicate (given + 1) false ++ below) u.slot = some true)
    (hid : m.heap.get? id = some (.closure (some i) us))
    (hf : m.heap.get? i = some (.function f)) :
    Ensures (callClosure id f given) m fun _ => Running n := by
  obtain ⟨p, hp, rfl⟩ := h.objects hf
  have hcount := (h.objects hid i rfl).2 _ hf
  cases hp with
  | @mk _ w arity hchunk harity hverified hfunctions =>
    rw [callClosure]
    dsimp only
    split
    · exact .raise h _
    · rename_i hgiven
      refine .step (get_apply m) ?_
      split
      · exact .raise h _
      · have hsame : given = arity := by
          simp only [FunctionObject.ofPrototype, harity, not_not] at hgiven
          exact_mod_cast hgiven
        subst hsame
        have hcode : (FunctionObject.ofPrototype p).chunk.getD .empty = w := by
          simp [FunctionObject.ofPrototype, hchunk]
        rw [hcode]
        have hbase : m.stack.size - given - 1 = below.length := by omega
        have hcalling : Calling { m with frames := m.frames.push (Frame.mk id p.name w 0 _) }
            (Frame.mk id p.name w 0 (m.stack.size - given - 1)) m.frames us.size n
            (List.replicate (given + 1) false) below :=
          ⟨h.of_eq rfl rfl, rfl, hbase, hopened, ⟨_, us, hid, rfl⟩, hfunctions, hcalls⟩
        refine .of_ok (set_apply _ _) (.call ⟨hcalling, ?_⟩ ?_)
        · simp [hsize]
        · rw [hcount]
          exact hverified n

/-- The calling code waits for one value in the place of callee and arguments. -/
lemma Executing.ensures_callClosure {b : Shape} {given : Nat} {id i : ObjectId}
    {us : Array (Option ObjectId)} {f : FunctionObject}
    (h : m.Executing frame waiting k n (List.replicate (given + 1) false ++ b) below)
    (hruns : frame.chunk.Runs k n frame.ip (false :: b))
    (hid : m.heap.get? id = some (.closure (some i) us))
    (hf : m.heap.get? i = some (.function f)) :
    Ensures (callClosure id f given) m fun _ => Running n := by
  have hsize := h.size
  have hopened := h.opened
  simp only [List.append_assoc] at hsize hopened
  have hcalls : Waiting m.heap n m.frames (b ++ below) := by
    rw [h.frames]
    exact .cons h.closure h.functions hruns h.base h.calls
  refine h.sound.ensures_callClosure hcalls ?_ hopened hid hf
  rw [hsize, List.length_append, List.length_replicate]

end Control

/-! ## Host functions -/

/-- What a machine offers to a host function.  Arguments are passed where they stand on the
stack, so a host function may overwrite them. -/
inductive HostStep : Machine → Machine → Prop
  | intern (m : Machine) (t : Text) : HostStep m { m with heap := (m.heap.intern t).2 }
  | native (m : Machine) (o : NativeObject) :
      HostStep m { m with heap := (m.heap.allocate (.native o)).2 }
  | setGlobal (m : Machine) (name : ObjectId) (v : Value) :
      HostStep m { m with globals := m.globals.insert name v }
  | setSlot (m : Machine) (slot : Nat) (v : Value) :
      HostStep m { m with stack := m.stack.setIfInBounds slot v }
  | print (m : Machine) (t : Text) : HostStep m { m with printed := m.printed.push t }
  | setClock (m : Machine) (x : Float) : HostStep m { m with clock := x }
  | collect (m : Machine) : HostStep m m.collect

end Machine

/-- A host function that returns or raises a runtime error, and until then only does what the
machine offers to it. -/
def Native.Lawful (native : Native) : Prop :=
  ∀ args m, match native args m with
    | .ok _ m' | .error (.runtime _) m' => Relation.ReflTransGen Machine.HostStep m m'
    | .error _ _ => False

namespace Machine

section Host

variable {m : Machine} {frame : Frame} {waiting : Array Frame} {k n : Nat} {a below : Shape}

/-- A collection keeps the closures of the active calls. -/
lemma Executing.collect (h : m.Executing frame waiting k n a below) :
    m.collect.Executing frame waiting k n a below := by
  have hkept : ∀ f ∈ m.frames, ∀ k, m.heap.HasClosure f.closure k →
      m.collect.heap.HasClosure f.closure k := by
    rintro f hf k ⟨made, us, hget, hsize⟩
    refine ⟨made, us, h.sound.heap.get?_collect_eq_some.2 ⟨.root ?_, hget⟩, hsize⟩
    simp only [roots, List.mem_append, List.mem_map]
    exact .inl (.inl (.inr ⟨f, Array.mem_def.1 hf, rfl⟩))
  have hmem : ∀ f, f ∈ waiting ∨ f = frame → f ∈ m.frames := by
    intro f hf
    rw [h.frames, Array.mem_push]
    exact hf
  exact
    { sound := h.sound.collect
      frames := h.frames
      base := h.base
      opened := h.opened
      closure := hkept frame (hmem frame (.inr rfl)) k h.closure
      functions := h.functions
      calls := h.calls.of_closures fun f hf => hkept f (hmem f (.inl hf))
      size := h.size }

lemma Executing.collectIfDue (h : m.Executing frame waiting k n a below) :
    m.collectIfDue.Executing frame waiting k n a below := by
  rw [Machine.collectIfDue]
  split
  · exact h.collect
  · exact h

lemma HostStep.executing {m' : Machine} (hstep : HostStep m m')
    (h : m.Executing frame waiting k n a below) : m'.Executing frame waiting k n a below := by
  cases hstep with
  | intern t => exact h.intern t
  | native o =>
    refine ⟨h.toCalling.of_kept (h.sound.allocate (by simp) trivial) rfl h.opened ?_, h.size⟩
    exact fun _ _ hc => hc.allocate h.sound.heap _
  | setGlobal => exact h.of_stack rfl rfl rfl rfl
  | setSlot => exact h.of_stack rfl rfl rfl (by simp)
  | print => exact h.of_stack rfl rfl rfl rfl
  | setClock => exact h.of_stack rfl rfl rfl rfl
  | collect => exact h.collect

lemma executing_of_host {m' : Machine} (hhost : Relation.ReflTransGen HostStep m m')
    (h : m.Executing frame waiting k n a below) : m'.Executing frame waiting k n a below := by
  induction hhost with
  | refl => exact h
  | tail _ hstep ih => exact hstep.executing ih

lemma Executing.ensures_callNative {b : Shape} {given : Nat} {natives : Natives}
    (hnatives : ∀ native ∈ natives, native.Lawful)
    (h : m.Executing frame waiting k n (List.replicate (given + 1) false ++ b) below)
    (hruns : frame.chunk.Runs k n frame.ip (false :: b)) (o : NativeObject) :
    Ensures (callNative natives o given) m fun _ => Running n := by
  rw [callNative]
  dsimp only
  split
  · exact .raise h.sound _
  · split
    · exact .raise h.sound _
    · rename_i native hnative
      have hlawful := hnatives native (Array.mem_of_getElem? hnative)
      refine .step (get_apply m) ?_
      have hrun := hlawful (m.stack.extract (m.stack.size - given) m.stack.size) m
      have hhost : Ensures (native (m.stack.extract (m.stack.size - given) m.stack.size)) m
          fun _ m' => m'.Executing frame waiting k n (List.replicate (given + 1) false ++ b) below := by
        rw [Ensures]
        split at hrun
        · rename_i hok
          rw [hok]
          exact executing_of_host hrun h
        · rename_i herror
          rw [herror]
          exact (executing_of_host hrun h).sound
        · exact hrun.elim
      refine hhost.bind fun v m' h' => .step (modify_apply _ _) ?_
      have hsize := h.size
      have hsize' := h'.size
      simp only [List.append_assoc, List.length_append, List.length_replicate] at hsize hsize'
      have hcut : (resized m'.stack (m.stack.size - given - 1)).size = (b ++ below).length := by
        rw [size_resized, List.length_append]
        omega
      have hdropped : Executing { m' with stack := resized m'.stack (m.stack.size - given - 1) }
          frame waiting k n b below := by
        refine ⟨h'.toCalling.of_kept (h'.sound.of_eq rfl rfl) rfl (fun u hu => ?_)
          fun _ _ hc => hc, hcut⟩
        -- Callee and arguments are no captured variables.
        have hflag := h'.opened u hu
        rw [List.append_assoc] at hflag
        have hlt := Shape.lt_of_flag?_replicate hflag
        rw [Shape.flag?_append hlt] at hflag
        exact hflag
      exact hdropped.ensures_push hruns v

lemma Executing.ensures_callValue {b : Shape} {given : Nat} {natives : Natives}
    (hnatives : ∀ native ∈ natives, native.Lawful)
    (h : m.Executing frame waiting k n (List.replicate (given + 1) false ++ b) below)
    (hruns : frame.chunk.Runs k n frame.ip (false :: b)) (callee : Value) :
    Ensures (callValue natives callee given) m fun _ => Running n := by
  refine .step (get_apply m) ?_
  split
  · rename_i id made us hid hderef
    rw [Heap.deref?, hid] at hderef
    cases hmade : made with
    | none => exact .raise h.sound _
    | some i =>
      subst hmade
      cases hfunction : m.heap.function? (some i) with
      | none => exact .raise h.sound _
      | some f =>
        rw [Heap.function?] at hfunction
        split at hfunction
        · rename_i f' hget
          cases hfunction
          exact h.ensures_callClosure hruns hderef hget
        · cases hfunction
  · exact h.ensures_callNative hnatives hruns _
  · exact .raise h.sound _

end Host

/-! ## Runs -/

section Runs

variable {m : Machine} {frame : Frame} {waiting : Array Frame} {k n : Nat} {a below : Shape}
  {natives : Natives}

/-- An instruction that the shape allows is executed without a fault. -/
theorem execute_running (hnatives : ∀ native ∈ natives, native.Lawful)
    (h : m.Executing frame waiting k n a below) {i : Instruction}
    (hallows : i.Allows frame.chunk k frame.ip (frame.chunk.Runs k n) a) :
    Ensures (execute natives frame i) m fun _ => Running n := by
  obtain ⟨op, operand⟩ := i
  cases op with
  | loadConstant =>
    obtain ⟨hlt, hruns⟩ := hallows
    have hget : frame.chunk.constants.get? operand = some frame.chunk.constants.items[operand] :=
      Array.getElem?_eq_getElem hlt
    simp only [execute, hget]
    exact h.ensures_push hruns _
  | loadString =>
    obtain ⟨hlt, hruns⟩ := hallows
    exact ensures_readString hlt fun t =>
      .step (intern_apply t m) ((h.intern t).ensures_push hruns _)
  | loadNil => exact h.ensures_push hallows _
  | loadTrue => exact h.ensures_push hallows _
  | loadFalse => exact h.ensures_push hallows _
  | pop =>
    obtain ⟨b, rfl, hruns⟩ := hallows
    exact h.pop.bind fun _ _ h' => .pure (h'.running hruns)
  | add =>
    obtain ⟨b, rfl, hruns⟩ := hallows
    exact h.ensures_add hruns
  | subtract | multiply | divide | less | greater | lessEqual | greaterEqual =>
    obtain ⟨b, rfl, hruns⟩ := hallows
    exact h.ensures_binaryNumber hruns _
  | negate =>
    obtain ⟨b, rfl, hruns⟩ := hallows
    exact h.ensures_negate hruns
  | not =>
    obtain ⟨b, rfl, hruns⟩ := hallows
    exact h.pop.bind fun _ _ h' => h'.ensures_push hruns _
  | equal | notEqual =>
    obtain ⟨b, rfl, hruns⟩ := hallows
    exact h.ensures_compareEqual hruns _
  | typeof =>
    obtain ⟨b, rfl, hruns⟩ := hallows
    exact h.ensures_typeof hruns
  | defineGlobal =>
    obtain ⟨hlt, b, rfl, hruns⟩ := hallows
    exact ensures_readString hlt fun t => h.ensures_defineGlobal hruns t
  | getGlobal =>
    obtain ⟨hlt, hruns⟩ := hallows
    exact ensures_readString hlt fun t => h.ensures_getGlobal hruns t
  | setGlobal =>
    obtain ⟨hlt, ha, hruns⟩ := hallows
    exact ensures_readString hlt fun t => h.ensures_setGlobal ha hruns t
  | getLocal =>
    obtain ⟨hlt, hruns⟩ := hallows
    exact h.ensures_getLocal hlt hruns
  | setLocal =>
    obtain ⟨hlt, hruns⟩ := hallows
    exact h.ensures_setLocal hlt hruns
  | getUpvalue =>
    obtain ⟨hlt, hruns⟩ := hallows
    exact h.ensures_getUpvalue hlt hruns
  | setUpvalue =>
    obtain ⟨hlt, ha, hruns⟩ := hallows
    exact h.ensures_setUpvalue hlt ha hruns
  | closeUpvalue =>
    obtain ⟨x, b, rfl, hruns⟩ := hallows
    exact h.ensures_closeUpvalue hruns
  | jump => exact h.ensures_setIp hallows
  | jumpIfFalse =>
    obtain ⟨ha, hnext, htarget⟩ := hallows
    obtain ⟨v, hv⟩ := h.peek (d := 0) (List.length_pos_iff.2 ha)
    refine .step hv ?_
    split
    · exact h.ensures_setIp htarget
    · exact .pure (h.running hnext)
  | loop =>
    obtain ⟨hle, hruns⟩ := hallows
    simp only [execute]
    rw [if_neg (Nat.not_lt.2 hle)]
    exact h.ensures_setIp hruns
  | call =>
    obtain ⟨b, rfl, hruns⟩ := hallows
    obtain ⟨v, hv⟩ := h.peek (d := operand) (by simp; omega)
    have hsize := h.size
    simp only [List.append_assoc, List.length_append, List.length_replicate] at hsize
    refine .step (get_apply m) ?_
    dsimp only
    rw [if_neg (by omega)]
    exact .step hv (h.ensures_callValue hnatives hruns v)
  | closure =>
    obtain ⟨p, x, hp, hcaptures, hruns⟩ := hallows
    exact h.ensures_makeClosure hp hcaptures hruns
  | ret =>
    obtain ⟨b, rfl⟩ := hallows
    exact h.ensures_doReturn
  | print =>
    obtain ⟨b, rfl, hruns⟩ := hallows
    exact h.ensures_print hruns

/-- What a machine at a boundary does next. -/
structure Entered (natives : Natives) (m : Machine) (frame : Frame) (i : Instruction)
    (traced : Array Text) (waiting : Array Frame) (k n : Nat) (a below : Shape) : Prop where
  frames : m.frames = waiting.push frame
  decode : frame.chunk.decode frame.ip = .ok i
  step : (do betweenInstructions frame; Machine.step natives frame : MachineM Unit) m =
    execute natives { frame with ip := frame.ip + i.size } i (m.entered traced (frame.ip + i.size))
  executing : (m.entered traced (frame.ip + i.size)).Executing { frame with ip := frame.ip + i.size }
    waiting k n a below
  allows : i.Allows frame.chunk k (frame.ip + i.size) (frame.chunk.Runs k n) a

/-- A running machine with an active call has an instruction to execute that its stack allows
for. -/
lemma Running.entered (h : m.Running (n + 1)) (hframe : m.frames.back? = some frame)
    (natives : Natives) :
    ∃ i traced waiting k a below, m.Entered natives frame i traced waiting k n a below := by
  cases h with
  | idle _ hframes _ =>
    rw [hframes] at hframe
    cases hframe
  | @call frame' waiting k a below h hruns =>
    rw [h.frames, Array.back?_push] at hframe
    cases hframe
    obtain ⟨b, i, hab, hdecode, hallows⟩ := hruns
    have hfewer : m.Executing frame waiting k n a below := { h with calls := h.calls.pred }
    obtain ⟨traced, hstep⟩ := between_step_eq hdecode natives m
    have htraced : Executing (m.collectIfDue.withTraced traced) frame waiting k n b below :=
      (hfewer.collectIfDue.raise hab).of_stack rfl rfl rfl rfl
    exact ⟨i, traced, waiting, k, b, below, h.frames, hdecode, hstep,
      htraced.setIp (frame.ip + i.size), hallows⟩

/-- What happens from one boundary to the next does not fault. -/
lemma Running.ensures_step (hnatives : ∀ native ∈ natives, native.Lawful) (h : m.Running (n + 1))
    (hframe : m.frames.back? = some frame) :
    Ensures (do betweenInstructions frame; Machine.step natives frame : MachineM Unit) m
      fun _ => Running n := by
  obtain ⟨i, traced, waiting, k, a, below, hentered⟩ := h.entered hframe natives
  have hexecuted := execute_running hnatives hentered.executing hentered.allows
  rwa [Ensures, ← hentered.step] at hexecuted

/-- A run of verified code does not fault. -/
theorem ensures_run (hnatives : ∀ native ∈ natives, native.Lawful) {budget : Nat}
    (h : m.Running budget) : Ensures (run natives budget) m fun _ m' => m'.Sound := by
  induction budget generalizing m with
  | zero => exact h.sound
  | succ budget ih =>
    rw [Ensures, run_succ_apply]
    cases hframe : m.frames.back? with
    | none => exact h.sound
    | some frame =>
      have hstep := h.ensures_step hnatives hframe
      rw [Ensures] at hstep
      dsimp only
      cases hresult : (do betweenInstructions frame; step natives frame : MachineM Unit) m with
      | ok _ m' =>
        rw [hresult] at hstep
        exact ih hstep
      | error e m' =>
        rw [hresult] at hstep
        cases e with
        | runtime _ | fault _ | suspended => exact hstep

end Runs

/-! ## Scripts -/

/-- Clearing the stack. -/
lemma Sound.resetStack {m : Machine} (h : m.Sound) : m.resetStack.Sound := by
  obtain ⟨hsound, hleft, -⟩ := h.closeUpvalues 0
  have hnone : (m.closeUpvalues 0).openUpvalues = [] :=
    List.eq_nil_iff_forall_not_mem.2 fun u hu => absurd (hleft u hu).2 (Nat.not_lt_zero _)
  exact hsound.of_eq rfl hnone.symm

/-- Putting a verified script on the stack and calling it. -/
lemma Sound.ensures_load {script : Prototype} (hscript : script.Verified) {m : Machine}
    (h : m.Sound) (n : Nat) : Ensures (loadScript script) m fun id m' =>
      Ensures (callClosure id (.ofPrototype script) 0) m' fun _ => Running n := by
  have hclosure := h.resetStack.allocateClosure hscript
  refine .step (modify_apply _ _) (.step (allocateClosure_apply script _) ?_)
  refine (hclosure.ensures_push _).bind fun _ m' hm' => .pure ?_
  subst hm'
  have hid : ((m.resetStack.heap.allocate (.function (.ofPrototype script))).2.allocate
      (.newClosure (some m.resetStack.heap.fresh) script.captures.size)).2.get?
        (m.resetStack.heap.fresh + 1) = some (.closure (some m.resetStack.heap.fresh)
          (Array.replicate script.captures.size none)) := by
    simp [Object.newClosure]
  have hf : ((m.resetStack.heap.allocate (.function (.ofPrototype script))).2.allocate
      (.newClosure (some m.resetStack.heap.fresh) script.captures.size)).2.get?
        m.resetStack.heap.fresh = some (.function (.ofPrototype script)) := by
    simp
  exact Sound.ensures_callClosure (hclosure.of_eq rfl rfl) .nil rfl (fun u hu => nomatch hu) hid hf

/-- A verified script runs without a fault and leaves a sound machine. -/
theorem interpret_sound {natives : Natives} (hnatives : ∀ native ∈ natives, native.Lawful)
    (budget : Nat) {script : Prototype} (hscript : script.Verified) {m : Machine} (h : m.Sound) :
    (∀ f, (m.interpret natives budget script).1 ≠ .fault f) ∧
      (m.interpret natives budget script).2.Sound := by
  have hload := h.ensures_load hscript budget
  rw [interpret]
  simp only [EStateM.run]
  rw [Ensures] at hload
  cases hloaded : loadScript script m with
  | error e m' =>
    rw [hloaded] at hload
    cases e with
    | fault f => exact hload.elim
    | runtime cause => exact ⟨by simp, hload⟩
    | suspended => exact ⟨by simp, hload⟩
  | ok id m' =>
    rw [hloaded] at hload
    have hcall : Ensures (do callClosure id (.ofPrototype script) 0; run natives budget) m'
        fun _ m'' => m''.Sound :=
      hload.bind fun _ m'' hrunning => ensures_run hnatives hrunning
    rw [Ensures] at hcall
    dsimp only
    cases hran : (do callClosure id (.ofPrototype script) 0; run natives budget : MachineM Unit) m' with
    | ok a m'' =>
      rw [hran] at hcall
      exact ⟨by simp, hcall⟩
    | error e m'' =>
      rw [hran] at hcall
      cases e with
      | fault f => exact hcall.elim
      | runtime cause => exact ⟨by simp, hcall.resetStack⟩
      | suspended => exact ⟨by simp, hcall⟩

end Machine

end Lox
