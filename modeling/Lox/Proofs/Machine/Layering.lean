import Lox.Proofs.Machine.Lasting

/-!
# How the active calls lie on the stack

All calls share one stack.  The slots of a call begin with its callee, and the callee and arguments of
a call are at the same time the topmost values of the call that waits for it.  How many values a call
has on the stack is told by its code: code that is regular has a height at each instruction.  So the
calls lie on one another in a definite way (`Stacked`), each of them with its own closure in its first
slot.

Nothing protects that slot but the code.  `Layered.step` says that an instruction of regular code
leaves the calls like this: it does not take, assign to or capture the slot of a callee.
-/

namespace Lox

/-- A call of regular code, with its own closure in its first slot.  That of the script is at the
bottom. -/
structure Frame.Seated (stack : Array Value) (arity : Nat) (height : Nat → Nat) (frame : Frame) :
    Prop where
  wellFormed : ∃ upvalues, frame.chunk.WellFormed upvalues
  balanced : frame.chunk.Balanced arity height
  functions : ∀ p ∈ frame.chunk.functions, p.Regular
  callee : stack[frame.base]? = some (.object (some frame.closure))
  script : frame.base = 0 → arity = 0

namespace Machine

/-! ## Waiting calls -/

/-- Calls that lie on one another, each going on right behind a call instruction.  The slots of the
call that they wait for begin at `low`: its callee is where its result will be. -/
inductive Stacked (stack : Array Value) : Array Frame → (low : Nat) → Prop
  | nil : Stacked stack #[] 0
  | push {waiting : Array Frame} {frame : Frame} {arity o n low : Nat} {height : Nat → Nat} :
      Stacked stack waiting frame.base → frame.Seated stack arity height →
      frame.chunk.Reaches o → frame.chunk.decode o = .ok ⟨.call, n⟩ →
      frame.ip = o + (Instruction.mk .call n).size → low + 1 = frame.base + height frame.ip →
      Stacked stack (waiting.push frame) low

section Stacked

variable {stack stack' : Array Value} {waiting : Array Frame} {frame : Frame} {low : Nat}

/-- Only the slots of the callees matter. -/
lemma Stacked.of_callees (h : Stacked stack waiting low)
    (hkept : ∀ f ∈ waiting, stack'[f.base]? = stack[f.base]?) : Stacked stack' waiting low := by
  induction h with
  | nil => exact .nil
  | @push waiting frame arity o n low height _ hseated ho hi hip hlow ih =>
    have hcallee := (hkept frame (by simp)).trans hseated.callee
    refine .push (ih fun f hf => hkept f (by simp [hf])) { hseated with callee := hcallee } ho hi hip
      hlow

lemma Stacked.base_lt (h : Stacked stack waiting low) : ∀ f ∈ waiting, f.base < low := by
  induction h with
  | nil => simp
  | @push waiting frame arity o n low height _ hseated ho hi hip hlow ih =>
    obtain ⟨-, -, hheight⟩ := hseated.balanced.behind_call ho hi
    rw [← hip] at hheight
    intro f hf
    rcases Array.mem_push.1 hf with hf | rfl
    · have hlt := ih f hf
      omega
    · omega

lemma Stacked.callee (h : Stacked stack waiting low) :
    ∀ f ∈ waiting, stack[f.base]? = some (.object (some f.closure)) := by
  induction h with
  | nil => simp
  | push _ hseated _ _ _ _ ih =>
    intro f hf
    rcases Array.mem_push.1 hf with hf | rfl
    · exact ih f hf
    · exact hseated.callee

/-- A waiting call goes on at an instruction, right behind its call. -/
lemma Stacked.behind_call (h : Stacked stack waiting low) : ∀ f ∈ waiting, f.chunk.IsStart f.ip ∧
    ∃ o n, f.chunk.IsStart o ∧ f.chunk.decode o = .ok ⟨.call, n⟩ ∧
      f.ip = o + (Instruction.mk .call n).size := by
  induction h with
  | nil => simp
  | @push waiting frame arity o n low height _ hseated ho hi hip _ ih =>
    obtain ⟨upvalues, hlayout⟩ := hseated.wellFormed
    obtain ⟨hreaches, -, -⟩ := hseated.balanced.behind_call ho hi
    intro f hf
    rcases Array.mem_push.1 hf with hf | rfl
    · exact ih f hf
    · exact ⟨hip ▸ hlayout.isStart hreaches, o, n, hlayout.isStart ho, hi, hip⟩

lemma Stacked.pairwise (h : Stacked stack waiting low) :
    waiting.toList.Pairwise fun f f' => f.base < f'.base := by
  induction h with
  | nil => exact .nil
  | push hlower _ _ _ _ _ ih =>
    rw [Array.toList_push, List.pairwise_append]
    refine ⟨ih, List.pairwise_singleton _ _, fun f hf f' hf' => ?_⟩
    rw [List.mem_singleton.1 hf']
    exact hlower.base_lt f (Array.mem_toList_iff.1 hf)

lemma Stacked.eq_zero (h : Stacked stack #[] low) : low = 0 := by
  generalize hwaiting : (#[] : Array Frame) = waiting at h
  cases h with
  | nil => rfl
  | push => simp at hwaiting

/-- The slots of the outermost call begin at the bottom. -/
lemma Stacked.first (h : Stacked stack waiting low) : ∀ f, waiting[0]? = some f → f.base = 0 := by
  induction h with
  | nil => simp
  | @push waiting frame _ _ _ _ _ hlower _ _ _ _ _ ih =>
    intro f hf
    rw [Array.getElem?_push] at hf
    split at hf
    · rename_i hzero
      cases hf
      obtain rfl : waiting = #[] := Array.size_eq_zero_iff.1 hzero.symm
      exact hlower.eq_zero
    · exact ih f hf

/-- The innermost of the waiting calls. -/
lemma Stacked.exists_last (h : Stacked stack waiting low) (hwaiting : waiting ≠ #[]) :
    ∃ (lower : Array Frame) (frame : Frame) (arity : Nat) (height : Nat → Nat),
      waiting = lower.push frame ∧ Stacked stack lower frame.base ∧
      frame.Seated stack arity height ∧ frame.chunk.Reaches frame.ip ∧
      low + 1 = frame.base + height frame.ip := by
  cases h with
  | nil => exact absurd rfl hwaiting
  | push hlower hseated ho hi hip hlow =>
    obtain ⟨hreaches, -, -⟩ := hseated.balanced.behind_call ho hi
    rw [← hip] at hreaches
    exact ⟨_, _, _, _, rfl, hlower, hseated, hreaches, hlow⟩

end Stacked

/-! ## Layered machines -/

/-- The innermost call has on the stack what its code says, and the others lie below it.  No captured
variable is in the slot of a callee. -/
structure Topped (m : Machine) (frame : Frame) (waiting : Array Frame) (arity : Nat)
    (height : Nat → Nat) : Prop where
  frames : m.frames = waiting.push frame
  waiting : Stacked m.stack waiting frame.base
  seated : frame.Seated m.stack arity height
  reaches : frame.chunk.Reaches frame.ip
  size : m.stack.size = frame.base + height frame.ip
  room : m.stack.size ≤ m.config.maxStack
  calls : m.frames.size ≤ m.config.maxCalls
  apart : ∀ u ∈ m.openUpvalues, ∀ f ∈ m.frames, u.slot ≠ f.base

/-- Nothing is on the stack, or the active calls lie on it. -/
inductive Layered (m : Machine) : Prop
  | idle : m.frames = #[] → m.openUpvalues = [] → m.stack = #[] → Layered m
  | call {frame : Frame} {waiting : Array Frame} {arity : Nat} {height : Nat → Nat} :
      m.Topped frame waiting arity height → Layered m

section Topped

variable {m m' : Machine} {frame : Frame} {waiting : Array Frame} {arity : Nat} {height : Nat → Nat}

lemma Topped.base_le (h : m.Topped frame waiting arity height) : ∀ f ∈ m.frames, f.base ≤ frame.base := by
  intro f hf
  rw [h.frames, Array.mem_push] at hf
  rcases hf with hf | rfl
  · exact Nat.le_of_lt (h.waiting.base_lt f hf)
  · exact Nat.le_refl _

lemma Topped.callee (h : m.Topped frame waiting arity height) {f : Frame} (hf : f ∈ m.frames) :
    m.stack[f.base]? = some (.object (some f.closure)) := by
  rw [h.frames, Array.mem_push] at hf
  rcases hf with hf | rfl
  · exact h.waiting.callee f hf
  · exact h.seated.callee

/-- Calls and captured variables have to do with the stack alone. -/
lemma Layered.of_eq (h : m.Layered) (hstack : m'.stack = m.stack) (hframes : m'.frames = m.frames)
    (hopened : m'.openUpvalues = m.openUpvalues) (hconfig : m'.config = m.config) : m'.Layered := by
  cases h with
  | idle hnone hclosed hempty =>
    exact .idle (hframes.trans hnone) (hopened.trans hclosed) (hstack.trans hempty)
  | @call frame waiting arity height h =>
    have htopped : m'.Topped frame waiting arity height := by
      constructor
      · exact hframes.trans h.frames
      · exact hstack ▸ h.waiting
      · exact hstack ▸ h.seated
      · exact h.reaches
      · exact hstack ▸ h.size
      · rw [hstack, hconfig]
        exact h.room
      · rw [hframes, hconfig]
        exact h.calls
      · rw [hopened, hframes]
        exact h.apart
    exact .call htopped

end Topped

/-! ## Computations that end in a push -/

/-- The computation completes only if what is on the stack then fits there. -/
def Fits (f : MachineM Unit) : Prop :=
  ∀ m m', f m = .ok () m' → m'.stack.size ≤ m'.config.maxStack

section Fits

variable {α : Type} {natives : Natives}

lemma fits_push (v : Value) : Fits (push v) := by
  intro m m' hrun
  rw [push_apply] at hrun
  split at hrun
  · cases hrun
  · rename_i hroom
    cases hrun
    show (m.stack.push v).size ≤ m.config.maxStack
    rw [Array.size_push]
    omega

lemma Fits.throw (e : Halt) : Fits (MonadExcept.throw e) := by
  intro m m' hrun
  cases hrun

lemma Fits.bind {f : MachineM α} {g : α → MachineM Unit} (hg : ∀ a, Fits (g a)) : Fits (f >>= g) := by
  intro m m' hrun
  rw [bind_apply] at hrun
  cases hf : f m with
  | error e m₁ =>
    rw [hf] at hrun
    cases hrun
  | ok a m₁ =>
    rw [hf] at hrun
    exact hg a m₁ m' hrun

/-- An instruction that adds a value to the stack does so last. -/
lemma fits_execute (frame : Frame) {i : Instruction} (htakes : i.takes = 0) (hgives : i.gives = 1) :
    Fits (execute natives frame i) := by
  obtain ⟨op, operand⟩ := i
  cases op with
  | loadConstant =>
    unfold execute
    dsimp only
    split
    · exact fits_push _
    · exact .throw _
  | loadString => exact .bind fun t => .bind fun id => fits_push _
  | loadNil | loadTrue | loadFalse => exact fits_push _
  | getGlobal =>
    refine .bind fun name => .bind fun id => .bind fun m => ?_
    split
    · exact fits_push _
    · exact .throw _
  | getLocal =>
    refine .bind fun m => ?_
    split
    · exact fits_push _
    · exact .throw _
  | getUpvalue => exact .bind fun id => .bind fun v => fits_push v
  | closure =>
    unfold execute makeClosure
    dsimp only
    split
    · exact .throw _
    · exact .bind fun id => .bind fun _ => fits_push _
  | jump | loop => cases hgives
  | pop | negate | not | typeof | defineGlobal | setGlobal | setLocal | setUpvalue | closeUpvalue
  | jumpIfFalse | ret | print | add | subtract | multiply | divide | equal | notEqual | less
  | greater | lessEqual | greaterEqual | call => cases htakes

end Fits

/-! ## Steps -/

section Steps

variable {m m' : Machine} {frame : Frame} {waiting : Array Frame} {k n arity : Nat} {a below : Shape}
  {height : Nat → Nat} {natives : Natives} {i : Instruction} {traced : Array Text}

/-- The innermost call has executed an instruction and goes on itself. -/
lemma Topped.goOn (hnatives : ∀ native ∈ natives, native.Lawful ∧ native.Contained)
    (h : m.Topped frame waiting arity height)
    (hentered : m.Entered natives frame i traced waiting k n a below)
    (hrun : execute natives { frame with ip := frame.ip + i.size } i
      (m.entered traced (frame.ip + i.size)) = .ok () m') {ip : Nat}
    (hip : ip ∈ i.successors (frame.ip + i.size))
    (hframes : m'.frames = waiting.push { frame with ip }) :
    m'.Topped { frame with ip } waiting arity height := by
  have hlawful : ∀ native ∈ natives, native.Lawful := fun native hn => (hnatives native hn).1
  have hbalanced := h.seated.balanced
  have hfloor := hbalanced.floor h.reaches hentered.decode
  have hheight := hbalanced.step h.reaches hentered.decode hip
  have hret : i.opcode ≠ .ret := by
    intro hret
    rw [Instruction.successors, hret] at hip
    cases hip
  have hstack := stack_entered m traced (frame.ip + i.size)
  have hsize := h.size
  have hroom := h.room
  rw [← hstack] at hsize hroom
  have hsame : m'.frames.size = m.frames.size := by
    rw [hframes, h.frames, Array.size_push, Array.size_push]
  have hchange := hentered.executing.height_execute hnatives hret (by omega) hrun (by
    rw [hframes, hentered.executing.frames, Array.size_push, Array.size_push])
  have hconfig : m'.config = m.config :=
    ((within_config hlawful _ i).ok hrun).trans (config_entered m traced _)
  -- The callees' slots are below what the instruction can reach.
  have hkept : ∀ f ∈ m.frames, m'.stack[f.base]? = m.stack[f.base]? := by
    intro f hf
    have hle := h.base_le f hf
    have hdrops := i.drops_le_takes
    have hlow : f.base + i.drops < (m.entered traced (frame.ip + i.size)).stack.size := by omega
    rcases hentered.executing.slot_execute hnatives hentered.allows hret hrun hlow with
      hkept | ⟨hlocal, heq⟩ | ⟨-, id, -, hopen⟩
    · rw [hkept, hstack]
    · obtain ⟨hpos, -⟩ := hbalanced.locals h.reaches hentered.decode (.inr hlocal)
      dsimp only at heq
      omega
    · have hmem : ⟨f.base, id⟩ ∈ (m.entered traced (frame.ip + i.size)).openUpvalues :=
        hentered.executing.sound.objects hopen
      rw [openUpvalues_entered] at hmem
      exact absurd rfl (h.apart _ hmem f hf)
  have hwaiting : ∀ f ∈ waiting, f ∈ m.frames := fun f hf => h.frames ▸ Array.mem_push.2 (.inl hf)
  have hframe : frame ∈ m.frames := h.frames ▸ Array.mem_push.2 (.inr rfl)
  refine
    { frames := hframes
      waiting := h.waiting.of_callees fun f hf => hkept f (hwaiting f hf)
      seated := { h.seated with callee := (hkept frame hframe).trans h.seated.callee }
      reaches := h.reaches.step hentered.decode hip
      size := ?_
      room := ?_
      calls := ?_
      apart := ?_ }
  · show m'.stack.size = frame.base + height ip
    omega
  · -- The stack grows only by a value that is pushed.
    have hgives := i.gives_le
    by_cases hgrows : i.takes = 0 ∧ i.gives = 1
    · exact fits_execute _ hgrows.1 hgrows.2 _ _ hrun
    · rw [hconfig]
      omega
  · rw [hsame, hconfig]
    exact h.calls
  · intro u hu f hf
    have hbase : f.base ≤ frame.base ∧ ∃ f' ∈ m.frames, f'.base = f.base := by
      rw [hframes, Array.mem_push] at hf
      rcases hf with hf | rfl
      · exact ⟨h.base_le f (hwaiting f hf), f, hwaiting f hf, rfl⟩
      · exact ⟨Nat.le_refl _, frame, hframe, rfl⟩
    have hold : u ∈ m.openUpvalues → u.slot ≠ f.base := by
      obtain ⟨-, f', hf', heq⟩ := hbase
      exact fun hu => heq ▸ h.apart u hu f' hf'
    rcases opened_execute hlawful _ hrun hu with hu | ⟨hclosure, p, hp, c, hc, hlocal, hslot⟩
    · exact hold (openUpvalues_entered m traced _ ▸ hu)
    · obtain ⟨op, operand⟩ := i
      cases hclosure
      obtain ⟨p', hp', hcaptures⟩ := hbalanced.captures h.reaches hentered.decode
      obtain rfl : p = p' := Option.some.inj (hp.symm.trans hp')
      obtain ⟨hpos, -⟩ := hcaptures c hc hlocal
      dsimp only at hslot
      omega

/-- A call that begins is that of a closure with regular code. -/
lemma Begins.exists_chunk {callee : Value} {given : Nat} (h : m.Begins callee given frame)
    (hregular : m.heap.Regular) : ∃ height, (∃ upvalues, frame.chunk.WellFormed upvalues) ∧
      frame.chunk.Balanced given height ∧ ∀ p ∈ frame.chunk.functions, p.Regular := by
  obtain ⟨made, us, f, -, hmade, harity, hchunk⟩ := h.function
  obtain ⟨id, -, hid⟩ := Heap.exists_of_function? hmade
  obtain ⟨p, hp, rfl⟩ := hregular id f hid
  obtain ⟨w, arity, height, hw, harity', hlayout, hheights, hfunctions⟩ := hp.exists_chunk
  obtain rfl : arity = given := by
    have hsame : p.arity = given := harity
    rw [harity'] at hsame
    exact_mod_cast hsame
  obtain rfl : frame.chunk = w := by
    rw [hchunk, FunctionObject.ofPrototype, hw]
    rfl
  exact ⟨height, ⟨_, hlayout⟩, hheights, hfunctions⟩

/-- The innermost call has begun another one. -/
lemma Topped.begin (h : m.Topped frame waiting arity height)
    (hentered : m.Entered natives frame i traced waiting k n a below)
    (hregular : (m.entered traced (frame.ip + i.size)).heap.Regular) (hcall : i.opcode = .call)
    {callee : Frame} (hbegins : (m.entered traced (frame.ip + i.size)).Begins
      ((m.entered traced (frame.ip + i.size)).callee i.operand) i.operand callee) :
    Layered { m.entered traced (frame.ip + i.size) with
      frames := (waiting.push { frame with ip := frame.ip + i.size }).push callee } := by
  obtain ⟨op, operand⟩ := i
  cases hcall
  dsimp only at hbegins
  generalize hm₁ : m.entered traced (frame.ip + (Instruction.mk .call operand).size) = m₁ at hbegins hregular
  have hstack : m₁.stack = m.stack := by rw [← hm₁, stack_entered]
  have hopened : m₁.openUpvalues = m.openUpvalues := by rw [← hm₁, openUpvalues_entered]
  have hconfig : m₁.config = m.config := by rw [← hm₁, config_entered]
  have hexecuting := hentered.executing
  obtain ⟨b, rfl, -⟩ := hentered.allows
  rw [hm₁] at hexecuting
  obtain ⟨height', hlayout, hheights, hfunctions⟩ := hbegins.exists_chunk hregular
  obtain ⟨-, hbehind, -⟩ := h.seated.balanced.behind_call h.reaches hentered.decode
  have hcalls := h.seated.balanced.calls h.reaches hentered.decode
  have hsize := h.size
  have hbase := hbegins.base
  rw [hstack] at hbase
  have hcallee : m.stack[callee.base]? = some (.object (some callee.closure)) := by
    have hvalue := hbegins.callee
    rw [Machine.callee, hstack, Array.getD_eq_getD_getElem?, Nat.sub_right_comm, ← hbase] at hvalue
    rw [Array.getElem?_eq_getElem (by omega)] at hvalue ⊢
    exact congrArg some hvalue
  refine .call
    { frames := rfl
      waiting := ?_
      seated := ⟨hlayout, hheights, hfunctions, by rw [hstack]; exact hcallee, fun hzero => by omega⟩
      reaches := hbegins.ip ▸ .start
      size := ?_
      room := ?_
      calls := ?_
      apart := ?_ }
  · rw [hstack]
    exact .push h.waiting { h.seated with } h.reaches hentered.decode rfl (by dsimp only; omega)
  · rw [hstack, hbegins.ip, hheights.start]
    omega
  · rw [hstack, hconfig]
    exact h.room
  · have hroom := hbegins.room
    rw [hexecuting.frames] at hroom
    rw [Array.size_push]
    exact hroom
  · intro u hu f hf
    rw [hopened] at hu
    rcases Array.mem_push.1 hf with hf | rfl
    · rcases Array.mem_push.1 hf with hf | rfl
      · exact h.apart u hu f (h.frames ▸ Array.mem_push.2 (.inl hf))
      · exact h.apart u hu frame (h.frames ▸ Array.mem_push.2 (.inr rfl))
    · have hlt := hexecuting.slot_lt_of_replicate (hopened ▸ hu)
      rw [hstack] at hlt
      dsimp only at hlt
      omega

/-- The innermost call has ended. -/
lemma Topped.finish (hnatives : ∀ native ∈ natives, native.Lawful)
    (h : m.Topped frame waiting arity height)
    (hentered : m.Entered natives frame i traced waiting k n a below) (hret : i.opcode = .ret)
    (hrun : execute natives { frame with ip := frame.ip + i.size } i
      (m.entered traced (frame.ip + i.size)) = .ok () m') : m'.Layered := by
  have hopened : ∀ u ∈ m'.openUpvalues, u ∈ m.openUpvalues := by
    intro u hu
    rcases opened_execute hnatives _ hrun hu with hu | ⟨hclosure, -⟩
    · exact openUpvalues_entered m traced _ ▸ hu
    · rw [hret] at hclosure
      cases hclosure
  have hconfig : m'.config = m.config :=
    ((within_config hnatives _ i).ok hrun).trans (config_entered m traced _)
  obtain ⟨op, operand⟩ := i
  cases hret
  have hfloor := h.seated.balanced.returns h.reaches hentered.decode
  obtain ⟨b, rfl⟩ := hentered.allows
  obtain ⟨hframes, hslots, hkept, hresult⟩ := hentered.executing.doReturn_cases hrun
  dsimp only at hslots hkept hresult
  rw [stack_entered] at hkept
  rcases hresult with ⟨rfl, hsize⟩ | ⟨hwaiting, hsize, -⟩
  · have hzero := h.waiting.eq_zero
    rw [hzero] at hslots hsize
    refine .idle hframes ?_ (Array.size_eq_zero_iff.1 hsize)
    exact List.eq_nil_iff_forall_not_mem.2 fun u hu => absurd (hslots u hu) (Nat.not_lt_zero _)
  · obtain ⟨lower, frame', arity', height', rfl, hlower, hseated, hreaches, hlow⟩ :=
      h.waiting.exists_last hwaiting
    have hbelow : ∀ f ∈ lower.push frame', m'.stack[f.base]? = m.stack[f.base]? :=
      fun f hf => hkept f.base (h.waiting.base_lt f hf)
    have hmem : ∀ f ∈ lower.push frame', f ∈ m.frames :=
      fun f hf => h.frames ▸ Array.mem_push.2 (.inl hf)
    have hsize' := h.size
    have hroom := h.room
    have hcalls := h.calls
    refine .call
      { frames := hframes
        waiting := hlower.of_callees fun f hf => hbelow f (Array.mem_push.2 (.inl hf))
        seated := { hseated with callee := ?_ }
        reaches := hreaches
        size := hsize.trans hlow
        room := by rw [hconfig]; omega
        calls := ?_
        apart := fun u hu f hf => h.apart u (hopened u hu) f (hmem f (hframes ▸ hf)) }
    · exact (hbelow frame' (Array.mem_push.2 (.inr rfl))).trans hseated.callee
    · rw [h.frames, Array.size_push] at hcalls
      rw [hframes, hconfig]
      omega

/-- A step that completes leaves the active calls lying on the stack. -/
theorem Layered.step (hnatives : ∀ native ∈ natives, native.Lawful ∧ native.Contained)
    (h : m.Layered) (hregular : m.heap.Regular) (hrunning : m.Running (n + 1))
    (hframe : m.frames.back? = some frame)
    (hstep : (do betweenInstructions frame; Machine.step natives frame : MachineM Unit) m =
      .ok () m') : m'.Layered := by
  have hlawful : ∀ native ∈ natives, native.Lawful := fun native hn => (hnatives native hn).1
  obtain ⟨i, traced, waiting, k, a, below, hentered⟩ := hrunning.entered hframe natives
  rw [hentered.step] at hstep
  have hregular₁ := (upholds_entered Heap.lasting_regular m traced (frame.ip + i.size)
    hrunning.sound.intact).2 hregular
  cases h with
  | idle hframes _ _ =>
    rw [hframes] at hframe
    cases hframe
  | @call frame' waiting' arity height h =>
    obtain ⟨rfl, rfl⟩ := Array.push_eq_push.1 (h.frames.symm.trans hentered.frames)
    rcases hentered.executing.frames_execute hlawful hentered.allows hstep with
      ⟨ip, hip, hframes⟩ | ⟨hcall, callee, hbegins, rfl⟩ | ⟨hret, -⟩
    · exact .call (h.goOn hnatives hentered hstep hip hframes)
    · exact h.begin hentered hregular₁ hcall hbegins
    · exact h.finish hlawful hentered hret hstep

/-- The functions on the heap stay regular, since those of the running code are. -/
theorem Layered.regular_step (hnatives : ∀ native ∈ natives, native.Lawful) (h : m.Layered)
    (hrunning : m.Running (n + 1)) (hframe : m.frames.back? = some frame) :
    m.Upholds Heap.Regular
      (left (do betweenInstructions frame; Machine.step natives frame : MachineM Unit) m) := by
  refine hrunning.upholds_step Heap.lasting_regular hnatives hframe fun i traced _ _ _ _ _ _ => ?_
  refine (within_makeClosure_regular ?_ i.operand).left _
  cases h with
  | idle hframes _ _ =>
    rw [hframes] at hframe
    cases hframe
  | call h =>
    rw [h.frames, Array.back?_push] at hframe
    cases hframe
    exact h.seated.functions

end Steps

end Machine

end Lox
