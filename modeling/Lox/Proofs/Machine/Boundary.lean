import Lox.Proofs.Machine.Captured
import Lox.Proofs.Machine.Footprint

/-!
# From one boundary to the next

A run stands at a boundary whenever an instruction is complete.  This file says what an instruction
does to the active calls and to their slots, from a boundary on (`Running.entered`).
`interpret_succ` puts the steps of a script together, since running with a larger budget is going on
from where the smaller budget has stopped the run.

An instruction changes the innermost active call only in where it goes on, unless it begins a call
or ends one (`Executing.frames_execute`).  It does not write below the slots of this call, unless it
assigns to a captured variable there (`Executing.slots_execute`).
-/

namespace Lox.Machine

/-! ## Steps -/

section Steps

variable {m : Machine} {frame : Frame} {n : Nat} {natives : Natives}

@[simp] lemma openUpvalues_entered (m : Machine) (traced : Array Text) (ip : Nat) :
    (m.entered traced ip).openUpvalues = m.openUpvalues := by
  unfold entered withTraced collectIfDue
  split <;> rfl

@[simp] lemma globals_entered (m : Machine) (traced : Array Text) (ip : Nat) :
    (m.entered traced ip).globals = m.globals := by
  unfold entered withTraced collectIfDue
  split <;> rfl

@[simp] lemma config_entered (m : Machine) (traced : Array Text) (ip : Nat) :
    (m.entered traced ip).config = m.config := by
  unfold entered withTraced collectIfDue
  split <;> rfl

/-- The next instruction assigns to a captured variable in this slot of the stack, through one of
the running closure's upvalues. -/
def AssignsSlot (m : Machine) (slot : Nat) : Prop :=
  ∃ frame i id, m.frames.back? = some frame ∧ frame.chunk.decode frame.ip = .ok i ∧
    i.opcode = .setUpvalue ∧ (m.upvaluesOf frame.closure)[i.operand]? = some (some id) ∧
    m.heap.get? id = some (.upvalue (.onStack slot))

end Steps

/-! ## Active calls -/

section Calls

variable {m m' : Machine} {frame : Frame} {waiting : Array Frame} {k n : Nat} {a below : Shape}
  {natives : Natives} {i : Instruction}

/-- The slots of an active call are above those of the calls that wait for it. -/
lemma Waiting.base_le {h : Heap} (hw : Waiting h n waiting below) :
    ∀ f ∈ waiting, f.base ≤ below.length := by
  induction hw with
  | nil => simp
  | @cons frame waiting k a below _ _ _ hbase _ ih =>
    intro f hf
    rw [List.length_append]
    rcases Array.mem_push.1 hf with hf | rfl
    · exact Nat.le_trans (ih f hf) (Nat.le_add_left _ _)
    · omega

/-- The end of a call leaves the waiting calls, and below the result what they have on the
stack. -/
lemma Executing.doReturn_cases (h : m.Executing frame waiting k n (false :: a) below)
    (hrun : doReturn frame m = .ok () m') :
    m'.frames = waiting ∧ (∀ u ∈ m'.openUpvalues, u.slot < frame.base) ∧
      (∀ slot < frame.base, m'.stack[slot]? = m.stack[slot]?) ∧
      (waiting = #[] ∧ m'.stack.size = frame.base ∨
        waiting ≠ #[] ∧ m'.stack.size = frame.base + 1 ∧ m'.stack.back? = m.stack.back?) := by
  have hsize := h.size
  rw [List.cons_append, List.length_cons, List.length_append] at hsize
  have hbase := h.base
  have hpos : 0 < m.stack.size := by omega
  have hframes : m.frames.pop = waiting := by rw [h.frames, Array.pop_push]
  have hsound : Sound { m with stack := m.stack.pop } := h.sound.of_eq rfl rfl
  obtain ⟨-, hleft, -⟩ := hsound.closeUpvalues frame.base
  have hheight := size_returned m frame.base
  have hslots : ∀ slot < frame.base, (m.returned frame.base).stack[slot]? = m.stack[slot]? := by
    intro slot hslot
    have hcut : Spares frame.base { m with stack := m.stack.pop }
        { m with stack := resized m.stack.pop frame.base } :=
      .resized (Nat.le_refl _) (by simp only [Array.size_pop]; omega)
    refine (hcut.stack slot hslot).trans ?_
    show m.stack.pop[slot]? = _
    rw [Array.getElem?_pop, if_pos (by omega)]
  rw [doReturn_apply frame hpos, hframes] at hrun
  by_cases hlast : waiting.isEmpty
  · rw [if_pos hlast] at hrun
    cases hrun
    exact ⟨hframes, fun u hu => (hleft u hu).2, hslots, .inl ⟨by simpa using hlast, hheight⟩⟩
  · rw [if_neg hlast, push_apply] at hrun
    by_cases hfull : (m.returned frame.base).config.maxStack ≤ (m.returned frame.base).stack.size
    · rw [if_pos hfull] at hrun
      cases hrun
    · rw [if_neg hfull] at hrun
      cases hrun
      refine ⟨hframes, fun u hu => (hleft u hu).2, fun slot hslot => ?_,
        .inr ⟨by simpa using hlast, ?_, ?_⟩⟩
      · show ((m.returned frame.base).stack.push _)[slot]? = _
        rw [Array.getElem?_push, if_neg (by omega)]
        exact hslots slot hslot
      · rw [Array.size_push, hheight]
      · rw [Array.back?_push]
        simp [Array.back?, Array.back]

/-- An instruction that completes moves the innermost call on to one of its successors, or begins a
call above it, or ends it. -/
lemma Executing.frames_execute (hnatives : ∀ native ∈ natives, native.Lawful)
    (h : m.Executing frame waiting k n a below)
    (hallows : i.Allows frame.chunk k frame.ip (frame.chunk.Runs k n) a)
    (hrun : execute natives frame i m = .ok () m') :
    (∃ ip ∈ i.successors frame.ip, m'.frames = waiting.push { frame with ip }) ∨
      (i.opcode = .call ∧ ∃ callee, m.Begins (m.callee i.operand) i.operand callee ∧
        m' = { m with frames := (waiting.push frame).push callee }) ∨
      i.opcode = .ret ∧ m'.frames = waiting := by
  obtain ⟨op, operand⟩ := i
  have hstay : frame.ip ∈ (Instruction.mk op operand).successors frame.ip → m'.frames = m.frames →
      ∃ ip ∈ (Instruction.mk op operand).successors frame.ip,
        m'.frames = waiting.push { frame with ip } :=
    fun hnext hsame => ⟨frame.ip, hnext, hsame.trans h.frames⟩
  have hjump : ∀ ip ∈ (Instruction.mk op operand).successors frame.ip,
      Machine.setIp ip m = .ok () m' → ∃ ip ∈ (Instruction.mk op operand).successors frame.ip,
        m'.frames = waiting.push { frame with ip } := by
    intro ip hnext hset
    rw [setIp_apply] at hset
    cases hset
    exact ⟨ip, hnext, modify_last h.frames ({ · with ip })⟩
  by_cases hcall : op = .call
  · subst hcall
    rcases call_cases frame operand m with ⟨e, herror⟩ | ⟨callee, hbegins, hok⟩ | ⟨o, hnative⟩
    · rw [herror] at hrun
      cases hrun
    · rw [hok] at hrun
      cases hrun
      exact .inr (.inl ⟨rfl, callee, hbegins, by rw [h.frames]⟩)
    · rw [hnative] at hrun
      refine .inl (hstay (Instruction.mem_successors (by simp) (by simp) (by simp) _)
        ((within_callNative blind_frames.toMild ?_ o operand).ok hrun))
      intro native hmem
      exact (hnatives native hmem).within fun _ _ hhost => (fixed_of_host hhost).1
  by_cases hret : op = .ret
  · subst hret
    obtain ⟨b, rfl⟩ := hallows
    exact .inr (.inr ⟨rfl, (h.doReturn_cases hrun).1⟩)
  refine .inl ?_
  by_cases hjump₁ : op = .jump
  · subst hjump₁
    exact hjump _ (by simp [Instruction.successors]) hrun
  by_cases hjump₂ : op = .jumpIfFalse
  · subst hjump₂
    obtain ⟨ha, -, -⟩ := hallows
    obtain ⟨v, hv⟩ := h.peek (d := 0) (List.length_pos_iff.2 ha)
    unfold execute at hrun
    dsimp only at hrun
    rw [bind_apply, hv] at hrun
    dsimp only at hrun
    by_cases hfalsey : v.isFalsey
    · rw [if_pos hfalsey] at hrun
      exact hjump _ (by simp [Instruction.successors]) hrun
    · rw [if_neg hfalsey] at hrun
      cases hrun
      exact hstay (Instruction.mem_successors (by simp) (by simp) (by simp) _) rfl
  by_cases hjump₃ : op = .loop
  · subst hjump₃
    obtain ⟨hle, -⟩ := hallows
    unfold execute at hrun
    dsimp only at hrun
    rw [if_neg (Nat.not_lt.2 hle)] at hrun
    exact hjump _ (by simp [Instruction.successors]) hrun
  refine hstay (Instruction.mem_successors hjump₁ hjump₃ hret _) ((within_execute blind_frames frame hcall (fun _ _ _ => rfl) ?_
    (fun _ _ _ => rfl) fun _ _ _ => rfl).ok hrun)
  simp [hjump₁, hjump₂, hjump₃, hret]

/-- The height of the stack changes by what the instruction takes and gives, unless a call begins or
ends. -/
lemma Executing.height_execute (hnatives : ∀ native ∈ natives, native.Lawful ∧ native.Contained)
    (h : m.Executing frame waiting k n a below) (hret : i.opcode ≠ .ret)
    (hsize : i.takes ≤ m.stack.size) (hrun : execute natives frame i m = .ok () m')
    (hframes : m'.frames.size = m.frames.size) :
    m'.stack.size + i.takes = m.stack.size + i.gives := by
  by_cases hcall : i.opcode = .call
  · obtain ⟨op, operand⟩ := i
    cases hcall
    rcases call_cases frame operand m with ⟨e, herror⟩ | ⟨callee, -, hok⟩ | ⟨o, hnative⟩
    · rw [herror] at hrun
      cases hrun
    · rw [hok] at hrun
      cases hrun
      simp at hframes
    · have hlow : m.stack.size = m.stack.size - (operand + 1) + (operand + 1) :=
        (Nat.sub_add_cancel hsize).symm
      have hleaves := leaves_callNative hnatives h.sound hlow o
      unfold Leaves at hleaves
      rw [← hnative, hrun] at hleaves
      have hheight := hleaves.2
      simp only [Instruction.takes, Instruction.gives]
      omega
  · exact Machine.execute_height hnatives h.sound hcall hret hsize hrun

/-- An instruction that completes does not write to a slot below what it drops, unless it assigns to a
local or captured variable there. -/
lemma Executing.slot_execute (hnatives : ∀ native ∈ natives, native.Lawful ∧ native.Contained)
    (h : m.Executing frame waiting k n a below)
    (hallows : i.Allows frame.chunk k frame.ip (frame.chunk.Runs k n) a) (hret : i.opcode ≠ .ret)
    (hrun : execute natives frame i m = .ok () m') {slot : Nat}
    (hslot : slot + i.drops < m.stack.size) :
    m'.stack[slot]? = m.stack[slot]? ∨
      (i.opcode = .setLocal ∧ slot = frame.base + i.operand) ∨
      i.opcode = .setUpvalue ∧ ∃ id, (m.upvaluesOf frame.closure)[i.operand]? = some (some id) ∧
        m.heap.get? id = some (.upvalue (.onStack slot)) := by
  obtain ⟨op, operand⟩ := i
  by_cases hlocal : op = .setLocal
  · subst hlocal
    rw [show execute natives frame ⟨.setLocal, operand⟩ m = setLocal (frame.base + operand) m from rfl,
      setLocal_apply (h.slot_of_lt hallows.1)] at hrun
    cases hrun
    by_cases heq : slot = frame.base + operand
    · exact .inr (.inl ⟨rfl, heq⟩)
    · refine .inl ?_
      show (m.stack.setIfInBounds (frame.base + operand) _)[slot]? = _
      rw [Array.getElem?_setIfInBounds_ne (Ne.symm heq)]
  by_cases hupvalue : op = .setUpvalue
  · subst hupvalue
    rcases setUpvalue_cases frame operand m with ⟨f, herror⟩ | ⟨id, v, hplace, hwrite⟩
    · rw [herror] at hrun
      cases hrun
    rw [hwrite] at hrun
    rcases writeUpvalue_cases id v m with ⟨f, herror⟩ | hsame |
      ⟨j, rfl, ⟨slot', hopen, -, hset⟩ | ⟨v', -, hset⟩⟩
    · rw [herror] at hrun
      cases hrun
    · rw [hsame] at hrun
      cases hrun
      exact .inl rfl
    · rw [hset] at hrun
      cases hrun
      by_cases heq : slot' = slot
      · subst heq
        exact .inr (.inr ⟨rfl, j, hplace, hopen⟩)
      · refine .inl ?_
        show (m.stack.setIfInBounds slot' v)[slot]? = _
        rw [Array.getElem?_setIfInBounds_ne heq]
    · rw [hset] at hrun
      cases hrun
      exact .inl rfl
  by_cases hclose : op = .closeUpvalue
  · subst hclose
    dsimp only [Instruction.drops, Instruction.takes] at hslot
    rw [closeUpvalue_apply frame operand (by omega)] at hrun
    cases hrun
    refine .inl ?_
    show m.stack.pop[slot]? = _
    rw [Array.getElem?_pop, if_pos (by omega)]
  have hlow : m.stack.size = m.stack.size - (Instruction.mk op operand).drops +
      (Instruction.mk op operand).drops := by
    omega
  have hleaves := execute_leaves hnatives h.sound ⟨hlocal, hupvalue, hclose, hret⟩ hlow frame
  unfold Leaves at hleaves
  rw [hrun] at hleaves
  exact .inl (hleaves.1.stack slot (by omega))

/-- An instruction that completes does not write below the slots of its call, unless it assigns to
a captured variable there. -/
lemma Executing.slots_execute (hnatives : ∀ native ∈ natives, native.Lawful ∧ native.Contained)
    (h : m.Executing frame waiting k n a below)
    (hallows : i.Allows frame.chunk k frame.ip (frame.chunk.Runs k n) a)
    (hrun : execute natives frame i m = .ok () m') {slot : Nat} (hslot : slot < frame.base) :
    m'.stack[slot]? = m.stack[slot]? ∨ i.opcode = .setUpvalue ∧
      ∃ id, (m.upvaluesOf frame.closure)[i.operand]? = some (some id) ∧
        m.heap.get? id = some (.upvalue (.onStack slot)) := by
  by_cases hret : i.opcode = .ret
  · obtain ⟨op, operand⟩ := i
    cases hret
    obtain ⟨b, rfl⟩ := hallows
    exact .inl ((h.doReturn_cases hrun).2.2.1 slot hslot)
  have hlow : slot + i.drops < m.stack.size := by
    have hdrops := hallows.drops_le
    have hsize := h.size
    have hbase := h.base
    rw [List.length_append] at hsize
    omega
  rcases h.slot_execute hnatives hallows hret hrun hlow with hsame | ⟨-, heq⟩ | hassigns
  · exact .inl hsame
  · omega
  · exact .inr hassigns

end Calls

/-! ## Scripts -/

section Scripts

variable {m : Machine} {natives : Natives} {script : Prototype}

/-- Between two boundaries of a script an instruction was executed that completed or failed, or
the script is over. -/
lemma Sound.interpret_succ (hnatives : ∀ native ∈ natives, native.Lawful ∧ native.Contained)
    (hscript : script.Verified) (h : m.Sound) (n : Nat) :
    ((m.interpret natives n script).2.frames = #[] ∧
      (m.interpret natives (n + 1) script).2 = (m.interpret natives n script).2) ∨
    (∀ k, (m.interpret natives n script).2.Running k) ∧
      ∃ frame, (m.interpret natives n script).2.frames.back? = some frame ∧
        ((do betweenInstructions frame; step natives frame : MachineM Unit)
            (m.interpret natives n script).2 = .ok () (m.interpret natives (n + 1) script).2 ∨
          ∃ cause m', (do betweenInstructions frame; step natives frame : MachineM Unit)
              (m.interpret natives n script).2 = .error (.runtime cause) m' ∧
            (m.interpret natives (n + 1) script).2 = m'.resetStack) := by
  rcases h.interpret_cases hscript natives fun _ => True with
    ⟨e, m', -, -, hframes, -, hinterpret⟩ | ⟨m', hrunning, -, hinterpret⟩
  · rw [hinterpret, hinterpret]
    exact .inl ⟨hframes, rfl⟩
  have hrun := fun k => (hrunning (n + k)).run hnatives
  rw [hinterpret, hinterpret]
  cases hresult : run natives n m' with
  | ok _ m₁ =>
    simp only [hresult] at hrun
    obtain ⟨-, hframes, hsame⟩ := hrun 0
    rw [hsame 1]
    exact .inl ⟨hframes, rfl⟩
  | error e m₁ =>
    cases e with
    | fault f =>
      simp only [hresult] at hrun
      exact (hrun 0).elim
    | runtime cause =>
      simp only [hresult] at hrun
      obtain ⟨-, hsame⟩ := hrun 0
      rw [hsame 1]
      exact .inl ⟨rfl, rfl⟩
    | suspended =>
      simp only [hresult] at hrun
      rw [(hrun 0).2 1, run_succ_apply]
      have hrunning₁ : ∀ k, m₁.Running k := fun k => (hrun k).1
      cases hframe : m₁.frames.back? with
      | none =>
        refine .inl ⟨?_, rfl⟩
        show m₁.frames = #[]
        simpa using hframe
      | some frame =>
        refine .inr ⟨hrunning₁, frame, hframe, ?_⟩
        have hstep := (hrunning₁ 1).step hnatives hframe
        dsimp only
        cases hnext : (do betweenInstructions frame; step natives frame : MachineM Unit) m₁ with
        | ok _ m₂ => exact .inl hnext
        | error e m₂ =>
          rw [hnext] at hstep
          cases e with
          | runtime cause => exact .inr ⟨cause, m₂, hnext, rfl⟩
          | fault f => exact hstep.elim
          | suspended => exact hstep.elim

end Scripts

end Lox.Machine
