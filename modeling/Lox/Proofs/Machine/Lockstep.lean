import Lox.Proofs.Machine.Concurrence
import Lox.Proofs.Machine.Layering
import Lox.Proofs.Semantics.Simulation

/-!
# Scripts in lockstep

Two scripts may have a stretch of code in common (`Chunk.Shares`): the first begins with it, and in the
second it may stand anywhere.  Two machines that run the two scripts in this stretch stay in lockstep
(`InStep.step`).  They do the same instruction by instruction, also in the functions that are called
meanwhile, until an error, or until the script's own code has come to the end of the stretch
(`InStep.run`).  The bottom of the stack, where the closures of the two scripts are, is not compared.
-/

namespace Lox

/-- How the machines of two scripts are compared: up to source lines, and above the bottom slot. -/
def Comparison.scripts : Comparison :=
  { Likeness.upToLines with low := 1 }

/-- Places in the stretch, and its end. -/
def Pairing.along (w w' : Chunk) (d : Nat) (a : Chart) : Pairing :=
  fun v o v' o' => v = w ∧ v' = w' ∧ o' = d + o ∧ a.Marks o

namespace Machine

section Steps

variable {w w' : Chunk} {d : Nat} {a : Chart} {ρ σ : Renaming} {m m' : Machine}
  {frame frame' : Frame} {i i' : Instruction} {natives : Natives}

/-- The innermost calls may go on at offsets that are the same, or in the stretch. -/
lemma abreast_of {C : Comparison} {S : Pairing} (ip ip' : Nat) {t t' : Nat}
    (hframe : frame.Corresponds C S σ frame')
    (hback : m.frames.back? = some { frame with ip := ip })
    (hback' : m'.frames.back? = some { frame' with ip := ip' })
    (habove : C.low ≤ frame.base → t' = t)
    (hbelow : frame.base < C.low → S frame.chunk t frame'.chunk t') :
    Abreast C S ρ m m' t t' := by
  intro f f' hf hf' _
  rw [hback, Option.some.injEq] at hf
  rw [hback', Option.some.injEq] at hf'
  subst hf hf'
  refine ⟨hframe.base, fun hlow => ?_, hbelow⟩
  obtain ⟨hchunk, -, hname⟩ := hframe.above hlow
  exact ⟨hchunk, habove hlow, hname⟩

/-- What two calls in lockstep are about to execute.  For the call of the script itself it is an
instruction of the stretch. -/
structure Twin (w w' : Chunk) (d : Nat) (a : Chart) (frame frame' : Frame) (i i' : Instruction) :
    Prop where
  decode : frame'.chunk.decode frame'.ip = .ok i'
  matching : i.Matches Chunk.Alike frame.chunk frame'.chunk i'
  above : 1 ≤ frame.base → frame.chunk.Alike frame'.chunk ∧ frame'.ip = frame.ip
  below : frame.base < 1 → frame.chunk = w ∧ frame'.chunk = w' ∧ frame'.ip = d + frame.ip ∧
    ∃ h, ⟨frame.ip, i, h⟩ ∈ a.places 0

lemma Twin.exists (hshares : w.Shares w' d a)
    (hframe : frame.Corresponds .scripts (.along w w' d a) ρ frame')
    (hdecode : frame.chunk.decode frame.ip = .ok i)
    (hinside : frame.base = 0 → frame.ip ≠ a.code.size) : ∃ i', Twin w w' d a frame frame' i i' := by
  by_cases hbase : 1 ≤ frame.base
  · obtain ⟨hchunk, hip, -⟩ := hframe.above hbase
    refine ⟨i, ?_, Likeness.upToLines.instruction_matches hchunk i, fun _ => ⟨hchunk, hip⟩, ?_⟩
    · rw [hip, Likeness.upToLines.decode_eq hchunk, hdecode]
    · exact fun hbelow => absurd hbase (Nat.not_le.2 hbelow)
  · have hbelow : frame.base < 1 := Nat.not_le.1 hbase
    obtain ⟨hchunk, hchunk', hip, hmarks⟩ := hframe.below hbelow
    rcases hmarks with hend | ⟨q, hq, hoffset⟩
    · exact absurd hend (hinside (Nat.lt_one_iff.1 hbelow))
    obtain ⟨i', hdecode', hmatching⟩ := hshares.matching q hq
    have hinstruction : q.instruction = i := by
      have hsame := hshares.decode q hq
      rw [hoffset, ← hchunk, hdecode, Except.ok.injEq] at hsame
      exact hsame.symm
    rw [hinstruction] at hmatching
    refine ⟨i', ?_, ?_, fun h => absurd h hbase, fun _ => ⟨hchunk, hchunk', hip, q.height, ?_⟩⟩
    · rw [hchunk', hip, ← hoffset, hdecode']
    · rwa [hchunk, hchunk']
    · rw [← hinstruction, ← hoffset]
      exact hq

/-- Where the calls go on is in the stretch again. -/
lemma Twin.goesOn (h : Twin w w' d a frame frame' i i') (t t' : Nat)
    (habove : frame'.ip = frame.ip → t' = t)
    (hbelow : ∀ h, ⟨frame.ip, i, h⟩ ∈ a.places 0 → frame'.ip = d + frame.ip → t' = d + t ∧ a.Marks t) :
    (1 ≤ frame.base → t' = t) ∧
      (frame.base < 1 → Pairing.along w w' d a frame.chunk t frame'.chunk t') := by
  refine ⟨fun hbase => habove (h.above hbase).2, fun hbase => ?_⟩
  obtain ⟨hchunk, hchunk', hip, height, hq⟩ := h.below hbase
  obtain ⟨htarget, hmarks⟩ := hbelow height hq hip
  exact ⟨hchunk, hchunk', htarget, hmarks⟩

lemma Twin.goesOn_next (h : Twin w w' d a frame frame' i i') :
    (1 ≤ frame.base → frame'.ip + i'.size = frame.ip + i.size) ∧
      (frame.base < 1 → Pairing.along w w' d a frame.chunk (frame.ip + i.size) frame'.chunk
        (frame'.ip + i'.size)) := by
  rw [h.matching.size_eq]
  refine h.goesOn _ _ (fun hip => by rw [hip]) fun height hq hip => ⟨?_, Chart.marks_next hq⟩
  rw [hip, Nat.add_assoc]

/-- What an instruction of two calls in lockstep reaches is compared. -/
lemma Twin.comparable {waiting : Array Frame} {arity : Nat} {height : Nat → Nat}
    (h : Twin w w' d a frame frame' i i') (hshares : w.Shares w' d a)
    (htopped : m.Topped frame waiting arity height)
    (hdecode : frame.chunk.decode frame.ip = .ok i)
    (hframe : frame.Corresponds .scripts (.along w w' d a) σ frame') {n n' : Machine}
    (hstack : n.stack = m.stack)
    (hback : n.frames.back? = some { frame with ip := frame.ip + i.size })
    (hback' : n'.frames.back? = some { frame' with ip := frame'.ip + i'.size }) :
    Comparable .scripts (.along w w' d a) σ n n' { frame with ip := frame.ip + i.size }
      { frame' with ip := frame'.ip + i'.size } i i' := by
  have hbalanced := htopped.seated.balanced
  have hfloor := hbalanced.floor htopped.reaches hdecode
  have hsize := htopped.size
  have hclosure : 1 ≤ frame.base → σ frame.closure frame'.closure := hframe.closure
  have hleads : frame.base < 1 → ∃ h, Place.Leads frame.chunk 0 0 (fun p => a.Marks p.offset)
      ⟨frame.ip, i, h⟩ := by
    intro hbase
    obtain ⟨hchunk, -, -, h, hq⟩ := h.below hbase
    exact ⟨h, hchunk ▸ hshares.leads _ hq⟩
  have htarget : ∀ {t t' : Nat}, t ∈ i.successors (frame.ip + i.size) →
      (frame'.ip + i'.size = frame.ip + i.size → t' = t) →
      (frame'.ip + i'.size = d + (frame.ip + i.size) → t' = d + t) →
      Abreast .scripts (.along w w' d a) σ n n' t t' := by
    intro t t' ht habove hbelow
    rw [h.matching.size_eq] at habove hbelow
    obtain ⟨hsame, halong⟩ := h.goesOn t t' (fun hip => habove (by rw [hip]))
      fun height hq hip => ⟨hbelow (by rw [hip, Nat.add_assoc]), by
        obtain ⟨j, hj⟩ := (hshares.leads _ hq).leads t ht
        exact hj⟩
    exact abreast_of _ _ hframe hback hback' hsame halong
  constructor
  case base => exact hframe.base
  case matching => exact h.matching
  case floor =>
    show 1 ≤ n.stack.size - i.takes
    rw [hstack]
    omega
  case locals =>
    intro hlocal
    obtain ⟨hpos, -⟩ := hbalanced.locals htopped.reaches hdecode (.inl hlocal)
    exact Nat.le_add_left_of_le hpos
  case upvalues =>
    intro hupvalue
    by_cases hbase : 1 ≤ frame.base
    · exact hclosure hbase
    -- The script itself has no captured variables.
    · obtain ⟨height, hplace⟩ := hleads (Nat.not_le.1 hbase)
      have hrange := hplace.inRange
      obtain ⟨op, operand⟩ := i
      rcases hupvalue with rfl | rfl <;> exact absurd hrange (Nat.not_lt_zero _)
  case captures =>
    intro hop p hp c hc
    obtain ⟨op, operand⟩ := i
    cases hop
    unfold Capture.Comparable
    split
    · rename_i hlocal
      obtain ⟨p', hp', hcaptures⟩ := hbalanced.captures htopped.reaches hdecode
      obtain rfl : p = p' := Option.some.inj (hp.symm.trans hp')
      exact Nat.le_add_left_of_le (hcaptures c hc hlocal).1
    · rename_i hlocal
      by_cases hbase : 1 ≤ frame.base
      · exact hclosure hbase
      · obtain ⟨height, hplace⟩ := hleads (Nat.not_le.1 hbase)
        obtain ⟨p', hp', hrange⟩ := hplace.inRange
        obtain rfl : p = p' := Option.some.inj (hp.symm.trans hp')
        exact absurd (hrange c hc (by simpa using hlocal)) (Nat.not_lt_zero _)
  case jumps =>
    intro hop
    refine htarget ?_ (fun hip => by dsimp only; omega) fun hip => by dsimp only; omega
    obtain ⟨op, operand⟩ := i
    rcases hop with rfl | rfl <;> simp [Instruction.successors]
  case loops =>
    intro hop
    obtain ⟨op, operand⟩ := i
    cases hop
    dsimp only
    have hback : ∀ {ip ip' : Nat}, (1 ≤ frame.base → ip' = ip) → (frame.base < 1 → ip' = d + ip ∧
        operand ≤ ip) → (ip' < operand ↔ ip < operand) := by
      intro ip ip' habove hbelow
      by_cases hbase : 1 ≤ frame.base
      · rw [habove hbase]
      · obtain ⟨hip, hle⟩ := hbelow (Nat.not_le.1 hbase)
        omega
    obtain ⟨hsame, halong⟩ := h.goesOn_next
    refine ⟨hback hsame fun hbase => ?_, fun hle => ?_⟩
    · obtain ⟨height, hplace⟩ := hleads hbase
      obtain ⟨-, -, hip, -⟩ := halong hbase
      exact ⟨hip, hplace.inRange⟩
    · refine htarget (by simp [Instruction.successors]) (fun hip => ?_) fun hip => ?_
      · rw [hip]
      · rw [hip]
        exact Nat.add_sub_assoc hle d

/-! ## Machines in lockstep -/

/-- Between two instructions each machine collects if it finds it due, and then both calls go on. -/
lemma Corresponds.entered {C : Comparison} {S : Pairing} (hr : m.Corresponds C S ρ m')
    (hlow : C.low ≠ 0) (hback : m.frames.back? = some frame) (hback' : m'.frames.back? = some frame')
    {ip ip' : Nat} (habove : C.low ≤ frame.base → ip' = ip)
    (hbelow : frame.base < C.low → S frame.chunk ip frame'.chunk ip') (traced traced' : Array Text) :
    ∃ σ, (m.entered traced ip).Corresponds C S σ (m'.entered traced' ip') ∧
      frame.Corresponds C S σ frame' := by
  obtain ⟨σ, hr₁⟩ := hr.collectIfDue
  have hframe := hr₁.back_collectIfDue hback hback'
  have hr₂ : Corresponds C S σ (m.collectIfDue.withTraced traced)
      (m'.collectIfDue.withTraced traced') := { hr₁ with traced := fun h => absurd h hlow }
  refine ⟨σ, hr₂.moved ?_, hframe⟩
  refine abreast_of frame.ip frame'.ip hframe ?_ ?_ habove hbelow
  · exact (congrArg Array.back? (frames_collectIfDue m)).trans hback
  · exact (congrArg Array.back? (frames_collectIfDue m')).trans hback'

/-- Two machines in lockstep.  The first is in order. -/
structure InStep (w w' : Chunk) (d : Nat) (a : Chart) (m m' : Machine) : Prop where
  corresponds : ∃ ρ, m.Corresponds .scripts (.along w w' d a) ρ m'
  layered : m.Layered
  running : ∀ k, m.Running k
  regular : m.heap.Regular

lemma back?_entered (hback : m.frames.back? = some frame) (traced : Array Text) (ip : Nat) :
    (m.entered traced ip).frames.back? = some { frame with ip } := by
  have hframes : (m.entered traced ip).frames = m.frames.modify (m.frames.size - 1) ({ · with ip }) := by
    unfold Machine.entered Machine.withTraced
    dsimp only
    rw [frames_collectIfDue]
  rw [Array.back?] at hback
  rw [hframes, Array.back?, Array.size_modify, Array.getElem?_modify, if_pos rfl, hback]
  rfl

/-- From one boundary to the next, unless the script's own code is at the end of the stretch. -/
theorem InStep.step (hnatives : ∀ native ∈ natives,
      native.Lawful ∧ native.Contained ∧ native.FunctionalUnder .scripts (.along w w' d a))
    (hshares : w.Shares w' d a) (h : InStep w w' d a m m') (hback : m.frames.back? = some frame)
    (hinside : frame.base = 0 → frame.ip ≠ a.code.size) :
    ∃ frame', m'.frames.back? = some frame' ∧
      match (do betweenInstructions frame; Machine.step natives frame : MachineM Unit) m,
        (do betweenInstructions frame'; Machine.step natives frame' : MachineM Unit) m' with
      | .ok _ n, .ok _ n' => InStep w w' d a n n'
      | .error e n, .error e' n' =>
        e = e' ∧ ∃ σ, n.Corresponds .scripts (.along w w' d a) σ n'
      | _, _ => False := by
  obtain ⟨ρ, hr⟩ := h.corresponds
  have hlawful : ∀ native ∈ natives, native.Lawful ∧ native.Contained :=
    fun native hn => ⟨(hnatives native hn).1, (hnatives native hn).2.1⟩
  rcases hr.back? with ⟨hnone, -⟩ | ⟨f, frame', hf, hback', hframe⟩
  · rw [hback] at hnone
    cases hnone
  obtain rfl : f = frame := by
    rw [hback, Option.some.injEq] at hf
    exact hf.symm
  refine ⟨frame', hback', ?_⟩
  obtain ⟨i, traced, waiting, k, b, below, hentered⟩ := (h.running 1).entered hback natives
  obtain ⟨waiting, arity, height, htopped⟩ :
      ∃ waiting arity height, m.Topped f waiting arity height := by
    cases h.layered with
    | idle hframes _ _ =>
      rw [hframes] at hback
      cases hback
    | @call g waiting arity height htopped =>
      rw [htopped.frames, Array.back?_push] at hback
      cases hback
      exact ⟨waiting, arity, height, htopped⟩
  obtain ⟨i', htwin⟩ := Twin.exists hshares hframe hentered.decode hinside
  obtain ⟨traced', hstep'⟩ := between_step_eq htwin.decode natives m'
  obtain ⟨habove, hbelow⟩ := htwin.goesOn_next
  obtain ⟨σ, hr₁, hframe₁⟩ := hr.entered Nat.one_ne_zero hback hback' habove hbelow traced traced'
  have hcomparable := htwin.comparable hshares htopped hentered.decode hframe₁
    (stack_entered m traced (f.ip + i.size)) (back?_entered hback traced _)
    (back?_entered hback' traced' _)
  have hconcur := execute_concur (fun native hn => (hnatives native hn).2.2) hr₁ hcomparable
  rw [Concur, ← hstep', ← hentered.step] at hconcur
  cases hrun : (do betweenInstructions f; Machine.step natives f : MachineM Unit) m with
  | error e n =>
    rw [hrun] at hconcur
    cases hrun' : (do betweenInstructions frame'; Machine.step natives frame' : MachineM Unit) m' with
    | error e' n' =>
      rw [hrun'] at hconcur
      exact hconcur
    | ok _ n' =>
      rw [hrun'] at hconcur
      exact hconcur.elim
  | ok _ n =>
    rw [hrun] at hconcur
    cases hrun' : (do betweenInstructions frame'; Machine.step natives frame' : MachineM Unit) m' with
    | error e' n' =>
      rw [hrun'] at hconcur
      exact hconcur.elim
    | ok _ n' =>
      rw [hrun'] at hconcur
      obtain ⟨τ, hr₂, -⟩ := hconcur
      have hregular := (h.layered.regular_step (fun native hn => (hlawful native hn).1)
        (h.running 1) hback (h.running 0).sound.intact).2 h.regular
      rw [left_ok hrun] at hregular
      refine ⟨⟨τ, hr₂⟩, h.layered.step hlawful h.regular (h.running 1) hback hrun, fun k => ?_, hregular⟩
      have hgoesOn := (h.running (k + 1)).step hlawful hback
      rw [hrun] at hgoesOn
      exact hgoesOn.1

/-- A script does not end within a stretch without a return. -/
lemma InStep.active_of_step (hnatives : ∀ native ∈ natives, native.Lawful)
    (hshares : w.Shares w' d a) (hreturn : ∀ q ∈ a.places 0, q.instruction.opcode ≠ .ret)
    (h : InStep w w' d a m m') (hback : m.frames.back? = some frame)
    (hinside : frame.base = 0 → frame.ip ≠ a.code.size) {n : Machine}
    (hrun : (do betweenInstructions frame; Machine.step natives frame : MachineM Unit) m = .ok () n) :
    n.frames ≠ #[] := by
  obtain ⟨ρ, hr⟩ := h.corresponds
  rcases hr.back? with ⟨hnone, -⟩ | ⟨f, frame', hf, -, hframe⟩
  · rw [hback] at hnone
    cases hnone
  obtain rfl : f = frame := by
    rw [hback, Option.some.injEq] at hf
    exact hf.symm
  obtain ⟨i, traced, waiting, k, b, below, hentered⟩ := (h.running 1).entered hback natives
  rw [hentered.step] at hrun
  rcases hentered.executing.frames_execute hnatives hentered.allows hrun with
    ⟨ip, -, hframes⟩ | ⟨-, callee, -, rfl⟩ | ⟨hret, hframes⟩
  · rw [hframes]
    exact Array.push_ne_empty
  · exact Array.push_ne_empty
  · intro hnone
    have hwaiting : waiting = #[] := hframes.symm.trans hnone
    cases h.layered with
    | idle hidle _ _ =>
      rw [hidle] at hback
      cases hback
    | @call g waiting' arity height htopped =>
      obtain ⟨hsame, rfl⟩ := Array.push_eq_push.1 (htopped.frames.symm.trans hentered.frames)
      have hzero : f.base = 0 := by
        have hstacked := htopped.waiting
        rw [hwaiting] at hstacked
        exact hsame ▸ hstacked.eq_zero
      obtain ⟨i', htwin⟩ := Twin.exists hshares hframe hentered.decode hinside
      obtain ⟨-, -, -, height, hq⟩ := htwin.below (by omega)
      exact hreturn _ hq hret

/-! ## Runs in lockstep -/

lemma run_active (natives : Natives) (hback : m.frames.back? = some frame) (n : Nat) :
    Machine.run natives (n + 1) m =
      match (do betweenInstructions frame; Machine.step natives frame : MachineM Unit) m with
        | .ok _ m' => Machine.run natives n m'
        | .error e m' => .error e m' := by
  have hrun := run_succ_apply natives n m
  rw [hback] at hrun
  exact hrun

/-- The script's own code has come to the end of the stretch. -/
def AtEnd (a : Chart) (m : Machine) : Prop :=
  ∃ frame, m.frames.back? = some frame ∧ frame.base = 0 ∧ frame.ip = a.code.size

/-- The machines do the same for as many instructions as they may, or come to the end of the stretch
together. -/
theorem InStep.run (hnatives : ∀ native ∈ natives,
      native.Lawful ∧ native.Contained ∧ native.FunctionalUnder .scripts (.along w w' d a))
    (hshares : w.Shares w' d a) (h : InStep w w' d a m m') (n : Nat) :
    (Concur .scripts (.along w w' d a) (Machine.run natives n) (Machine.run natives n) m m' Anything ∧
      ((∀ q ∈ a.places 0, q.instruction.opcode ≠ .ret) → m.frames ≠ #[] →
        ∀ n₁, Machine.run natives n m ≠ .ok () n₁)) ∨
    ∃ k ≤ n, ∃ m₁ m₁', m.Leads natives k m₁ ∧ m'.Leads natives k m₁' ∧ InStep w w' d a m₁ m₁' ∧
      m₁.AtEnd a := by
  have hlawful : ∀ native ∈ natives, native.Lawful := fun native hn => (hnatives native hn).1
  induction n generalizing m m' with
  | zero =>
    obtain ⟨ρ, hr⟩ := h.corresponds
    exact .inl ⟨.throw hr _, fun _ _ n₁ hrun => nomatch hrun⟩
  | succ n ih =>
    cases hback : m.frames.back? with
    | none =>
      obtain ⟨ρ, hr⟩ := h.corresponds
      rcases hr.back? with ⟨-, hnone'⟩ | ⟨f, f', hf, -, -⟩
      · refine .inl ⟨?_, fun _ hactive => absurd (by simpa using hback) hactive⟩
        have hdone : Machine.run natives (n + 1) m = .ok () m := by rw [run_succ_apply, hback]
        have hdone' : Machine.run natives (n + 1) m' = .ok () m' := by rw [run_succ_apply, hnone']
        exact .of_ok hdone hdone' hr trivial
      · rw [hback] at hf
        cases hf
    | some frame =>
      by_cases hend : frame.base = 0 ∧ frame.ip = a.code.size
      · exact .inr ⟨0, Nat.zero_le _, m, m', .refl natives m, .refl natives m', h, frame, hback, hend⟩
      have hinside : frame.base = 0 → frame.ip ≠ a.code.size := fun hbase hip => hend ⟨hbase, hip⟩
      obtain ⟨frame', hback', hstep⟩ := h.step hnatives hshares hback hinside
      cases hrun : (do betweenInstructions frame; Machine.step natives frame : MachineM Unit) m with
      | error e m₁ =>
        cases hrun' : (do betweenInstructions frame'; Machine.step natives frame' : MachineM Unit) m' with
        | ok _ m₁' =>
          rw [hrun, hrun'] at hstep
          exact hstep.elim
        | error e' m₁' =>
          rw [hrun, hrun'] at hstep
          obtain ⟨rfl, σ, hr₁⟩ := hstep
          have hhalt := run_active natives hback n
          have hhalt' := run_active natives hback' n
          rw [hrun] at hhalt
          rw [hrun'] at hhalt'
          refine .inl ⟨.of_error hhalt hhalt' hr₁, fun _ _ n₁ hok => ?_⟩
          rw [hhalt] at hok
          cases hok
      | ok _ m₁ =>
        cases hrun' : (do betweenInstructions frame'; Machine.step natives frame' : MachineM Unit) m' with
        | error e' m₁' =>
          rw [hrun, hrun'] at hstep
          exact hstep.elim
        | ok _ m₁' =>
          rw [hrun, hrun'] at hstep
          have hlead : m.Leads natives 1 m₁ := fun k => by
            rw [Nat.add_comm, run_active natives hback, hrun]
          have hlead' : m'.Leads natives 1 m₁' := fun k => by
            rw [Nat.add_comm, run_active natives hback', hrun']
          rcases ih hstep with ⟨hconcur, hok⟩ | ⟨k, hk, m₂, m₂', hl, hl', hin, hat⟩
          · refine .inl ⟨?_, fun hreturn _ => ?_⟩
            · rw [Concur, Nat.add_comm n 1, hlead, hlead']
              exact hconcur
            · rw [Nat.add_comm n 1, hlead]
              exact hok hreturn (h.active_of_step hlawful hshares hreturn hback hinside hrun)
          · exact .inr ⟨1 + k, by omega, m₂, m₂', hlead.trans hl, hlead'.trans hl', hin, hat⟩

end Steps

end Machine

end Lox
