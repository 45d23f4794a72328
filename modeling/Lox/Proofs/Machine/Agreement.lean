import Lox.Proofs.Machine.Concurrence

/-!
# Machines in agreement

Two machines that are in the same state up to a renaming execute the same instructions to the same
effect: they print the same, fail with the same error at the same place, and are in the same state
up to a renaming afterwards.  `Agree` says this of two computations, and this file proves it up to
the run of a script (`interpret_agree`).  For the instructions it is a case of what holds of machines
whose states correspond (`execute_concur`).

The two machines need not collect at the same moments.  Between instructions each of them collects
if it finds it due, and a renaming survives that (`Corresponds.collectIfDue`).

Host functions are required to be uniform (`Native.Uniform`): on machines in the same state up to a
renaming, they are to give the same results up to a renaming.
-/

namespace Lox

namespace Machine

section Agree

variable {α : Type} {m m' : Machine}

/-- Both computations complete, with machines that are the same up to a renaming and with results
that `Q` relates under this renaming; or both halt for the same reason, with such machines. -/
def Agree (f f' : MachineM α) (m m' : Machine) (Q : Renaming → α → α → Prop) : Prop :=
  match f m, f' m' with
  | .ok a n, .ok a' n' => ∃ σ, n.Renamed σ n' ∧ Q σ a a'
  | .error e n, .error e' n' => e = e' ∧ ∃ σ, n.Renamed σ n'
  | _, _ => False

/-- Agreeing is concurring in everything. -/
lemma agree_iff (S : Pairing) {f f' : MachineM α} {Q : Renaming → α → α → Prop} :
    Agree f f' m m' Q ↔ Concur .same S f f' m m' Q := by
  unfold Agree Concur
  cases f m <;> cases f' m' <;> simp only [renamed_iff (S := S)]

end Agree

end Machine

/-! ## Host functions -/

/-- On machines that are the same up to a renaming, and on arguments that are on their stacks, the
host function gives the same up to a renaming. -/
def Native.Uniform (native : Native) : Prop :=
  ∀ ρ m m', m.Renamed ρ m' → ∀ start,
    Machine.Agree (native (m.stack.extract start m.stack.size))
      (native (m'.stack.extract start m'.stack.size)) m m' Value.Renamed

/-- Being uniform is being functional where everything is compared. -/
lemma Native.uniform_iff (S : Pairing) {native : Native} :
    native.Uniform ↔ native.FunctionalUnder .same S := by
  refine forall₃_congr fun ρ m m' => ?_
  rw [Machine.renamed_iff (S := S)]
  refine forall_congr' fun hr => forall_congr' fun start => ?_
  rw [Machine.agree_iff S]
  exact ⟨fun h _ => h, fun h => h (Nat.zero_le _)⟩

/-- A functional host function is uniform. -/
lemma Native.Functional.uniform {native : Native} (h : native.Functional) : native.Uniform :=
  (Native.uniform_iff fun _ _ _ _ => False).2 (h _ _)

namespace Machine

section Same

variable {S : Pairing} {ρ : Renaming} {m m' : Machine} {natives : Natives} {frame frame' : Frame}

/-! ## Instructions -/

/-- Calls of the same code move in the same way. -/
lemma abreast_same (ip : Nat) : Abreast .same S ρ m m' ip ip := by
  intro f f' _ _ hf
  obtain ⟨hchunk, -, hname⟩ := hf.above (Nat.zero_le _)
  exact ⟨hf.base, fun _ => ⟨hchunk, rfl, hname⟩, fun h => absurd h (Nat.not_lt_zero _)⟩

lemma step_concur (huniform : ∀ native ∈ natives, native.Uniform)
    (hr : m.Corresponds .same S ρ m') (hframe : frame.Renamed ρ frame') :
    Concur .same S (step natives frame) (step natives frame') m m' Anything := by
  rw [step, step, hframe.chunk, hframe.ip]
  split
  · exact .throw hr _
  rename_i i _
  refine .step (setIp_apply _ m) (setIp_apply _ m') ?_
  have hr₁ := hr.moved (abreast_same (frame.ip + i.size))
  refine execute_concur (fun native hn => (Native.uniform_iff S).1 (huniform native hn)) hr₁ ?_
  exact
    { base := hframe.base
      matching := Likeness.same.instruction_matches rfl i
      floor := Nat.zero_le _
      locals := fun _ => Nat.zero_le _
      upvalues := fun _ => hframe.closure
      captures := fun _ p _ c _ => by
        unfold Capture.Comparable
        split
        · exact Nat.zero_le _
        · exact hframe.closure
      jumps := fun _ => abreast_same _
      loops := fun _ => ⟨.rfl, fun _ => abreast_same _⟩ }

/-! ## Runs -/

lemma Corresponds.stackText_eq (hr : m.Corresponds .same S ρ m') : m'.stackText = m.stackText := by
  have hslots : ∀ {l l' : List Value}, List.Forall₂ (Value.Renamed ρ) l l' →
      l'.flatMap m'.slotText = l.flatMap m.slotText := by
    intro l l' hl
    induction hl with
    | nil => rfl
    | cons hv _ ih =>
      rw [List.flatMap_cons, List.flatMap_cons, ih, slotText, slotText, hr.heap.valueText_eq hv]
  rw [stackText, stackText, hslots (renamed_iff.2 hr).stack]

lemma Corresponds.traceInstruction (hr : m.Corresponds .same S ρ m')
    (hframe : frame.Renamed ρ frame') :
    Concur .same S (traceInstruction frame) (traceInstruction frame') m m' fun σ _ _ => σ = ρ := by
  rw [Machine.traceInstruction, Machine.traceInstruction, hframe.chunk, hframe.ip]
  refine .modify ?_
  dsimp only
  rw [hr.stackText_eq]
  have hr₁ : Machine.Corresponds .same S ρ
      { m with traced := m.traced.push (m.stackText ++ frame.chunk.locationText frame.ip) }
      { m' with traced := m'.traced.push (m.stackText ++ frame.chunk.locationText frame.ip) } :=
    { hr with traced := fun _ => congrArg (Array.push · _) (hr.traced rfl) }
  split
  · exact .throw hr₁ _
  · exact .of_ok (modify_apply _ _) (modify_apply _ _) (ρ := ρ)
      { hr₁ with traced := fun _ => congrArg (Array.push · _) (hr₁.traced rfl) } rfl

/-- Between instructions the machines collect, each when it finds it due. -/
lemma Corresponds.betweenInstructions (hr : m.Corresponds .same S ρ m')
    (hback : m.frames.back? = some frame) (hback' : m'.frames.back? = some frame') :
    Concur .same S (betweenInstructions frame) (betweenInstructions frame') m m' fun σ _ _ =>
      frame.Renamed σ frame' := by
  obtain ⟨σ, hr₁⟩ := hr.collectIfDue
  have hframe := Frame.renamed_iff.2 (hr₁.back_collectIfDue hback hback')
  refine .modify (.get ?_)
  rw [hr₁.trace]
  split
  · refine (hr₁.traceInstruction hframe).mono fun σ' _ _ hσ' => ?_
    rw [hσ']
    exact hframe
  · exact .pure hr₁ hframe

/-- Runs of the same length agree, wherever their collections are. -/
theorem run_agree (huniform : ∀ native ∈ natives, native.Uniform) (budget : Nat)
    (hr : m.Renamed ρ m') : Agree (run natives budget) (run natives budget) m m' Anything := by
  have hrun : ∀ ρ m m', m.Corresponds .same (fun _ _ _ _ => False) ρ m' →
      Concur .same (fun _ _ _ _ => False) (run natives budget) (run natives budget) m m' Anything := by
    induction budget with
    | zero => exact fun ρ m m' hr => .throw hr _
    | succ budget ih =>
      intro ρ m m' hr
      refine .get ?_
      rcases hr.back? with ⟨hnone, hnone'⟩ | ⟨frame, frame', hback, hback', -⟩
      · rw [hnone, hnone']
        exact .pure hr trivial
      · rw [hback, hback']
        refine (hr.betweenInstructions hback hback').bind fun σ _ _ n n' hr₁ hframe => ?_
        exact (step_concur huniform hr₁ hframe).bind fun σ' _ _ n n' hr₂ _ => ih σ' n n' hr₂
  exact (agree_iff _).2 (hrun ρ m m' (renamed_iff.1 hr))

/-! ## Scripts -/

lemma Corresponds.loadScript (hr : m.Corresponds .same S ρ m') (script : Prototype) :
    Concur .same S (loadScript script) (loadScript script) m m' fun σ i j => σ i j := by
  have hlike : script.Like (· = ·) script := ⟨rfl, rfl, rfl, optionRel_eq.2 rfl⟩
  refine .modify ((hr.resetStack.allocateClosure hlike).bind fun σ i j n n' hr₁ ⟨_, hij⟩ => ?_)
  refine (hr₁.push (.object (.some hij))).bind fun σ' _ _ n n' hr₂ hσ' => ?_
  subst hσ'
  exact .pure hr₂ hij

lemma Renamed.currentLine_eq (hr : m.Renamed ρ m') : m'.currentLine = m.currentLine := by
  have hframes := hr.frames.length_eq
  have hlast := forall₂_getElem? hr.frames (m.frames.size - 1)
  rw [Array.getElem?_toList, Array.getElem?_toList] at hlast
  rw [Array.length_toList, Array.length_toList] at hframes
  rw [currentLine, currentLine, Array.back?, Array.back?, ← hframes]
  rcases hlast with ⟨hnone, hnone'⟩ | ⟨f, f', hf, hf', hren⟩
  · rw [hnone, hnone']
  · rw [hf, hf', Option.elim_some, Option.elim_some, Frame.line, Frame.line, hren.chunk, hren.ip]

lemma Renamed.stackTrace_eq (hr : m.Renamed ρ m') : m'.stackTrace = m.stackTrace := by
  have hentries : ∀ {l l' : List Frame}, List.Forall₂ (Frame.Renamed ρ) l l' →
      l'.reverse.map Frame.traceEntry = l.reverse.map Frame.traceEntry := by
    intro l l' hl
    induction hl with
    | nil => rfl
    | cons hf _ ih =>
      simp only [List.reverse_cons, List.map_append, ih, List.map_cons, List.map_nil,
        Frame.traceEntry, Frame.line, hf.chunk, hf.ip, hf.name]
  rw [stackTrace, stackTrace, hentries hr.frames]

lemma Renamed.resetStack (hr : m.Renamed ρ m') : m.resetStack.Renamed ρ m'.resetStack :=
  (renamed_iff (S := fun _ _ _ _ => False)).2 (renamed_iff.1 hr).resetStack

lemma Renamed.loadScript (hr : m.Renamed ρ m') (script : Prototype) :
    Agree (Machine.loadScript script) (Machine.loadScript script) m m' fun σ i j => σ i j :=
  (agree_iff fun _ _ _ _ => False).2 ((renamed_iff.1 hr).loadScript script)

/-- A script that was loaded is called, and runs. -/
lemma Renamed.callScript (huniform : ∀ native ∈ natives, native.Uniform) (hr : m.Renamed ρ m')
    {i j : ObjectId} (hij : ρ i j) (script : Prototype) (budget : Nat) :
    Agree (do callClosure i (.ofPrototype script) 0; run natives budget)
      (do callClosure j (.ofPrototype script) 0; run natives budget) m m' Anything := by
  have hcall := (renamed_iff (S := fun _ _ _ _ => False)).1 hr |>.callClosure hij
    (FunctionObject.like_eq.2 (rfl : FunctionObject.ofPrototype script = _))
      (show Comparison.same.low ≤ m.stack.size - 0 - 1 from Nat.zero_le _)
  refine (agree_iff _).2 (hcall.bind fun _ _ _ _ _ hr₁ _ => ?_)
  exact (agree_iff _).1 (run_agree huniform budget (renamed_iff.2 hr₁))

/-- Scripts end in the same way, with the same error at the same place. -/
theorem interpret_agree (huniform : ∀ native ∈ natives, native.Uniform) (budget : Nat)
    (script : Prototype) (hr : m.Renamed ρ m') :
    (m'.interpret natives budget script).1 = (m.interpret natives budget script).1 ∧
      ∃ σ, (m.interpret natives budget script).2.Renamed σ
        (m'.interpret natives budget script).2 := by
  have hload := hr.loadScript script
  rw [Agree] at hload
  simp only [interpret, EStateM.run]
  cases hf : Machine.loadScript script m with
  | error e n =>
    cases hf' : Machine.loadScript script m' with
    | ok j n' =>
      rw [hf, hf'] at hload
      exact hload.elim
    | error e' n' =>
      rw [hf, hf'] at hload
      obtain ⟨rfl, hr₁⟩ := hload
      cases e <;> exact ⟨rfl, hr₁⟩
  | ok i n =>
    cases hf' : Machine.loadScript script m' with
    | error e' n' =>
      rw [hf, hf'] at hload
      exact hload.elim
    | ok j n' =>
      rw [hf, hf'] at hload
      obtain ⟨σ, hr₁, hij⟩ := hload
      have hcall := hr₁.callScript huniform hij script budget
      rw [Agree] at hcall
      dsimp only
      split at hcall
      · rename_i a k a' k' hk hk'
        rw [hk, hk']
        obtain ⟨σ', hr₂, -⟩ := hcall
        exact ⟨rfl, σ', hr₂⟩
      · rename_i e k e' k' hk hk'
        rw [hk, hk']
        obtain ⟨rfl, σ', hr₂⟩ := hcall
        cases e with
        | runtime cause =>
          refine ⟨?_, σ', hr₂.resetStack⟩
          dsimp only
          rw [hr₂.currentLine_eq, hr₂.stackTrace_eq]
        | fault f => exact ⟨rfl, σ', hr₂⟩
        | suspended => exact ⟨rfl, σ', hr₂⟩
      · exact hcall.elim

end Same

end Machine

end Lox
