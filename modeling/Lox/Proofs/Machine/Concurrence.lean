import Mathlib.Data.List.TakeDrop
import Lox.Machine.Native
import Lox.Proofs.Bytecode.Layout
import Lox.Proofs.Machine.Renaming
import Lox.Proofs.Machine.Steps

/-!
# Machines that do the same

Two machines whose states correspond execute matching instructions to the same effect: they print
the same, fail for the same reason, and their states correspond afterwards.  `Concur` says this of
two computations, and this file proves it for everything that an instruction does
(`execute_concur`).

The two states are compared from a slot of the stack on only, so an instruction must not reach below
this slot, and where it goes on must be comparable again (`Comparable`).  Host functions are required
to be functional (`Native.Functional`): on corresponding states they are to give results that
correspond.  A function that looks only at what the language can see of its arguments is functional,
and so is one that collects.
-/

namespace Lox

namespace Machine

/-! ## Concurring computations -/

section Concur

variable {α β : Type} {m m' : Machine} {C : Comparison} {S : Pairing} {ρ : Renaming}

/-- Both computations complete, with machines whose states correspond and with results that `Q`
relates under this renaming; or both halt for the same reason, with such machines. -/
def Concur (C : Comparison) (S : Pairing) (f f' : MachineM α) (m m' : Machine)
    (Q : Renaming → α → α → Prop) : Prop :=
  match f m, f' m' with
  | .ok a n, .ok a' n' => ∃ σ, n.Corresponds C S σ n' ∧ Q σ a a'
  | .error e n, .error e' n' => e = e' ∧ ∃ σ, n.Corresponds C S σ n'
  | _, _ => False

lemma Concur.of_ok {f f' : MachineM α} {Q : Renaming → α → α → Prop} {a a' : α} {n n' : Machine}
    (hf : f m = .ok a n) (hf' : f' m' = .ok a' n') (hr : n.Corresponds C S ρ n') (hQ : Q ρ a a') :
    Concur C S f f' m m' Q := by
  rw [Concur, hf, hf']
  exact ⟨ρ, hr, hQ⟩

lemma Concur.of_error {f f' : MachineM α} {Q : Renaming → α → α → Prop} {e : Halt} {n n' : Machine}
    (hf : f m = .error e n) (hf' : f' m' = .error e n') (hr : n.Corresponds C S ρ n') :
    Concur C S f f' m m' Q := by
  rw [Concur, hf, hf']
  exact ⟨rfl, ρ, hr⟩

lemma Concur.throw {Q : Renaming → α → α → Prop} (hr : m.Corresponds C S ρ m') (e : Halt) :
    Concur C S (throw e) (throw e) m m' Q :=
  .of_error (throw_apply e m) (throw_apply e m') hr

lemma Concur.pure {Q : Renaming → α → α → Prop} {a a' : α} (hr : m.Corresponds C S ρ m')
    (hQ : Q ρ a a') : Concur C S (Pure.pure a) (Pure.pure a') m m' Q :=
  .of_ok (pure_apply a m) (pure_apply a' m') hr hQ

lemma Concur.bind {f f' : MachineM α} {g g' : α → MachineM β} {Q : Renaming → α → α → Prop}
    {R : Renaming → β → β → Prop} (h : Concur C S f f' m m' Q)
    (hg : ∀ σ a a' n n', n.Corresponds C S σ n' → Q σ a a' → Concur C S (g a) (g' a') n n' R) :
    Concur C S (f >>= g) (f' >>= g') m m' R := by
  rw [Concur] at h ⊢
  rw [bind_apply, bind_apply]
  cases hf : f m with
  | ok a n =>
    cases hf' : f' m' with
    | ok a' n' =>
      rw [hf, hf'] at h
      obtain ⟨σ, hr, hQ⟩ := h
      exact hg σ a a' n n' hr hQ
    | error e' n' =>
      rw [hf, hf'] at h
      exact h.elim
  | error e n =>
    cases hf' : f' m' with
    | ok a' n' =>
      rw [hf, hf'] at h
      exact h.elim
    | error e' n' =>
      rw [hf, hf'] at h
      exact h

/-- Steps that complete, and what comes after them. -/
lemma Concur.step {f f' : MachineM α} {g g' : α → MachineM β} {R : Renaming → β → β → Prop}
    {a a' : α} {n n' : Machine} (hf : f m = .ok a n) (hf' : f' m' = .ok a' n')
    (hg : Concur C S (g a) (g' a') n n' R) : Concur C S (f >>= g) (f' >>= g') m m' R := by
  rw [Concur] at hg ⊢
  rw [bind_apply, bind_apply, hf, hf']
  exact hg

/-- Steps that halt. -/
lemma Concur.halt {f f' : MachineM α} {g g' : α → MachineM β} {R : Renaming → β → β → Prop}
    {e : Halt} (hf : f m = .error e m) (hf' : f' m' = .error e m') (hr : m.Corresponds C S ρ m') :
    Concur C S (f >>= g) (f' >>= g') m m' R := by
  rw [Concur, bind_apply, bind_apply, hf, hf']
  exact ⟨rfl, ρ, hr⟩

lemma Concur.get {g g' : Machine → MachineM β} {R : Renaming → β → β → Prop}
    (hg : Concur C S (g m) (g' m') m m' R) : Concur C S (get >>= g) (get >>= g') m m' R :=
  .step (get_apply m) (get_apply m') hg

lemma Concur.modify {f f' : Machine → Machine} {g g' : PUnit → MachineM β}
    {R : Renaming → β → β → Prop} (hg : Concur C S (g ()) (g' ()) (f m) (f' m') R) :
    Concur C S (modify f >>= g) (modify f' >>= g') m m' R :=
  .step (modify_apply f m) (modify_apply f' m') hg

lemma Concur.mono {f f' : MachineM α} {Q R : Renaming → α → α → Prop}
    (h : Concur C S f f' m m' Q) (hQR : ∀ σ a a', Q σ a a' → R σ a a') :
    Concur C S f f' m m' R := by
  rw [Concur] at h ⊢
  split at h
  · obtain ⟨σ, hr, hQ⟩ := h
    exact ⟨σ, hr, hQR _ _ _ hQ⟩
  · exact h
  · exact h.elim

end Concur

/-- Nothing is said of the results. -/
abbrev Anything {α : Type} (_ : Renaming) (_ _ : α) : Prop := True

section Operations

variable {α : Type} {C : Comparison} {S : Pairing} {ρ : Renaming} {m m' : Machine}

/-! ## The stack -/

/-- One more value on both stacks. -/
lemma Corresponds.pushed (hr : m.Corresponds C S ρ m') {v v' : Value} (hv : v.Renamed ρ v') :
    Machine.Corresponds C S ρ { m with stack := m.stack.push v }
      { m' with stack := m'.stack.push v' } :=
  { hr with
    size := by
      dsimp only
      rw [Array.size_push, Array.size_push, hr.size]
    slots := fun i hi => by
      dsimp only
      rw [Array.getElem?_push, Array.getElem?_push, hr.size]
      split
      · exact .some hv
      · exact hr.slots i hi }

lemma Corresponds.push (hr : m.Corresponds C S ρ m') {v v' : Value} (hv : v.Renamed ρ v') :
    Concur C S (push v) (push v') m m' fun σ _ _ => σ = ρ := by
  have hpush := push_apply v m
  have hpush' := push_apply v' m'
  rw [hr.maxStack, hr.size] at hpush'
  split at hpush
  · rename_i hfull
    rw [if_pos hfull] at hpush'
    exact .of_error hpush hpush' hr
  · rename_i hroom
    rw [if_neg hroom] at hpush'
    exact .of_ok hpush hpush' (hr.pushed hv) rfl

lemma Corresponds.push_concur (hr : m.Corresponds C S ρ m') {v v' : Value} (hv : v.Renamed ρ v') :
    Concur C S (Machine.push v) (Machine.push v') m m' Anything :=
  (hr.push hv).mono fun _ _ _ _ => trivial

/-- The values in a slot, if it is taken. -/
lemma Corresponds.slot (hr : m.Corresponds C S ρ m') {i : Nat} (hlow : C.low ≤ i) :
    (m.stack[i]? = none ∧ m'.stack[i]? = none) ∨
      ∃ v v', m.stack[i]? = some v ∧ m'.stack[i]? = some v' ∧ v.Renamed ρ v' := by
  have hslot := hr.slots i hlow
  generalize m.stack[i]? = a, m'.stack[i]? = b at hslot
  cases hslot with
  | none => exact .inl ⟨rfl, rfl⟩
  | some hv => exact .inr ⟨_, _, rfl, rfl, hv⟩

lemma Corresponds.getD (hr : m.Corresponds C S ρ m') {i : Nat} (hlow : C.low ≤ i) :
    (m.stack.getD i .nil).Renamed ρ (m'.stack.getD i .nil) := by
  rw [Array.getD_eq_getD_getElem?, Array.getD_eq_getD_getElem?]
  rcases hr.slot hlow with ⟨hnone, hnone'⟩ | ⟨v, v', hv, hv', hren⟩
  · rw [hnone, hnone']
    exact .nil
  · rw [hv, hv']
    exact hren

/-- One value less on both stacks. -/
lemma Corresponds.popped (hr : m.Corresponds C S ρ m') :
    Machine.Corresponds C S ρ { m with stack := m.stack.pop } { m' with stack := m'.stack.pop } :=
  { hr with
    size := by
      dsimp only
      rw [Array.size_pop, Array.size_pop, hr.size]
    slots := fun i hi => by
      dsimp only
      rw [Array.getElem?_pop, Array.getElem?_pop, hr.size]
      split
      · exact hr.slots i hi
      · exact .none }

/-- Taking the top value, and what comes after it. -/
lemma Corresponds.pop (hr : m.Corresponds C S ρ m') (hlow : C.low ≤ m.stack.size - 1)
    {g g' : Value → MachineM α} {R : Renaming → α → α → Prop}
    (hg : ∀ v v', v.Renamed ρ v' → Concur C S (g v) (g' v') { m with stack := m.stack.pop }
      { m' with stack := m'.stack.pop } R) :
    Concur C S (Machine.pop >>= g) (Machine.pop >>= g') m m' R := by
  have hpop := pop_apply m
  have hpop' := pop_apply m'
  rw [Array.back?] at hpop hpop'
  rw [hr.size] at hpop'
  rcases hr.slot hlow with ⟨hnone, hnone'⟩ | ⟨v, v', hv, hv', hren⟩
  · rw [hnone] at hpop
    rw [hnone'] at hpop'
    exact .halt hpop hpop' hr
  · rw [hv] at hpop
    rw [hv'] at hpop'
    exact .step hpop hpop' (hg v v' hren)

/-- Taking the top value for nothing else. -/
lemma Corresponds.pop_concur (hr : m.Corresponds C S ρ m') (hlow : C.low ≤ m.stack.size - 1) :
    Concur C S (do let _ ← Machine.pop) (do let _ ← Machine.pop) m m' Anything :=
  hr.pop hlow fun _ _ _ => .pure hr.popped trivial

/-- Looking at a value, and what comes after it. -/
lemma Corresponds.peek (hr : m.Corresponds C S ρ m') {d : Nat} (hlow : C.low ≤ m.stack.size - 1 - d)
    {g g' : Value → MachineM α} {R : Renaming → α → α → Prop}
    (hg : ∀ v v', v.Renamed ρ v' → Concur C S (g v) (g' v') m m' R) :
    Concur C S (Machine.peek d >>= g) (Machine.peek d >>= g') m m' R := by
  have hpeek := peek_apply d m
  have hpeek' := peek_apply d m'
  rw [hr.size] at hpeek'
  split at hpeek
  · rename_i hd
    rw [if_pos hd] at hpeek'
    exact .step hpeek hpeek' (hg _ _ (hr.getD hlow))
  · rename_i hd
    rw [if_neg hd] at hpeek'
    exact .halt hpeek hpeek' hr

/-- Assigning to a slot of both. -/
lemma Corresponds.setSlot (hr : m.Corresponds C S ρ m') {v v' : Value} (hv : v.Renamed ρ v')
    (i : Nat) : Machine.Corresponds C S ρ { m with stack := m.stack.setIfInBounds i v }
      { m' with stack := m'.stack.setIfInBounds i v' } :=
  { hr with
    size := by
      dsimp only
      rw [Array.size_setIfInBounds, Array.size_setIfInBounds, hr.size]
    slots := fun k hk => by
      dsimp only
      rw [Array.getElem?_setIfInBounds, Array.getElem?_setIfInBounds, hr.size]
      split
      · split
        · exact .some hv
        · exact .none
      · exact hr.slots k hk }

lemma Corresponds.resized (hr : m.Corresponds C S ρ m') (n : Nat) :
    Machine.Corresponds C S ρ { m with stack := resized m.stack n }
      { m' with stack := resized m'.stack n } :=
  { hr with
    size := by
      dsimp only
      rw [size_resized, size_resized]
    slots := fun i hi => by
      dsimp only
      rw [getElem?_resized, getElem?_resized]
      split
      · exact .some (hr.getD hi)
      · exact .none }

/-! ## The heap -/

lemma Corresponds.intern_concur (hr : m.Corresponds C S ρ m') (t : Text)
    {g g' : ObjectId → MachineM α} {R : Renaming → α → α → Prop}
    (hg : ∀ σ i j, ρ.Le σ → σ i j →
      Machine.Corresponds C S σ { m with heap := (m.heap.intern t).2 }
        { m' with heap := (m'.heap.intern t).2 } →
      Concur C S (g i) (g' j) { m with heap := (m.heap.intern t).2 }
        { m' with heap := (m'.heap.intern t).2 } R) :
    Concur C S (Machine.intern t >>= g) (Machine.intern t >>= g') m m' R :=
  .step (intern_apply t m) (intern_apply t m')
    (hg _ _ _ (ρ.le_add _ _) (ρ.add_self _ _) (hr.intern t))

/-! ## Instructions that compute -/

/-- Two values are replaced by one. -/
lemma Corresponds.replace_two (hr : m.Corresponds C S ρ m') (hlow : C.low ≤ m.stack.size - 2)
    {v v' : Value} (hv : v.Renamed ρ v') :
    Concur C S (do let _ ← Machine.pop; let _ ← Machine.pop; Machine.push v)
      (do let _ ← Machine.pop; let _ ← Machine.pop; Machine.push v') m m' Anything := by
  refine hr.pop (by omega) fun _ _ _ => ?_
  refine hr.popped.pop ?_ fun _ _ _ => hr.popped.popped.push_concur hv
  rw [Array.size_pop]
  omega

lemma Corresponds.binaryNumber (hr : m.Corresponds C S ρ m') (hlow : C.low ≤ m.stack.size - 2)
    {f : Float → Float → Value} (hf : ∀ x y, (f x y).Renamed ρ (f x y)) :
    Concur C S (binaryNumber f) (binaryNumber f) m m' Anything := by
  refine hr.peek (by omega) fun b b' hb => ?_
  refine hr.peek (by omega) fun a a' ha => ?_
  cases ha with
  | number x =>
    cases hb with
    | number y => exact hr.replace_two hlow (hf x y)
    | _ => exact .throw hr _
  | _ => exact .throw hr _

lemma Corresponds.add (hr : m.Corresponds C S ρ m') (hlow : C.low ≤ m.stack.size - 2) :
    Concur C S add add m m' Anything := by
  refine hr.peek (by omega) fun b b' hb => ?_
  refine hr.peek (by omega) fun a a' ha => ?_
  have hs := hr.heap.string?_eq ha
  have ht := hr.heap.string?_eq hb
  cases ha <;> cases hb
  case number.number => exact hr.replace_two hlow (.number _)
  -- Whatever else is added, it is added as strings.
  all_goals
    refine .get ?_
    simp only [← hs, ← ht]
    split
    · exact hr.intern_concur _ fun σ i j _ hij hr₁ => hr₁.replace_two hlow (.object (.some hij))
    · exact .throw hr _

lemma Corresponds.negate (hr : m.Corresponds C S ρ m') (hlow : C.low ≤ m.stack.size - 1) :
    Concur C S negate negate m m' Anything := by
  refine hr.peek hlow fun a a' ha => ?_
  cases ha with
  | number x => exact hr.pop hlow fun _ _ _ => hr.popped.push_concur (.number (-x))
  | _ => exact .throw hr _

lemma Corresponds.not (hr : m.Corresponds C S ρ m') (hlow : C.low ≤ m.stack.size - 1) :
    Concur C S (do let v ← Machine.pop; Machine.push (.bool v.isFalsey))
      (do let v ← Machine.pop; Machine.push (.bool v.isFalsey)) m m' Anything := by
  refine hr.pop hlow fun v v' hv => ?_
  rw [hv.isFalsey_eq]
  exact hr.popped.push_concur (.bool _)

lemma Corresponds.compareEqual (hr : m.Corresponds C S ρ m') (hlow : C.low ≤ m.stack.size - 2)
    (expected : Bool) :
    Concur C S (compareEqual expected) (compareEqual expected) m m' Anything := by
  refine hr.pop (by omega) fun b b' hb => ?_
  refine hr.popped.pop ?_ fun a a' ha => ?_
  · rw [Array.size_pop]
    omega
  · rw [hr.heap.equals_eq ha hb]
    exact hr.popped.popped.push_concur (.bool _)

lemma Corresponds.typeof (hr : m.Corresponds C S ρ m') (hlow : C.low ≤ m.stack.size - 1) :
    Concur C S typeof typeof m m' Anything := by
  refine hr.pop hlow fun v v' hv => .get ?_
  rw [hr.heap.typeName_eq hv]
  exact hr.popped.intern_concur _ fun σ i j _ hij hr₁ => hr₁.push_concur (.object (.some hij))

lemma Corresponds.print (hr : m.Corresponds C S ρ m') (hlow : C.low ≤ m.stack.size - 1) :
    Concur C S print print m m' Anything := by
  refine hr.pop hlow fun v v' hv => ?_
  refine .of_ok (modify_apply _ _) (modify_apply _ _) (ρ := ρ) { hr.popped with printed := ?_ } trivial
  dsimp only
  rw [hr.printed, hr.heap.valueText_eq hv]

/-! ## Variables -/

/-- Reading a string of the code, and what comes after it. -/
lemma Corresponds.readString (hr : m.Corresponds C S ρ m') {w w' : Chunk} {i i' : Nat}
    (hread : w'.strings.get? i' = w.strings.get? i) {g g' : Text → MachineM α}
    {R : Renaming → α → α → Prop} (hg : ∀ t, Concur C S (g t) (g' t) m m' R) :
    Concur C S (readString w i >>= g) (readString w' i' >>= g') m m' R := by
  have hf := readString_apply w i m
  have hf' := readString_apply w' i' m'
  rw [hread] at hf'
  cases ht : w.strings.get? i with
  | some t =>
    rw [ht] at hf hf'
    exact .step hf hf' (hg t)
  | none =>
    rw [ht] at hf hf'
    exact .halt hf hf' hr

lemma Corresponds.setGlobalValue (hr : m.Corresponds C S ρ m') {i j : ObjectId} {v v' : Value}
    (hij : ρ i j) (hv : v.Renamed ρ v') :
    Machine.Corresponds C S ρ { m with globals := m.globals.insert i v }
      { m' with globals := m'.globals.insert j v' } :=
  { hr with globals := hr.globals.insert hr.heap hij hv }

lemma Corresponds.defineGlobal (hr : m.Corresponds C S ρ m') (hlow : C.low ≤ m.stack.size - 1)
    (name : Text) : Concur C S (defineGlobal name) (defineGlobal name) m m' Anything := by
  refine hr.intern_concur name fun σ i j _ hij hr₁ => ?_
  refine hr₁.peek hlow fun v v' hv => .modify ?_
  exact (hr₁.setGlobalValue hij hv).pop_concur hlow

lemma Corresponds.getGlobal (hr : m.Corresponds C S ρ m') (name : Text) :
    Concur C S (getGlobal name) (getGlobal name) m m' Anything := by
  refine hr.intern_concur name fun σ i j _ hij hr₁ => .get ?_
  rcases hr₁.globals.getElem? hr₁.heap hij with ⟨hnone, hnone'⟩ | ⟨v, v', hv, hv', hren⟩
  · rw [hnone, hnone']
    exact .throw hr₁ _
  · rw [hv, hv']
    exact hr₁.push_concur hren

lemma Corresponds.setGlobal (hr : m.Corresponds C S ρ m') (hlow : C.low ≤ m.stack.size - 1)
    (name : Text) : Concur C S (setGlobal name) (setGlobal name) m m' Anything := by
  refine hr.intern_concur name fun σ i j _ hij hr₁ => .get ?_
  rw [Std.TreeMap.contains_eq_isSome_getElem?, Std.TreeMap.contains_eq_isSome_getElem?]
  rcases hr₁.globals.getElem? hr₁.heap hij with ⟨hnone, hnone'⟩ | ⟨v, v', hv, hv', -⟩
  · rw [hnone, hnone']
    exact .throw hr₁ _
  · rw [hv, hv']
    refine hr₁.peek hlow fun w w' hw => ?_
    exact .of_ok (modify_apply _ _) (modify_apply _ _) (hr₁.setGlobalValue hij hw) trivial

lemma Corresponds.getLocal (hr : m.Corresponds C S ρ m') {slot : Nat} (hlow : C.low ≤ slot) :
    Concur C S (getLocal slot) (getLocal slot) m m' Anything := by
  refine .get ?_
  rcases hr.slot hlow with ⟨hnone, hnone'⟩ | ⟨v, v', hv, hv', hren⟩
  · rw [hnone, hnone']
    exact .throw hr _
  · rw [hv, hv']
    exact hr.push_concur hren

lemma Corresponds.setLocal (hr : m.Corresponds C S ρ m') (hlow : C.low ≤ m.stack.size - 1)
    (slot : Nat) : Concur C S (setLocal slot) (setLocal slot) m m' Anything := by
  refine .get ?_
  rw [hr.size]
  split
  · refine hr.peek hlow fun v v' hv => ?_
    exact .of_ok (modify_apply _ _) (modify_apply _ _) (hr.setSlot hv slot) trivial
  · exact .throw hr _

/-! ## Captured variables -/

lemma Corresponds.upvaluesOf (hr : m.Corresponds C S ρ m') {i j : ObjectId} (hij : ρ i j)
    (place : Nat) :
    ((m.upvaluesOf i)[place]? = none ∧ (m'.upvaluesOf j)[place]? = none) ∨
      ∃ u u', (m.upvaluesOf i)[place]? = some u ∧ (m'.upvaluesOf j)[place]? = some u' ∧
        ReferenceRenamed ρ u u' := by
  obtain ⟨o, o', ho, ho', hren⟩ := hr.heap.objects hij
  rw [Machine.upvaluesOf, Machine.upvaluesOf, ho, ho']
  cases hren with
  | closure hmade hus =>
    rw [← Array.getElem?_toList, ← Array.getElem?_toList]
    exact forall₂_getElem? hus place
  | _ => exact .inl ⟨rfl, rfl⟩

/-- Getting at a captured variable, and what comes after it. -/
lemma Corresponds.upvalueAt (hr : m.Corresponds C S ρ m') {frame frame' : Frame}
    (hclosure : ρ frame.closure frame'.closure) (place : Nat) {g g' : Option ObjectId → MachineM α}
    {R : Renaming → α → α → Prop}
    (hg : ∀ u u', ReferenceRenamed ρ u u' → Concur C S (g u) (g' u') m m' R) :
    Concur C S (upvalueAt frame place >>= g) (upvalueAt frame' place >>= g') m m' R := by
  have happly : ∀ (frame : Frame) (m : Machine),
      ((m.upvaluesOf frame.closure)[place]? = none →
        Machine.upvalueAt frame place m = .error (.fault .upvalueOutOfRange) m) ∧
      ∀ u, (m.upvaluesOf frame.closure)[place]? = some u →
        Machine.upvalueAt frame place m = .ok u m := by
    intro frame m
    rw [Machine.upvalueAt, bind_apply, get_apply]
    dsimp only
    refine ⟨fun hnone => ?_, fun u hu => ?_⟩
    · rw [hnone]
      rfl
    · rw [hu]
      rfl
  rcases hr.upvaluesOf hclosure place with ⟨hnone, hnone'⟩ | ⟨u, u', hu, hu', hren⟩
  · exact .halt ((happly frame m).1 hnone) ((happly frame' m').1 hnone') hr
  · exact .step ((happly frame m).2 u hu) ((happly frame' m').2 u' hu') (hg u u' hren)

/-- What corresponding upvalues refer to. -/
lemma Corresponds.upvalue? (hr : m.Corresponds C S ρ m') {u u' : Option ObjectId}
    (hu : ReferenceRenamed ρ u u') :
    (m.upvalue? u = none ∧ m'.upvalue? u' = none) ∨
      (∃ slot, C.low ≤ slot ∧ m.upvalue? u = some (.onStack slot) ∧
        m'.upvalue? u' = some (.onStack slot)) ∨
      ∃ v v', m.upvalue? u = some (.closed v) ∧ m'.upvalue? u' = some (.closed v') ∧
        v.Renamed ρ v' := by
  rw [Machine.upvalue?, Machine.upvalue?]
  rcases hr.heap.get? hu with ⟨hnone, hnone'⟩ | ⟨o, o', ho, ho', hren⟩
  · rw [hnone, hnone']
    exact .inl ⟨rfl, rfl⟩
  · rw [ho, ho']
    cases hren with
    | onStack hlow => exact .inr (.inl ⟨_, hlow, rfl, rfl⟩)
    | closed hv => exact .inr (.inr ⟨_, _, rfl, rfl, hv⟩)
    | _ => exact .inl ⟨rfl, rfl⟩

lemma Corresponds.readUpvalue (hr : m.Corresponds C S ρ m') {u u' : Option ObjectId}
    (hu : ReferenceRenamed ρ u u') :
    Concur C S (readUpvalue u) (readUpvalue u') m m' fun σ v v' => σ = ρ ∧ v.Renamed ρ v' := by
  refine .get ?_
  rcases hr.upvalue? hu with ⟨hx, hx'⟩ | ⟨slot, hlow, hx, hx'⟩ | ⟨v, v', hx, hx', hren⟩
  · rw [hx, hx']
    exact .pure hr ⟨rfl, .nil⟩
  · rw [hx, hx']
    dsimp only
    rcases hr.slot hlow with ⟨hnone, hnone'⟩ | ⟨v, v', hv, hv', hren⟩
    · rw [hnone, hnone']
      exact .throw hr _
    · rw [hv, hv']
      exact .pure hr ⟨rfl, hren⟩
  · rw [hx, hx']
    exact .pure hr ⟨rfl, hren⟩

/-- Captured variables stay captured variables when one of them gets a value of its own. -/
lemma isUpvalue_closeUpvalue {h : Heap} {i k : ObjectId} (v : Value)
    (hupvalue : ∃ x, h.get? k = some (.upvalue x)) :
    ∃ x, (h.closeUpvalue i v).get? k = some (.upvalue x) := by
  obtain ⟨x, hx⟩ := hupvalue
  rw [Heap.closeUpvalue, Heap.get?_update]
  by_cases hk : k = i
  · subst hk
    exact ⟨.closed v, by rw [if_pos rfl, hx, Option.map_some]⟩
  · exact ⟨x, by rw [if_neg hk, hx]⟩

lemma Corresponds.writeUpvalue (hr : m.Corresponds C S ρ m') {u u' : Option ObjectId}
    (hu : ReferenceRenamed ρ u u') {v v' : Value} (hv : v.Renamed ρ v') :
    Concur C S (writeUpvalue u v) (writeUpvalue u' v') m m' Anything := by
  refine .get ?_
  rcases hr.upvalue? hu with ⟨hx, hx'⟩ | ⟨slot, -, hx, hx'⟩ | ⟨w, w', hx, hx', hren⟩
  · rw [hx, hx']
    exact .pure hr trivial
  · rw [hx, hx', hr.size]
    dsimp only
    split
    · exact .of_ok (set_apply m _) (set_apply m' _) (hr.setSlot hv slot) trivial
    · exact .throw hr _
  · rw [hx, hx']
    dsimp only
    cases hu with
    | none => exact .pure hr trivial
    | @some i j hij =>
      have hupvalue : ∃ x, m.heap.get? i = some (.upvalue x) := by
        rw [Machine.upvalue?, Option.bind_some] at hx
        split at hx
        · exact ⟨_, ‹_›⟩
        · cases hx
      refine .of_ok (set_apply m _) (set_apply m' _) (ρ := ρ) ?_ trivial
      exact hr.of_heap (.refl ρ) (hr.heap.closeUpvalue hij hupvalue hv) fun u hu =>
        isUpvalue_closeUpvalue v (hr.upvalues u hu).2

/-- Captured variables get values of their own, one after another. -/
lemma closeAll_corresponds {us us' : List OpenUpvalue} {h h' : Heap} {all : List OpenUpvalue}
    (hr : h.Corresponds C ρ h') (hus : List.Forall₂ (OpenUpvalue.Renamed ρ) us us') (hsub : us ⊆ all)
    (hupvalues : ∀ u ∈ all, C.low ≤ u.slot ∧ ∃ x, h.get? u.id = some (.upvalue x))
    {value value' : Nat → Value}
    (hvalue : ∀ slot, C.low ≤ slot → (value slot).Renamed ρ (value' slot)) :
    (us.foldl (fun h u => h.closeUpvalue u.id (value u.slot)) h).Corresponds C ρ
        (us'.foldl (fun h u => h.closeUpvalue u.id (value' u.slot)) h') ∧
      ∀ u ∈ all, C.low ≤ u.slot ∧
        ∃ x, (us.foldl (fun h u => h.closeUpvalue u.id (value u.slot)) h).get? u.id =
          some (.upvalue x) := by
  induction hus generalizing h h' with
  | nil => exact ⟨hr, hupvalues⟩
  | @cons u u' us us' hu _ ih =>
    obtain ⟨hmem, hrest⟩ := List.cons_subset.1 hsub
    obtain ⟨hlow, hupvalue⟩ := hupvalues u hmem
    have hren : (value u.slot).Renamed ρ (value' u'.slot) := by
      rw [hu.slot]
      exact hvalue u.slot hlow
    exact ih (hr.closeUpvalue hu.id hupvalue hren) hrest fun w hw =>
      ⟨(hupvalues w hw).1, isUpvalue_closeUpvalue _ (hupvalues w hw).2⟩

lemma Corresponds.closeUpvalues (hr : m.Corresponds C S ρ m') (last : Nat) :
    (m.closeUpvalues last).Corresponds C S ρ (m'.closeUpvalues last) := by
  obtain ⟨hclosing, hrest⟩ := forall₂_span (p := fun u => decide (last ≤ u.slot))
    (q := fun u => decide (last ≤ u.slot)) hr.opened fun u u' hu => by rw [hu.slot]
  obtain ⟨hheap, hupvalues⟩ := closeAll_corresponds hr.heap hclosing (List.takeWhile_subset _)
    hr.upvalues fun _ hlow => hr.getD hlow
  have hsub := List.dropWhile_subset (l := m.openUpvalues) fun u => decide (last ≤ u.slot)
  simp only [Machine.closeUpvalues, List.span_eq_takeWhile_dropWhile]
  exact { hr with heap := hheap, opened := hrest, upvalues := fun u hu => hupvalues u (hsub hu) }

/-! ## Closures -/

lemma Corresponds.captureSlot (hr : m.Corresponds C S ρ m') {slot : Nat} (hlow : C.low ≤ slot) :
    Concur C S (captureSlot slot) (captureSlot slot) m m' fun σ i j => ρ.Le σ ∧ σ i j := by
  obtain ⟨habove, hrest⟩ := forall₂_span (p := fun u => decide (slot < u.slot))
    (q := fun u => decide (slot < u.slot)) hr.opened fun u u' hu => by rw [hu.slot]
  have hsplit : m.openUpvalues.takeWhile (fun u => decide (slot < u.slot)) ++
      m.openUpvalues.dropWhile (fun u => decide (slot < u.slot)) = m.openUpvalues :=
    List.takeWhile_append_dropWhile
  rw [Machine.captureSlot]
  refine .get ?_
  simp only [List.span_eq_takeWhile_dropWhile]
  generalize m.openUpvalues.takeWhile (fun u => decide (slot < u.slot)) = above,
    m'.openUpvalues.takeWhile (fun u => decide (slot < u.slot)) = above' at habove hsplit ⊢
  generalize m.openUpvalues.dropWhile (fun u => decide (slot < u.slot)) = rest,
    m'.openUpvalues.dropWhile (fun u => decide (slot < u.slot)) = rest' at hrest hsplit ⊢
  have hnew : Concur C S
      (do
        let id ← Machine.allocate (.upvalue (.onStack slot))
        modify fun m => { m with openUpvalues := above ++ { slot, id } :: rest }
        return id)
      (do
        let id ← Machine.allocate (.upvalue (.onStack slot))
        modify fun m => { m with openUpvalues := above' ++ { slot, id } :: rest' }
        return id) m m' fun σ i j => ρ.Le σ ∧ σ i j := by
    have hr₁ := hr.allocate (.onStack hlow) (by simp)
    have hle := ρ.le_add m.heap.fresh m'.heap.fresh
    have hmono : ∀ u u' : OpenUpvalue, u.Renamed ρ u' →
        u.Renamed (ρ.add m.heap.fresh m'.heap.fresh) u' := fun _ _ h => ⟨h.slot, hle _ _ h.id⟩
    refine .step (allocate_apply _ m) (allocate_apply _ m') (.modify (.pure (ρ := _) ?_
      ⟨hle, ρ.add_self _ _⟩))
    refine { hr₁ with opened := ?_, upvalues := ?_ }
    · exact List.rel_append (habove.imp hmono) (.cons ⟨rfl, ρ.add_self _ _⟩ (hrest.imp hmono))
    · intro u hu
      rcases List.mem_append.1 hu with hu | hu
      · exact hr₁.upvalues u (hsplit ▸ List.mem_append_left _ hu)
      rcases List.mem_cons.1 hu with rfl | hu
      · exact ⟨hlow, .onStack slot, by simp⟩
      · exact hr₁.upvalues u (hsplit ▸ List.mem_append_right _ hu)
  cases hrest with
  | nil => exact hnew
  | @cons u u' rest rest' hu _ =>
    dsimp only at hnew ⊢
    rw [hu.slot]
    by_cases hslot : u.slot = slot
    · rw [if_pos hslot, if_pos hslot]
      exact .pure hr ⟨.refl ρ, hu.id⟩
    · rw [if_neg hslot, if_neg hslot]
      exact hnew

/-- What a capture of a call refers to is compared: a slot, or a captured variable of the call. -/
def Capture.Comparable (C : Comparison) (ρ : Renaming) (frame frame' : Frame) (c : Capture) : Prop :=
  if c.isLocal then C.low ≤ frame.base + c.index else ρ frame.closure frame'.closure

lemma Capture.Comparable.mono {σ : Renaming} {frame frame' : Frame} {c : Capture}
    (h : Capture.Comparable C ρ frame frame' c) (hle : ρ.Le σ) :
    Capture.Comparable C σ frame frame' c := by
  unfold Capture.Comparable at h ⊢
  split at h
  · rwa [if_pos ‹_›]
  · rw [if_neg ‹_›]
    exact hle _ _ h

lemma Corresponds.capture (hr : m.Corresponds C S ρ m') {frame frame' : Frame}
    (hbase : frame'.base = frame.base) {c : Capture} (hc : Capture.Comparable C ρ frame frame' c) :
    Concur C S (capture frame c) (capture frame' c) m m' fun σ u u' =>
      ρ.Le σ ∧ ReferenceRenamed σ u u' := by
  rw [Machine.capture, Machine.capture, hbase]
  unfold Capture.Comparable at hc
  split
  · rename_i hlocal
    rw [if_pos hlocal] at hc
    refine (hr.captureSlot hc).bind fun σ i j n n' hr₁ ⟨hle, hij⟩ => ?_
    exact .pure hr₁ ⟨hle, .some hij⟩
  · rename_i hlocal
    rw [if_neg hlocal] at hc
    refine .get ?_
    rcases hr.upvaluesOf hc c.index with ⟨hnone, hnone'⟩ | ⟨u, u', hu, hu', hren⟩
    · rw [hnone, hnone']
      exact .throw hr _
    · rw [hu, hu']
      exact .pure hr ⟨.refl ρ, hren⟩

/-- Captured variables stay captured variables when a closure gets one. -/
lemma isUpvalue_setUpvalue {h : Heap} {i k : ObjectId} (place : Nat) (u : Option ObjectId)
    (hupvalue : ∃ x, h.get? k = some (.upvalue x)) :
    ∃ x, (h.setUpvalue i place u).get? k = some (.upvalue x) := by
  obtain ⟨x, hx⟩ := hupvalue
  refine ⟨x, ?_⟩
  rw [Heap.setUpvalue]
  split
  · rename_i made us hclosure
    have hne : k ≠ i := by
      rintro rfl
      rw [hx] at hclosure
      cases hclosure
    rw [Heap.get?_update, if_neg hne, hx]
  · exact hx

lemma Corresponds.captureAll (hr : m.Corresponds C S ρ m') {frame frame' : Frame}
    (hbase : frame'.base = frame.base) {i j : ObjectId} (hij : ρ i j) (place : Nat)
    {cs : List Capture} (hcs : ∀ c ∈ cs, Capture.Comparable C ρ frame frame' c) :
    Concur C S (captureAll frame i place cs) (captureAll frame' j place cs) m m'
      fun σ _ _ => σ i j := by
  induction cs generalizing ρ m m' place with
  | nil => exact .pure hr hij
  | cons c cs ih =>
    obtain ⟨hc, hrest⟩ := List.forall_mem_cons.1 hcs
    refine (hr.capture hbase hc).bind fun σ u u' n n' hr₁ ⟨hle, hu⟩ => .modify ?_
    have hheap := hr₁.heap.setUpvalue (hle i j hij) place hu
    exact ih (hr₁.of_heap (.refl σ) hheap fun w hw =>
      isUpvalue_setUpvalue place u (hr₁.upvalues w hw).2) (hle i j hij) (place + 1)
      fun c hc => (hrest c hc).mono hle

lemma Corresponds.allocateClosure (hr : m.Corresponds C S ρ m') {p p' : Prototype}
    (hp : p.Like C.Code p') :
    Concur C S (allocateClosure p) (allocateClosure p') m m' fun σ i j => ρ.Le σ ∧ σ i j := by
  have hr₁ := hr.allocate (.function hp.ofPrototype) (by simp)
  have hclosure : (Object.newClosure (some m.heap.fresh) p.captures.size).Corresponds C
      (ρ.add m.heap.fresh m'.heap.fresh) (.newClosure (some m'.heap.fresh) p'.captures.size) := by
    refine .closure (.some (ρ.add_self _ _)) ?_
    rw [hp.captures, Array.toList_replicate]
    exact forall₂_replicate .none _
  have hr₂ := hr₁.allocate hclosure (by simp [Object.newClosure])
  exact .of_ok (allocateClosure_apply p m) (allocateClosure_apply p' m') hr₂
    ⟨(ρ.le_add _ _).trans (Renaming.le_add _ _ _), Renaming.add_self _ _ _⟩

lemma Corresponds.makeClosure (hr : m.Corresponds C S ρ m') {frame frame' : Frame}
    (hbase : frame'.base = frame.base) {index index' : Nat}
    (hfunctions : Option.Rel (Prototype.Like C.Code) frame.chunk.functions[index]?
      frame'.chunk.functions[index']?)
    (hcaptures : ∀ p, frame.chunk.functions[index]? = some p → ∀ c ∈ p.captures,
      Capture.Comparable C ρ frame frame' c) :
    Concur C S (makeClosure frame index) (makeClosure frame' index') m m' Anything := by
  rw [Machine.makeClosure, Machine.makeClosure]
  generalize frame.chunk.functions[index]? = f at hfunctions hcaptures
  generalize frame'.chunk.functions[index']? = f' at hfunctions
  cases hfunctions with
  | none => exact .throw hr _
  | @some p p' hp =>
    refine (hr.allocateClosure hp).bind fun σ i j n n' hr₁ ⟨hle, hij⟩ => ?_
    rw [hp.captures]
    refine (hr₁.captureAll hbase hij 0 fun c hc => ?_).bind fun σ' _ _ n n' hr₂ hij' => ?_
    · exact (hcaptures p rfl c (Array.mem_toList_iff.1 hc)).mono hle
    · exact hr₂.push_concur (.object (.some hij'))

/-! ## Control -/

lemma Corresponds.back? (hr : m.Corresponds C S ρ m') :
    (m.frames.back? = none ∧ m'.frames.back? = none) ∨
      ∃ f f', m.frames.back? = some f ∧ m'.frames.back? = some f' ∧ f.Corresponds C S ρ f' := by
  rw [Array.back?, Array.back?, hr.frames_size, ← Array.getElem?_toList, ← Array.getElem?_toList]
  exact forall₂_getElem? hr.frames _

/-- The innermost calls may go on at these offsets. -/
def Abreast (C : Comparison) (S : Pairing) (ρ : Renaming) (m m' : Machine) (ip ip' : Nat) : Prop :=
  ∀ f f', m.frames.back? = some f → m'.frames.back? = some f' → f.Corresponds C S ρ f' →
    Frame.Placed C S { f with ip := ip } { f' with ip := ip' }

/-- The innermost calls go on elsewhere. -/
lemma Corresponds.moved (hr : m.Corresponds C S ρ m') {ip ip' : Nat}
    (habreast : Abreast C S ρ m m' ip ip') :
    Machine.Corresponds C S ρ
      { m with frames := m.frames.modify (m.frames.size - 1) ({ · with ip }) }
      { m' with frames := m'.frames.modify (m'.frames.size - 1) ({ · with ip := ip' }) } := by
  refine { hr with frames := ?_ }
  rw [Array.toList_modify, Array.toList_modify, hr.frames_size]
  have hlast : ∀ f f', m.frames.toList[m.frames.size - 1]? = some f →
      m'.frames.toList[m.frames.size - 1]? = some f' → f.Corresponds C S ρ f' →
        Frame.Placed C S { f with ip := ip } { f' with ip := ip' } := by
    intro f f' hf hf'
    rw [Array.getElem?_toList] at hf hf'
    rw [← hr.frames_size] at hf'
    exact habreast f f' hf hf'
  have hframes := hr.frames
  generalize m.frames.toList = l, m'.frames.toList = l' at hframes hlast
  generalize m.frames.size - 1 = last at hlast ⊢
  induction hframes generalizing last with
  | nil => simp
  | cons hf htail ih =>
    cases last with
    | zero => exact .cons { hlast _ _ rfl rfl hf with closure := hf.closure } htail
    | succ last => exact .cons hf (ih last hlast)

lemma Corresponds.jump (hr : m.Corresponds C S ρ m') {ip ip' : Nat}
    (habreast : Abreast C S ρ m m' ip ip') :
    Concur C S (setIp ip) (setIp ip') m m' Anything :=
  .of_ok (setIp_apply ip m) (setIp_apply ip' m') (hr.moved habreast) trivial

/-- Ending the innermost calls. -/
lemma Corresponds.leave (hr : m.Corresponds C S ρ m') :
    Machine.Corresponds C S ρ { m with frames := m.frames.pop } { m' with frames := m'.frames.pop } := by
  refine { hr with frames := ?_ }
  rw [Array.toList_pop, Array.toList_pop, List.dropLast_eq_take, List.dropLast_eq_take,
    hr.frames.length_eq]
  exact List.forall₂_take _ hr.frames

lemma Corresponds.doReturn (hr : m.Corresponds C S ρ m') (hlow : C.low ≤ m.stack.size - 1)
    {frame frame' : Frame} (hbase : frame'.base = frame.base) :
    Concur C S (doReturn frame) (doReturn frame') m m' Anything := by
  rw [Machine.doReturn, Machine.doReturn, hbase]
  refine hr.pop hlow fun v v' hv => .modify ?_
  have hr₁ := ((hr.popped.closeUpvalues frame.base).resized frame.base).leave
  refine .get ?_
  rw [Array.isEmpty, Array.isEmpty, hr₁.frames_size]
  split
  · exact .pure hr₁ trivial
  · exact hr₁.push_concur hv

lemma Corresponds.callClosure (hr : m.Corresponds C S ρ m') {i j : ObjectId} (hij : ρ i j)
    {f f' : FunctionObject} (hf : f.Like C.Code f') {given : Nat}
    (hlow : C.low ≤ m.stack.size - given - 1) :
    Concur C S (callClosure i f given) (callClosure j f' given) m m' Anything := by
  rw [Machine.callClosure, Machine.callClosure, hf.arity]
  dsimp only
  split
  · exact .throw hr _
  refine .get ?_
  rw [hr.maxCalls, hr.frames_size, hr.size]
  split
  · exact .throw hr _
  refine .of_ok (set_apply m _) (set_apply m' _) (ρ := ρ) { hr with frames := ?_ } trivial
  rw [Array.toList_push, Array.toList_push]
  refine List.rel_append hr.frames (.cons ⟨⟨rfl, fun _ => ⟨?_, rfl, hf.name⟩, ?_⟩, fun _ => hij⟩ .nil)
  · exact C.getD hf.chunk
  · exact fun hbelow => absurd hlow (Nat.not_le.2 hbelow)

end Operations

end Machine

/-! ## Host functions -/

/-- On machines whose states correspond, and on arguments that are on their stacks and are compared,
the host function gives results that correspond. -/
def Native.FunctionalUnder (C : Comparison) (S : Pairing) (native : Native) : Prop :=
  ∀ ρ m m', m.Corresponds C S ρ m' → ∀ start, C.low ≤ start →
    Machine.Concur C S (native (m.stack.extract start m.stack.size))
      (native (m'.stack.extract start m'.stack.size)) m m' Value.Renamed

/-- So it does, however the states are compared. -/
def Native.Functional (native : Native) : Prop :=
  ∀ C S, native.FunctionalUnder C S

namespace Machine

section Calls

variable {C : Comparison} {S : Pairing} {ρ : Renaming} {m m' : Machine} {natives : Natives}

lemma Corresponds.callNative (hfunctional : ∀ native ∈ natives, native.FunctionalUnder C S)
    (hr : m.Corresponds C S ρ m') (n : NativeObject) {given : Nat}
    (hlow : C.low ≤ m.stack.size - given) :
    Concur C S (callNative natives n given) (callNative natives n given) m m' Anything := by
  rw [Machine.callNative]
  dsimp only
  split
  · exact .throw hr _
  split
  · exact .throw hr _
  rename_i native hnative
  refine .get ?_
  have hcall := hfunctional native (Array.mem_of_getElem? hnative) ρ m m' hr _ hlow
  rw [hr.size] at hcall ⊢
  refine hcall.bind fun σ v v' k k' hr₁ hv => .modify ?_
  exact (hr₁.resized _).push_concur hv

lemma Corresponds.callValue (hfunctional : ∀ native ∈ natives, native.FunctionalUnder C S)
    (hr : m.Corresponds C S ρ m') {v v' : Value} (hv : v.Renamed ρ v') {given : Nat}
    (hlow : C.low ≤ m.stack.size - given - 1) :
    Concur C S (callValue natives v given) (callValue natives v' given) m m' Anything := by
  refine .get ?_
  cases hv with
  | nil => exact .throw hr _
  | bool b => exact .throw hr _
  | number x => exact .throw hr _
  | object href =>
    cases href with
    | none => exact .throw hr _
    | @some i j hij =>
      obtain ⟨o, o', ho, ho', hren⟩ := hr.heap.objects hij
      simp only [Value.reference?, Heap.deref?, Option.bind_some, ho, ho']
      cases hren with
      | closure hmade hus =>
        dsimp only
        have hfunction := hr.heap.function? hmade
        generalize m.heap.function? _ = f, m'.heap.function? _ = f' at hfunction
        cases hfunction with
        | some hf => exact hr.callClosure hij hf hlow
        | none => exact .throw hr _
      | native n => exact hr.callNative hfunctional n (by omega)
      | _ => exact .throw hr _

/-! ## Instructions -/

/-- What an instruction reaches is compared: the values it takes, the variables it refers to, and
where it may lead. -/
structure Comparable (C : Comparison) (S : Pairing) (ρ : Renaming) (m m' : Machine)
    (frame frame' : Frame) (i i' : Instruction) : Prop where
  base : frame'.base = frame.base
  matching : i.Matches C.Code frame.chunk frame'.chunk i'
  floor : C.low ≤ m.stack.size - i.takes
  locals : i.opcode = .getLocal → C.low ≤ frame.base + i.operand
  upvalues : i.opcode = .getUpvalue ∨ i.opcode = .setUpvalue → ρ frame.closure frame'.closure
  captures : i.opcode = .closure → ∀ p, frame.chunk.functions[i.operand]? = some p →
    ∀ c ∈ p.captures, Capture.Comparable C ρ frame frame' c
  jumps : i.opcode = .jump ∨ i.opcode = .jumpIfFalse →
    Abreast C S ρ m m' (frame.ip + i.operand) (frame'.ip + i.operand)
  loops : i.opcode = .loop → (frame'.ip < i.operand ↔ frame.ip < i.operand) ∧
    (i.operand ≤ frame.ip → Abreast C S ρ m m' (frame.ip - i.operand) (frame'.ip - i.operand))

/-- Matching instructions have the same effect. -/
theorem execute_concur (hfunctional : ∀ native ∈ natives, native.FunctionalUnder C S)
    (hr : m.Corresponds C S ρ m') {frame frame' : Frame} {i i' : Instruction}
    (h : Comparable C S ρ m m' frame frame' i i') :
    Concur C S (execute natives frame i) (execute natives frame' i') m m' Anything := by
  obtain ⟨hbase, hmatching, hfloor, hlocals, hupvalues, hcaptures, hjumps, hloops⟩ := h
  obtain ⟨op, n⟩ := i
  obtain ⟨op', n'⟩ := i'
  obtain ⟨hop, hoperand⟩ := hmatching
  dsimp only at hop hoperand hlocals hupvalues hcaptures hjumps hloops
  subst hop
  rw [execute, execute, hbase]
  cases op' with
  | loadConstant =>
    dsimp only at hoperand ⊢
    rw [hoperand]
    split
    · exact hr.push_concur (.number _)
    · exact .throw hr _
  | loadString =>
    exact hr.readString hoperand fun t =>
      hr.intern_concur t fun σ i j _ hij hr₁ => hr₁.push_concur (.object (.some hij))
  | loadNil => exact hr.push_concur .nil
  | loadTrue => exact hr.push_concur (.bool true)
  | loadFalse => exact hr.push_concur (.bool false)
  | pop => exact hr.pop_concur hfloor
  | add => exact hr.add hfloor
  | subtract => exact hr.binaryNumber hfloor fun _ _ => .number _
  | multiply => exact hr.binaryNumber hfloor fun _ _ => .number _
  | divide => exact hr.binaryNumber hfloor fun _ _ => .number _
  | negate => exact hr.negate hfloor
  | not => exact hr.not hfloor
  | equal => exact hr.compareEqual hfloor true
  | notEqual => exact hr.compareEqual hfloor false
  | less => exact hr.binaryNumber hfloor fun _ _ => .bool _
  | greater => exact hr.binaryNumber hfloor fun _ _ => .bool _
  | lessEqual => exact hr.binaryNumber hfloor fun _ _ => .bool _
  | greaterEqual => exact hr.binaryNumber hfloor fun _ _ => .bool _
  | typeof => exact hr.typeof hfloor
  | defineGlobal => exact hr.readString hoperand fun t => hr.defineGlobal hfloor t
  | getGlobal => exact hr.readString hoperand fun t => hr.getGlobal t
  | setGlobal => exact hr.readString hoperand fun t => hr.setGlobal hfloor t
  | getLocal =>
    dsimp only at hoperand ⊢
    rw [hoperand]
    exact hr.getLocal (hlocals rfl)
  | setLocal =>
    dsimp only at hoperand ⊢
    rw [hoperand]
    exact hr.setLocal hfloor _
  | getUpvalue =>
    dsimp only at hoperand ⊢
    rw [hoperand]
    refine hr.upvalueAt (hupvalues (.inl rfl)) n fun u u' hu => ?_
    refine (hr.readUpvalue hu).bind fun σ v v' n n' hr₁ ⟨hσ, hv⟩ => ?_
    subst hσ
    exact hr₁.push_concur hv
  | setUpvalue =>
    dsimp only at hoperand ⊢
    rw [hoperand]
    refine hr.upvalueAt (hupvalues (.inr rfl)) n fun u u' hu => ?_
    exact hr.peek hfloor fun v v' hv => hr.writeUpvalue hu hv
  | closeUpvalue =>
    refine .get ?_
    rw [hr.size]
    dsimp only
    split
    · exact .throw hr _
    · exact .modify ((hr.closeUpvalues _).pop_concur hfloor)
  | jump =>
    dsimp only at hoperand ⊢
    rw [hoperand]
    exact hr.jump (hjumps (.inl rfl))
  | jumpIfFalse =>
    dsimp only at hoperand ⊢
    rw [hoperand]
    refine hr.peek hfloor fun v v' hv => ?_
    rw [hv.isFalsey_eq]
    split
    · exact hr.jump (hjumps (.inr rfl))
    · exact .pure hr trivial
  | loop =>
    dsimp only at hoperand ⊢
    rw [hoperand]
    obtain ⟨hstart, hback⟩ := hloops rfl
    by_cases hlt : frame.ip < n
    · rw [if_pos hlt, if_pos (hstart.2 hlt)]
      exact .throw hr _
    · rw [if_neg hlt, if_neg (mt hstart.1 hlt)]
      exact hr.jump (hback (Nat.not_lt.1 hlt))
  | call =>
    dsimp only [Instruction.takes] at hoperand hfloor ⊢
    rw [hoperand]
    refine .get ?_
    rw [hr.size]
    split
    · exact .throw hr _
    refine hr.peek (by omega) fun v v' hv => ?_
    exact hr.callValue hfunctional hv (by omega)
  | closure => exact hr.makeClosure hbase hoperand (hcaptures rfl)
  | ret => exact hr.doReturn hfloor hbase
  | print => exact hr.print hfloor

/-! ## Between instructions -/

lemma frames_collectIfDue (m : Machine) : m.collectIfDue.frames = m.frames := by
  rw [Machine.collectIfDue]
  split <;> rfl

/-- Collections leave the innermost calls what they are. -/
lemma Corresponds.back_collectIfDue {frame frame' : Frame}
    (hr : m.collectIfDue.Corresponds C S ρ m'.collectIfDue) (hback : m.frames.back? = some frame)
    (hback' : m'.frames.back? = some frame') : frame.Corresponds C S ρ frame' := by
  rw [← frames_collectIfDue] at hback hback'
  rcases hr.back? with ⟨hnone, -⟩ | ⟨f, f', hf, hf', hren⟩
  · rw [hback] at hnone
    cases hnone
  · rw [hback, Option.some.injEq] at hf
    rw [hback', Option.some.injEq] at hf'
    rwa [hf, hf']

/-- Clearing both stacks. -/
lemma Corresponds.resetStack (hr : m.Corresponds C S ρ m') :
    m.resetStack.Corresponds C S ρ m'.resetStack :=
  { hr.closeUpvalues 0 with
    size := rfl
    slots := fun _ _ => .none
    frames := .nil, opened := .nil, upvalues := fun _ hu => nomatch hu }

end Calls

end Machine

end Lox
