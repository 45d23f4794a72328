import Lox.Proofs.Bytecode.Verification
import Lox.Proofs.Machine.Steps
import Lox.Proofs.Semantics.Data

/-!
# Runs of the machine and evaluations

`Machine.Shows` says that a machine is at some place of a script, with values on its stack that
mean given data, and that its globals and what it has printed are those of a `Store`.

`Machine.Agrees` is the simulation: from a machine on, the run goes the way of an evaluation.  If the
evaluation completes, then the run comes to a machine that shows the outcome; if it fails, then the
run fails with the same error; and if it is exhausted, then the run takes at least as many
instructions as rounds of a loop were allowed.  Like evaluations, simulations are composed with
`bind`, and a run may do some instructions of its own before it (`Agrees.after`).

The last part says of each instruction what it does to the data that a machine shows.
-/

namespace Lox

/-! ## Evaluations -/

namespace EvalM

lemma bind_apply {α β : Type} (f : EvalM α) (g : α → EvalM β) (σ : Store) :
    (f >>= g) σ = match f σ with
      | .ok a σ' => g a σ'
      | .error e σ' => .error e σ' := by
  change EStateM.bind f g σ = _
  unfold EStateM.bind
  cases f σ <;> rfl

lemma get_apply (σ : Store) : (get : EvalM Store) σ = .ok σ σ := rfl

end EvalM

namespace Machine

variable {natives : Natives} {before : List Text} {w : Chunk} {σ σ' : Store} {o : Nat}
  {data : List Datum} {m m' : Machine} {d : Datum} {v : Value}

/-! ## What a machine shows -/

/-- The machine with a string on its heap. -/
def interned (m : Machine) (t : Text) : Machine :=
  { m with heap := (m.heap.intern t).2 }

lemma intern_eq_interned (t : Text) (m : Machine) :
    Machine.intern t m = .ok (m.heap.intern t).1 (m.interned t) := rfl

/-- The machine executes the script `w` at the offset `o`.  Its stack means `data`, its globals are
those of the store, and what it has printed since `before` is what the store says. -/
structure Shows (before : List Text) (w : Chunk) (σ : Store) (o : Nat) (data : List Datum)
    (m : Machine) : Prop where
  heap : m.heap.Grounded
  named : m.heap.IssuedGlobals m.globals
  opened : m.openUpvalues = []
  room : MachineConfig.standard.maxStack ≤ m.config.maxStack
  frames : ∃ closure name, m.frames = #[⟨closure, name, w, o, 0⟩]
  issued : ∀ v ∈ m.stack.toList, m.heap.Issued v
  stack : m.stack.toList.map m.heap.datum = data
  globals : m.environment = σ.globals
  printed : m.printed.toList = before ++ σ.printed

/-- What is left to see of a machine that cannot go on. -/
structure Reports (before : List Text) (σ : Store) (m : Machine) : Prop where
  opened : m.openUpvalues = []
  globals : m.environment = σ.globals
  printed : m.printed.toList = before ++ σ.printed

namespace Shows

lemma reports (h : m.Shows before w σ o data) : m.Reports before σ :=
  ⟨h.opened, h.globals, h.printed⟩

/-- Only the globals and the printed lines of the store matter. -/
lemma of_eq (h : m.Shows before w σ o data) (hglobals : σ'.globals = σ.globals)
    (hprinted : σ'.printed = σ.printed) : m.Shows before w σ' o data :=
  { h with globals := hglobals ▸ h.globals, printed := hprinted ▸ h.printed }

lemma moved {o' : Nat} (h : m.Shows before w σ o data) (ho : o = o') : m.Shows before w σ o' data :=
  ho ▸ h

lemma size_eq (h : m.Shows before w σ o data) : m.stack.size = data.length := by
  rw [← h.stack, List.length_map, Array.length_toList]

/-- The value in a slot. -/
lemma slot {i : Nat} (h : m.Shows before w σ o data) (hd : data[i]? = some d) :
    ∃ v, m.stack[i]? = some v ∧ m.heap.Issued v ∧ m.heap.datum v = d := by
  rw [← h.stack, List.getElem?_map, Option.map_eq_some_iff] at hd
  obtain ⟨v, hv, rfl⟩ := hd
  exact ⟨v, by rwa [← Array.getElem?_toList], h.issued v (List.mem_of_getElem? hv), rfl⟩

/-- The value below some others. -/
lemma peek {rest : List Datum} (h : m.Shows before w σ o (data ++ d :: rest)) :
    ∃ v, peek rest.length m = .ok v m ∧ m.heap.Issued v ∧ m.heap.datum v = d := by
  have hsize := h.size_eq
  rw [List.length_append, List.length_cons] at hsize
  have hplace : m.stack.size - 1 - rest.length = data.length := by omega
  obtain ⟨v, hslot, hv⟩ := h.slot (i := data.length) (d := d) (by simp)
  have hget : m.stack.getD data.length .nil = v := by
    rw [Array.getD_eq_getD_getElem?, hslot, Option.getD_some]
  refine ⟨v, ?_, hv⟩
  rw [peek_apply, if_pos (by omega), hplace, hget]

lemma peek_top (h : m.Shows before w σ o (data ++ [d])) :
    ∃ v, Machine.peek 0 m = .ok v m ∧ m.heap.Issued v ∧ m.heap.datum v = d :=
  h.peek

/-- The value on top is taken. -/
lemma pop (h : m.Shows before w σ o (data ++ [d])) : ∃ v m', pop m = .ok v m' ∧
    m'.Shows before w σ o data ∧ m'.heap = m.heap ∧ m.heap.Issued v ∧ m.heap.datum v = d := by
  obtain ⟨vs, us, hsplit, hvs, hus⟩ := List.map_eq_append_iff.1 h.stack
  obtain ⟨v, rfl, hv⟩ := List.map_eq_singleton_iff.1 hus
  have hstack : m.stack = vs.toArray.push v := by
    rw [← Array.toList_inj, hsplit, Array.toList_push]
  have hpop := pop_apply m
  rw [hstack, Array.back?_push, Array.pop_push] at hpop
  refine ⟨v, _, hpop, { h with issued := ?_, stack := hvs }, rfl, h.issued v ?_, hv⟩
  · intro u hu
    exact h.issued u (hsplit ▸ List.mem_append_left _ hu)
  · rw [hsplit]
    exact List.mem_append_right _ List.mem_cons_self

/-- A value is put on top. -/
lemma push (h : m.Shows before w σ o data) (hv : m.heap.Issued v)
    (hroom : data.length < MachineConfig.standard.maxStack) :
    ∃ m', push v m = .ok () m' ∧ m'.Shows before w σ o (data ++ [m.heap.datum v]) := by
  have hfits : ¬ m.config.maxStack ≤ m.stack.size := by
    rw [h.size_eq, Nat.not_le]
    exact Nat.lt_of_lt_of_le hroom h.room
  have hpush := push_apply v m
  rw [if_neg hfits] at hpush
  refine ⟨_, hpush, { h with issued := ?_, stack := ?_ }⟩
  · intro u hu
    rw [Array.toList_push, List.mem_append, List.mem_singleton] at hu
    rcases hu with hu | rfl
    · exact h.issued u hu
    · exact hv
  · rw [Array.toList_push, List.map_append, h.stack]
    rfl

/-- A value is put into a slot. -/
lemma setSlot (h : m.Shows before w σ o data) (hv : m.heap.Issued v) (i : Nat) :
    Shows before w σ o (data.set i (m.heap.datum v))
      { m with stack := m.stack.setIfInBounds i v } := by
  refine { h with issued := ?_, stack := ?_ }
  · intro u hu
    rw [Array.toList_setIfInBounds] at hu
    rcases List.mem_or_eq_of_mem_set hu with hu | rfl
    · exact h.issued u hu
    · exact hv
  · rw [Array.toList_setIfInBounds, List.map_set, h.stack]

/-- Interning a string changes no meaning. -/
lemma intern (h : m.Shows before w σ o data) (t : Text) : (m.interned t).Shows before w σ o data where
  heap := h.heap.intern t
  named := Heap.IssuedGlobals.mono h.named (m.heap.fresh_le_intern t)
  opened := h.opened
  room := h.room
  frames := h.frames
  issued := fun v hv => (h.issued v hv).mono (m.heap.fresh_le_intern t)
  stack := by
    rw [← h.stack]
    exact List.map_congr_left fun v hv => h.heap.datum_intern (h.issued v hv)
  globals := (h.heap.environment_intern h.named t).trans h.globals
  printed := h.printed

/-- A collection changes no meaning. -/
lemma collect (h : m.Shows before w σ o data) : m.collect.Shows before w σ o data where
  heap := h.heap.collect m.roots
  named := Heap.IssuedGlobals.mono h.named (Nat.le_of_eq (h.heap.valid.fresh_collect m.roots).symm)
  opened := h.opened
  room := h.room
  frames := h.frames
  issued := fun v hv => (h.issued v hv).mono (Nat.le_of_eq (h.heap.valid.fresh_collect m.roots).symm)
  stack := by
    rw [← h.stack]
    refine List.map_congr_left fun v hv => h.heap.valid.datum_collect ?_
    exact mem_roots_of_stack (Array.mem_toList_iff.1 hv)
  globals := (h.heap.valid.environment_collect mem_roots_of_global).trans h.globals
  printed := h.printed

/-- The machine at another place of the script. -/
lemma setIp (h : m.Shows before w σ o data) (ip : Nat) :
    Shows before w σ ip data { m with
      frames := m.frames.modify (m.frames.size - 1) ({ · with ip }) } := by
  obtain ⟨closure, name, hframes⟩ := h.frames
  have hmoved : m.frames.modify (m.frames.size - 1) ({ · with ip }) =
      #[⟨closure, name, w, ip, 0⟩] := by
    rw [hframes]
    rfl
  exact { h with frames := ⟨closure, name, hmoved⟩ }

lemma entered (h : m.Shows before w σ o data) (traced : Array Text) (ip : Nat) :
    (m.entered traced ip).Shows before w σ ip data := by
  have hcollected : m.collectIfDue.Shows before w σ o data := by
    unfold collectIfDue
    split
    · exact h.collect
    · exact h
  have htraced : (m.collectIfDue.withTraced traced).Shows before w σ o data := { hcollected with }
  exact htraced.setIp ip

end Shows

/-! ## Simulation -/

/-- After `n` instructions the run goes on from `m'`. -/
def Leads (natives : Natives) (n : Nat) (m m' : Machine) : Prop :=
  ∀ k, run natives (n + k) m = run natives k m'

lemma Leads.refl (natives : Natives) (m : Machine) : m.Leads natives 0 m := by
  intro k
  rw [Nat.zero_add]

lemma Leads.trans {n n' : Nat} {m'' : Machine} (h : m.Leads natives n m')
    (h' : m'.Leads natives n' m'') : m.Leads natives (n + n') m'' := by
  intro k
  rw [Nat.add_assoc, h, h']

section Agrees

variable {α β : Type} {bound : Nat} {r : EStateM.Result Interruption Store α}
  {Q R : α → Store → Machine → Prop}

/-- From the machine on, the run goes the way of an evaluation with this result, where `Q` is to hold
at the end of an evaluation that completes.  Each round of a loop takes an instruction, so an
evaluation that uses up `bound` rounds stands for as many instructions. -/
def Agrees (natives : Natives) (before : List Text) (bound : Nat) (m : Machine)
    (r : EStateM.Result Interruption Store α) (Q : α → Store → Machine → Prop) : Prop :=
  match r with
  | .ok a σ => ∃ n m', m.Leads natives n m' ∧ Q a σ m'
  | .error (.failed cause) σ => ∃ n m', (∀ k, run natives (n + k) m = .error (.runtime cause) m') ∧
      m'.Reports before σ
  | .error .exhausted _ => ∃ n m', bound ≤ n ∧ m.Leads natives n m'

namespace Agrees

lemma pure {a : α} (hQ : Q a σ m) :
    m.Agrees natives before bound ((Pure.pure a : EvalM α) σ) Q :=
  ⟨0, m, .refl natives m, hQ⟩

/-- The run does some instructions of its own first.  They count. -/
lemma after_add {n : Nat} (hlead : m.Leads natives n m') (h : m'.Agrees natives before bound r Q) :
    m.Agrees natives before (n + bound) r Q := by
  cases r with
  | ok a σ =>
    obtain ⟨n', m'', hlead', hQ⟩ := h
    exact ⟨n + n', m'', hlead.trans hlead', hQ⟩
  | error e σ =>
    cases e with
    | failed cause =>
      obtain ⟨n', m'', hfails, hreports⟩ := h
      refine ⟨n + n', m'', fun k => ?_, hreports⟩
      rw [Nat.add_assoc, hlead, hfails]
    | exhausted =>
      obtain ⟨n', m'', hbound, hlead'⟩ := h
      exact ⟨n + n', m'', Nat.add_le_add_left hbound n, hlead.trans hlead'⟩

lemma of_le {bound' : Nat} (h : m.Agrees natives before bound r Q) (hle : bound' ≤ bound) :
    m.Agrees natives before bound' r Q := by
  cases r with
  | ok a σ => exact h
  | error e σ =>
    cases e with
    | failed cause => exact h
    | exhausted =>
      obtain ⟨n, m', hbound, hlead⟩ := h
      exact ⟨n, m', Nat.le_trans hle hbound, hlead⟩

lemma after {n : Nat} (hlead : m.Leads natives n m') (h : m'.Agrees natives before bound r Q) :
    m.Agrees natives before bound r Q :=
  (h.after_add hlead).of_le (Nat.le_add_left _ _)

/-- The run does some instructions of its own at the end. -/
lemma followed (h : m.Agrees natives before bound r Q)
    (hQR : ∀ a σ m', Q a σ m' → ∃ n m'', m'.Leads natives n m'' ∧ R a σ m'') :
    m.Agrees natives before bound r R := by
  cases r with
  | ok a σ =>
    obtain ⟨n, m', hlead, hQ⟩ := h
    obtain ⟨n', m'', hlead', hR⟩ := hQR a σ m' hQ
    exact ⟨n + n', m'', hlead.trans hlead', hR⟩
  | error e σ => cases e <;> exact h

lemma mono (h : m.Agrees natives before bound r Q) (hQR : ∀ a σ m', Q a σ m' → R a σ m') :
    m.Agrees natives before bound r R :=
  h.followed fun a σ m' hQ => ⟨0, m', .refl natives m', hQR a σ m' hQ⟩

lemma bind {f : EvalM α} {g : α → EvalM β} {R : β → Store → Machine → Prop}
    (h : m.Agrees natives before bound (f σ) Q)
    (hg : ∀ a σ' m', Q a σ' m' → m'.Agrees natives before bound (g a σ') R) :
    m.Agrees natives before bound ((f >>= g) σ) R := by
  rw [EvalM.bind_apply]
  cases hf : f σ with
  | ok a σ' =>
    rw [hf] at h
    obtain ⟨n, m', hlead, hQ⟩ := h
    exact (hg a σ' m' hQ).after hlead
  | error e σ' =>
    rw [hf] at h
    cases e <;> exact h

/-- A loop, from its head on.  Each round ends with a jump back to the head, which takes an
instruction. -/
lemma loop {round : EvalM Bool} {rounds : Nat} (head back : Store → Machine → Prop)
    {exit : Unit → Store → Machine → Prop} (hrounds : rounds ≤ bound)
    (hround : ∀ σ m, head σ m → m.Agrees natives before bound (round σ) fun goOn σ' m' =>
      if goOn then back σ' m' else exit () σ' m')
    (hback : ∀ σ m, back σ m → ∃ m', m.Leads natives 1 m' ∧ head σ m') (hm : head σ m) :
    m.Agrees natives before rounds (EvalM.repeat round rounds σ) exit := by
  induction rounds generalizing σ m with
  | zero => exact ⟨0, m, Nat.le_refl _, .refl natives m⟩
  | succ rounds ih =>
    rw [EvalM.repeat]
    refine ((hround σ m hm).of_le hrounds).bind fun goOn σ' m' hgoOn => ?_
    cases goOn with
    | false => exact .pure hgoOn
    | true =>
      obtain ⟨m'', hlead, hhead⟩ := hback σ' m' hgoOn
      have hrest := (ih (Nat.le_of_succ_le hrounds) hhead).after_add hlead
      exact hrest.of_le (Nat.le_of_eq (Nat.add_comm rounds 1))

end Agrees

end Agrees

/-! ## Instructions -/

lemma onNumbers_eq_error {F : Float → Float → Datum} {a b : Datum}
    (h : ¬ ∃ x y, a = .number x ∧ b = .number y) :
    BinaryOperator.onNumbers F a b = .error .operandsNotNumbers := by
  unfold BinaryOperator.onNumbers
  split
  · exact absurd ⟨_, _, rfl, rfl⟩ h
  · rfl

lemma sum_eq_error {a b : Datum} (h : ¬ ∃ x y, a = .number x ∧ b = .number y)
    (h' : ¬ ∃ s t, a = .string s ∧ b = .string t) :
    BinaryOperator.sum a b = .error .operandsNotAddable := by
  unfold BinaryOperator.sum
  split
  · exact absurd ⟨_, _, rfl, rfl⟩ h
  · exact absurd ⟨_, _, rfl, rfl⟩ h'
  · rfl

section Instructions

variable {bound : Nat} {i : Instruction} {a b : Datum} {frame : Frame}

/-- The next instruction of a run. -/
lemma Shows.run_succ (h : m.Shows before w σ o data) (hdecode : w.decode o = .ok i)
    (natives : Natives) : ∃ closure name m₁, m₁.Shows before w σ (o + i.size) data ∧
      ∀ k, run natives (1 + k) m = match execute natives ⟨closure, name, w, o + i.size, 0⟩ i m₁ with
        | .ok _ m' => run natives k m'
        | .error e m' => .error e m' := by
  obtain ⟨closure, name, hframes⟩ := h.frames
  have hdecode' : (⟨closure, name, w, o, 0⟩ : Frame).chunk.decode o = .ok i := hdecode
  obtain ⟨traced, hstep⟩ := between_step_eq hdecode' natives m
  refine ⟨closure, name, m.entered traced (o + i.size), h.entered traced _, fun k => ?_⟩
  have hback : m.frames.back? = some ⟨closure, name, w, o, 0⟩ := by
    rw [hframes]
    rfl
  rw [Nat.add_comm, run_succ_apply, hback]
  dsimp only
  rewrite [hstep]
  cases execute natives ⟨closure, name, w, o + i.size, 0⟩ i (m.entered traced (o + i.size)) <;> rfl

/-- An instruction that completes. -/
lemma Shows.leads {P : Machine → Prop} (h : m.Shows before w σ o data) (hdecode : w.decode o = .ok i)
    (hexec : ∀ closure name m₁, m₁.Shows before w σ (o + i.size) data →
      ∃ m', execute natives ⟨closure, name, w, o + i.size, 0⟩ i m₁ = .ok () m' ∧ P m') :
    ∃ m', m.Leads natives 1 m' ∧ P m' := by
  obtain ⟨closure, name, m₁, h₁, hrun⟩ := h.run_succ hdecode natives
  obtain ⟨m', hm', hP⟩ := hexec closure name m₁ h₁
  refine ⟨m', fun k => ?_, hP⟩
  rw [hrun, hm']

/-- The computation puts its result on top of `data`, or fails. -/
def Computes (before : List Text) (w : Chunk) (σ : Store) (o : Nat) (data : List Datum)
    (f : MachineM Unit) (m : Machine) (r : Except RuntimeError.Cause Datum) : Prop :=
  match r with
  | .ok d => ∃ m', f m = .ok () m' ∧ m'.Shows before w σ o (data ++ [d])
  | .error cause => ∃ m', f m = .error (.runtime cause) m' ∧ m'.Reports before σ

lemma Computes.of_eq {f g : MachineM Unit} {r : Except RuntimeError.Cause Datum} (heq : f m = g m')
    (h : Computes before w σ o data g m' r) : Computes before w σ o data f m r := by
  unfold Computes at h ⊢
  rwa [heq]

/-- An instruction that computes. -/
lemma Shows.agrees {data' : List Datum} {r : Except RuntimeError.Cause Datum}
    (h : m.Shows before w σ o data') (hdecode : w.decode o = .ok i)
    (hexec : ∀ closure name m₁, m₁.Shows before w σ (o + i.size) data' →
      Computes before w σ (o + i.size) data
        (execute natives ⟨closure, name, w, o + i.size, 0⟩ i) m₁ r) :
    m.Agrees natives before bound (EvalM.ofExcept r σ) fun d σ' m' =>
      σ' = σ ∧ m'.Shows before w σ (o + i.size) (data ++ [d]) := by
  obtain ⟨closure, name, m₁, h₁, hrun⟩ := h.run_succ hdecode natives
  have hcomputes := hexec closure name m₁ h₁
  cases r with
  | ok d =>
    obtain ⟨m', hm', hshows⟩ := hcomputes
    refine ⟨1, m', fun k => ?_, rfl, hshows⟩
    rw [hrun, hm']
  | error cause =>
    obtain ⟨m', hm', hreports⟩ := hcomputes
    refine ⟨1, m', fun k => ?_, hreports⟩
    rw [hrun, hm']

namespace Shows

variable (hroom : data.length < MachineConfig.standard.maxStack)

include hroom

lemma computes_push (h : m.Shows before w σ o data) (hv : m.heap.Issued v) :
    Computes before w σ o data (Machine.push v) m (.ok (m.heap.datum v)) :=
  h.push hv hroom

/-- The value on top is replaced. -/
lemma computes_replace (h : m.Shows before w σ o (data ++ [d])) (hv : m.heap.Issued v) :
    Computes before w σ o data (do let _ ← Machine.pop; Machine.push v) m
      (.ok (m.heap.datum v)) := by
  obtain ⟨u, m₁, hpop, h₁, hheap, -⟩ := h.pop
  obtain ⟨m₂, hpush, h₂⟩ := h₁.push (hheap ▸ hv) hroom
  refine ⟨m₂, ?_, hheap ▸ h₂⟩
  rw [bind_apply, hpop]
  exact hpush

/-- The two values on top are replaced. -/
lemma computes_replace_two (h : m.Shows before w σ o (data ++ [a] ++ [b])) (hv : m.heap.Issued v) :
    Computes before w σ o data (do let _ ← Machine.pop; let _ ← Machine.pop; Machine.push v) m
      (.ok (m.heap.datum v)) := by
  obtain ⟨u, m₁, hpop, h₁, hheap, -⟩ := h.pop
  obtain ⟨m₂, hrest, h₂⟩ := computes_replace hroom h₁ (hheap ▸ hv)
  refine ⟨m₂, ?_, hheap ▸ h₂⟩
  rw [bind_apply, hpop]
  exact hrest

omit hroom in
/-- The two values on top are looked at. -/
lemma peek_two (h : m.Shows before w σ o (data ++ [a] ++ [b])) : ∃ v u,
    m.heap.datum v = a ∧ m.heap.datum u = b ∧ ∀ f : Value → Value → MachineM Unit,
      (do let u ← Machine.peek 0; let v ← Machine.peek 1; f v u) m = f v u m := by
  obtain ⟨u, hpeek, -, hu⟩ := h.peek_top
  rw [List.append_assoc] at h
  obtain ⟨v, hpeek', -, hv⟩ := h.peek
  refine ⟨v, u, hv, hu, fun f => ?_⟩
  have hbelow : Machine.peek 1 m = .ok v m := hpeek'
  rw [bind_apply, hpeek]
  dsimp only
  rw [bind_apply, hbelow]

lemma computes_binaryNumber {f : Float → Float → Value} {F : Float → Float → Datum}
    (hplain : ∀ x y, (f x y).reference? = none) (hF : ∀ x y, m.heap.datum (f x y) = F x y)
    (h : m.Shows before w σ o (data ++ [a] ++ [b])) :
    Computes before w σ o data (binaryNumber f) m (BinaryOperator.onNumbers F a b) := by
  obtain ⟨v, u, hv, hu, hrun⟩ := h.peek_two
  unfold binaryNumber
  refine .of_eq (hrun _) ?_
  by_cases hnumbers : ∃ x y, a = .number x ∧ b = .number y
  · obtain ⟨x, y, rfl, rfl⟩ := hnumbers
    rw [Heap.datum_eq_number] at hv hu
    subst hv hu
    have hreplace := computes_replace_two hroom h
      (Heap.issued_of_reference?_eq_none m.heap (hplain x y))
    rw [hF] at hreplace
    exact hreplace
  · rw [onNumbers_eq_error hnumbers]
    refine ⟨m, ?_, h.reports⟩
    split
    · subst hv hu
      exact absurd ⟨_, _, rfl, rfl⟩ hnumbers
    · rfl

omit hroom in
/-- What interning a string gives. -/
lemma issued_interned (h : m.Shows before w σ o data) (t : Text) :
    (m.interned t).heap.Issued (.object (some (m.heap.intern t).1)) ∧
      (m.interned t).heap.datum (.object (some (m.heap.intern t).1)) = .string t :=
  ⟨h.heap.valid.issued_intern t, Heap.datum_string (h.heap.valid.get?_intern t)⟩

lemma computes_add (h : m.Shows before w σ o (data ++ [a] ++ [b])) :
    Computes before w σ o data add m (BinaryOperator.sum a b) := by
  obtain ⟨v, u, hv, hu, hrun⟩ := h.peek_two
  unfold add
  refine .of_eq (hrun _) ?_
  by_cases hnumbers : ∃ x y, a = .number x ∧ b = .number y
  · obtain ⟨x, y, rfl, rfl⟩ := hnumbers
    rw [Heap.datum_eq_number] at hv hu
    subst hv hu
    exact computes_replace_two hroom h (Heap.issued_of_reference?_eq_none m.heap rfl)
  by_cases hstrings : ∃ s t, a = .string s ∧ b = .string t
  · obtain ⟨s, t, rfl, rfl⟩ := hstrings
    obtain ⟨hissued, hdatum⟩ := h.issued_interned (s ++ t)
    have hreplace := computes_replace_two hroom (h.intern (s ++ t)) hissued
    rw [hdatum] at hreplace
    refine .of_eq ?_ hreplace
    rw [Heap.datum_eq_string] at hv hu
    split
    · cases hv
    · rw [bind_apply, get_apply]
      dsimp only
      rw [hv, hu]
      rfl
  · rw [sum_eq_error hnumbers hstrings]
    refine ⟨m, ?_, h.reports⟩
    split
    · subst hv hu
      exact absurd ⟨_, _, rfl, rfl⟩ hnumbers
    · rw [bind_apply, get_apply]
      dsimp only
      cases hs : m.heap.string? v with
      | none => rfl
      | some s =>
        cases ht : m.heap.string? u with
        | none => rfl
        | some t =>
          rw [← Heap.datum_eq_string] at hs ht
          exact absurd ⟨s, t, hv.symm.trans hs, hu.symm.trans ht⟩ hstrings

lemma computes_compareEqual (h : m.Shows before w σ o (data ++ [a] ++ [b])) (expected : Bool) :
    Computes before w σ o data (compareEqual expected) m (.ok (.bool (a.equals b == expected))) := by
  obtain ⟨u, m₁, hpop, h₁, hheap₁, -, hu⟩ := h.pop
  obtain ⟨v, m₂, hpop', h₂, hheap₂, -, hv⟩ := h₁.pop
  have hequals : a.equals b = v.equals u := by
    rw [← hu, ← hv, hheap₁, h.heap.valid.equals_datum]
  have hpush := computes_push hroom h₂ (v := .bool (v.equals u == expected))
    (Heap.issued_of_reference?_eq_none m₂.heap rfl)
  rw [hequals]
  refine .of_eq ?_ hpush
  unfold compareEqual
  rw [bind_apply, hpop]
  dsimp only
  rw [bind_apply, hpop']

/-- A binary operator. -/
lemma computes_binary (op : BinaryOperator) (h : m.Shows before w σ o (data ++ [a] ++ [b])) :
    Computes before w σ o data (execute natives frame ⟨op.opcode, 0⟩) m (op.apply a b) := by
  cases op with
  | add => exact computes_add hroom h
  | equal =>
    have hequal := computes_compareEqual hroom h true
    rw [beq_true] at hequal
    exact hequal
  | notEqual =>
    have hequal := computes_compareEqual hroom h false
    rw [beq_false] at hequal
    exact hequal
  | _ => exact computes_binaryNumber hroom (fun _ _ => rfl) (fun _ _ => rfl) h

lemma computes_negate (h : m.Shows before w σ o (data ++ [a])) :
    Computes before w σ o data negate m (UnaryOperator.negate.apply a) := by
  obtain ⟨v, hpeek, -, hv⟩ := h.peek_top
  unfold negate
  refine .of_eq (by rw [bind_apply, hpeek]) ?_
  by_cases hnumber : ∃ x, a = .number x
  · obtain ⟨x, rfl⟩ := hnumber
    rw [Heap.datum_eq_number] at hv
    subst hv
    exact computes_replace hroom h (Heap.issued_of_reference?_eq_none m.heap rfl)
  · have herror : UnaryOperator.negate.apply a = .error .operandNotNumber := by
      unfold UnaryOperator.apply
      split
      · exact absurd ⟨_, rfl⟩ hnumber
      · rfl
      · rename_i hop
        cases hop
      · rename_i hop
        cases hop
    rw [herror]
    refine ⟨m, ?_, h.reports⟩
    split
    · subst hv
      exact absurd ⟨_, rfl⟩ hnumber
    · rfl

lemma computes_typeof (h : m.Shows before w σ o (data ++ [a])) :
    Computes before w σ o data typeof m (.ok (.string a.typeName)) := by
  obtain ⟨v, m₁, hpop, h₁, hheap, -, hv⟩ := h.pop
  have hname : a.typeName = m₁.heap.typeName v := by
    rw [← hv, Heap.typeName_datum, hheap]
  obtain ⟨hissued, hdatum⟩ := h₁.issued_interned (m₁.heap.typeName v)
  have hpush := computes_push hroom (h₁.intern (m₁.heap.typeName v)) hissued
  rw [hdatum] at hpush
  rw [hname]
  refine .of_eq ?_ hpush
  unfold typeof
  rw [bind_apply, hpop]
  rfl

/-- A unary operator. -/
lemma computes_unary (op : UnaryOperator) (h : m.Shows before w σ o (data ++ [a])) :
    Computes before w σ o data (execute natives frame ⟨op.opcode, 0⟩) m (op.apply a) := by
  cases op with
  | negate => exact computes_negate hroom h
  | not =>
    obtain ⟨v, m₁, hpop, h₁, hheap, -, hv⟩ := h.pop
    have hpush := computes_push hroom h₁ (v := .bool v.isFalsey)
      (Heap.issued_of_reference?_eq_none m₁.heap rfl)
    have hfalsey : a.isFalsey = v.isFalsey := by
      rw [← hv, Heap.isFalsey_datum]
    change Computes before w σ o data _ m (.ok (.bool a.isFalsey))
    rw [hfalsey]
    refine .of_eq ?_ hpush
    change (do let v ← Machine.pop; Machine.push (.bool v.isFalsey) : MachineM Unit) m = _
    rw [bind_apply, hpop]
  | typeof => exact computes_typeof hroom h

/-! ### Constants and variables -/

/-- A literal. -/
lemma computes_literal (l : Literal) (h : m.Shows before w σ o data) :
    Computes before w σ o data (execute natives frame ⟨l.opcode, 0⟩) m (.ok l.datum) := by
  cases l <;> exact computes_push hroom h (Heap.issued_of_reference?_eq_none m.heap rfl)

lemma computes_loadConstant {k : Nat} {bits : UInt64} (hbits : frame.chunk.constants.get? k = some bits)
    (h : m.Shows before w σ o data) :
    Computes before w σ o data (execute natives frame ⟨.loadConstant, k⟩) m
      (.ok (.number (Float.ofBits bits))) := by
  have hpush := computes_push hroom h (v := .number (Float.ofBits bits))
    (Heap.issued_of_reference?_eq_none m.heap rfl)
  refine .of_eq ?_ hpush
  unfold execute
  dsimp only
  rw [hbits]

lemma computes_loadString {k : Nat} {t : Text} (ht : frame.chunk.strings.get? k = some t)
    (h : m.Shows before w σ o data) :
    Computes before w σ o data (execute natives frame ⟨.loadString, k⟩) m (.ok (.string t)) := by
  obtain ⟨hissued, hdatum⟩ := h.issued_interned t
  have hpush := computes_push hroom (h.intern t) hissued
  rw [hdatum] at hpush
  refine .of_eq ?_ hpush
  unfold execute
  dsimp only
  rw [bind_apply, readString_apply, ht]
  rfl

omit hroom in
/-- The global of a name is found under the interned name. -/
lemma globals_eq (h : m.Shows before w σ o data) (name : Text) : σ.globals name =
    (m.globals[(m.heap.intern name).1]?).map (m.interned name).heap.datum := by
  have hinterned := h.intern name
  rw [← hinterned.globals]
  exact hinterned.heap.valid.environment_name (h.heap.valid.get?_intern name)

omit hroom in
lemma execute_getGlobal {k : Nat} {name : Text} (hname : frame.chunk.strings.get? k = some name)
    (natives : Natives) (m : Machine) : execute natives frame ⟨.getGlobal, k⟩ m =
      match m.globals[(m.heap.intern name).1]? with
      | some v => Machine.push v (m.interned name)
      | none => .error (.runtime (.undefinedVariable name)) (m.interned name) := by
  unfold execute
  dsimp only
  rw [bind_apply, readString_apply, hname]
  dsimp only
  unfold getGlobal
  rw [bind_apply, intern_eq_interned]
  dsimp only
  rw [bind_apply, get_apply]
  dsimp only
  have hsame : (m.interned name).globals = m.globals := rfl
  rw [hsame]
  cases m.globals[(m.heap.intern name).1]? <;> rfl

/-- The value of a global. -/
lemma computes_getGlobal {k : Nat} {name : Text} (hname : frame.chunk.strings.get? k = some name)
    (h : m.Shows before w σ o data) :
    Computes before w σ o data (execute natives frame ⟨.getGlobal, k⟩) m
      ((σ.globals name).elim (.error (.undefinedVariable name)) .ok) := by
  have hrun := execute_getGlobal hname natives m
  have hinterned := h.intern name
  rw [h.globals_eq name]
  cases hglobal : m.globals[(m.heap.intern name).1]? with
  | none =>
    rw [hglobal] at hrun
    exact ⟨_, hrun, hinterned.reports⟩
  | some v =>
    rw [hglobal] at hrun
    exact .of_eq hrun (computes_push hroom hinterned (hinterned.named hglobal).2)

/-- The value of a local variable. -/
lemma computes_getLocal {k : Nat} (hbase : frame.base = 0) (hd : data[k]? = some d)
    (h : m.Shows before w σ o data) :
    Computes before w σ o data (execute natives frame ⟨.getLocal, k⟩) m (.ok d) := by
  obtain ⟨v, hslot, hissued, rfl⟩ := h.slot hd
  refine .of_eq ?_ (computes_push hroom h hissued)
  change getLocal (frame.base + k) m = _
  rw [hbase, Nat.zero_add]
  unfold getLocal
  rw [bind_apply, get_apply]
  dsimp only
  rw [hslot]

omit hroom

/-- A global is defined or assigned to. -/
lemma insertGlobal {id : ObjectId} {name : Text} (h : m.Shows before w σ o data)
    (hid : m.heap.get? id = some (.string name)) (hv : m.heap.Issued v) :
    Shows before w (σ.defineGlobal name (m.heap.datum v)) o data
      { m with globals := m.globals.insert id v } where
  heap := h.heap
  named := Heap.IssuedGlobals.insert h.named (h.heap.valid.below hid) hv
  opened := h.opened
  room := h.room
  frames := h.frames
  issued := h.issued
  stack := h.stack
  globals := by
    change m.heap.environment (m.globals.insert id v) = _
    rw [h.heap.valid.environment_insert hid, Store.defineGlobal, ← h.globals]
    rfl
  printed := h.printed

variable (natives) {line : UInt32} {k : Nat} {name : Text}

lemma leads_defineGlobal (h : m.Shows before w σ o (data ++ [d]))
    (hcode : w.Holds o [(⟨.defineGlobal, k⟩, line)]) (hk : k ≤ Chunk.maxShort)
    (hname : w.strings.get? k = some name) :
    ∃ m', m.Leads natives 1 m' ∧ m'.Shows before w (σ.defineGlobal name d) (o + 3) data := by
  refine h.leads (hcode.decode hk) fun closure _ m₁ h₁ => ?_
  obtain ⟨v, hpeek, hissued, rfl⟩ := (h₁.intern name).peek_top
  have hinserted := (h₁.intern name).insertGlobal (h₁.heap.valid.get?_intern name) hissued
  obtain ⟨u, m₂, hpop, h₂, -⟩ := hinserted.pop
  refine ⟨m₂, ?_, h₂⟩
  unfold execute
  dsimp only
  rw [bind_apply, readString_apply, hname]
  dsimp only
  unfold defineGlobal
  rw [bind_apply, intern_eq_interned]
  dsimp only
  rw [bind_apply, hpeek]
  dsimp only
  rw [bind_apply, modify_apply]
  dsimp only
  rw [bind_apply, hpop]
  rfl

lemma execute_setGlobal (h : m.Shows before w σ o data) (hname : frame.chunk.strings.get? k = some name) :
    execute natives frame ⟨.setGlobal, k⟩ m =
      if (σ.globals name).isSome then
        (do let v ← Machine.peek 0
            modify fun m' => { m' with globals := m'.globals.insert (m.heap.intern name).1 v } :
          MachineM Unit) (m.interned name)
      else .error (.runtime (.undefinedVariable name)) (m.interned name) := by
  have hdefined : (m.interned name).globals.contains (m.heap.intern name).1 =
      (σ.globals name).isSome := by
    rw [h.globals_eq name, Option.isSome_map, Std.TreeMap.contains_eq_isSome_getElem?]
    rfl
  unfold execute
  dsimp only
  rw [bind_apply, readString_apply, hname]
  dsimp only
  unfold setGlobal
  rw [bind_apply, intern_eq_interned]
  dsimp only
  rw [bind_apply, get_apply]
  dsimp only
  rw [hdefined]
  split <;> rfl

/-- Assigning to a global. -/
lemma leads_setGlobal (h : m.Shows before w σ o (data ++ [d]))
    (hcode : w.Holds o [(⟨.setGlobal, k⟩, line)]) (hk : k ≤ Chunk.maxShort)
    (hname : w.strings.get? k = some name) (hdefined : (σ.globals name).isSome) :
    ∃ m', m.Leads natives 1 m' ∧
      m'.Shows before w (σ.defineGlobal name d) (o + 3) (data ++ [d]) := by
  refine h.leads (hcode.decode hk) fun closure _ m₁ h₁ => ?_
  obtain ⟨v, hpeek, hissued, rfl⟩ := (h₁.intern name).peek_top
  have hinserted := (h₁.intern name).insertGlobal (h₁.heap.valid.get?_intern name) hissued
  refine ⟨_, ?_, hinserted⟩
  rw [h₁.execute_setGlobal natives hname, if_pos hdefined, bind_apply, hpeek]
  rfl

lemma fails_setGlobal {α : Type} {Q : α → Store → Machine → Prop} (h : m.Shows before w σ o data)
    (hcode : w.Holds o [(⟨.setGlobal, k⟩, line)]) (hk : k ≤ Chunk.maxShort)
    (hname : w.strings.get? k = some name) (hundefined : ¬ (σ.globals name).isSome) :
    m.Agrees natives before bound (.error (.failed (.undefinedVariable name)) σ) Q := by
  obtain ⟨closure, fname, m₁, h₁, hrun⟩ := h.run_succ (hcode.decode hk) natives
  refine ⟨1, m₁.interned name, fun n => ?_, (h₁.intern name).reports⟩
  rw [hrun, h₁.execute_setGlobal natives hname, if_neg hundefined]

lemma leads_setLocal (h : m.Shows before w σ o (data ++ [d])) (hk : k < data.length)
    (hcode : w.Holds o [(⟨.setLocal, k⟩, line)]) (hmax : k ≤ Chunk.maxShort) :
    ∃ m', m.Leads natives 1 m' ∧ m'.Shows before w σ (o + 3) (data.set k d ++ [d]) := by
  refine h.leads (hcode.decode hmax) fun closure _ m₁ h₁ => ?_
  have hsize := h₁.size_eq
  rw [List.length_append] at hsize
  obtain ⟨v, hpeek, hissued, rfl⟩ := h₁.peek_top
  rw [peek_apply, if_pos (by omega)] at hpeek
  injection hpeek with hv
  have hset := h₁.setSlot hissued k
  rw [List.set_append_left _ _ hk] at hset
  refine ⟨_, ?_, hset⟩
  change setLocal (0 + k) m₁ = _
  rw [Nat.zero_add, setLocal_apply (by omega), ← hv]
  rfl

/-! ### Control -/

lemma leads_pop (h : m.Shows before w σ o (data ++ [d])) (hcode : w.Holds o [(⟨.pop, 0⟩, line)]) :
    ∃ m', m.Leads natives 1 m' ∧ m'.Shows before w σ (o + 1) data := by
  refine h.leads (hcode.decode rfl) fun closure _ m₁ h₁ => ?_
  obtain ⟨v, m₂, hpop, h₂, -⟩ := h₁.pop
  refine ⟨m₂, ?_, h₂⟩
  change (do let _ ← Machine.pop : MachineM Unit) m₁ = _
  rw [bind_apply, hpop]
  rfl

lemma leads_print (h : m.Shows before w σ o (data ++ [d]))
    (hcode : w.Holds o [(⟨.print, 0⟩, line)]) :
    ∃ m', m.Leads natives 1 m' ∧ m'.Shows before w (σ.print d) (o + 1) data := by
  refine h.leads (hcode.decode rfl) fun closure _ m₁ h₁ => ?_
  obtain ⟨v, m₂, hpop, h₂, hheap, -, rfl⟩ := h₁.pop
  refine ⟨{ m₂ with printed := m₂.printed.push (m₂.heap.valueText v ++ [Text.newline]) }, ?_,
    { h₂ with printed := ?_ }⟩
  · change Machine.print m₁ = _
    unfold Machine.print
    rw [bind_apply, hpop]
    rfl
  · rw [Array.toList_push, h₂.printed, Store.print, Heap.text_datum, hheap, List.append_assoc]

lemma leads_jump (h : m.Shows before w σ o data) (hcode : w.Holds o [(⟨.jump, k⟩, line)])
    (hk : k ≤ Chunk.maxShort) :
    ∃ m', m.Leads natives 1 m' ∧ m'.Shows before w σ (o + 3 + k) data :=
  h.leads (hcode.decode hk) fun _ _ m₁ h₁ => ⟨_, setIp_apply _ m₁, h₁.setIp _⟩

lemma leads_jumpIfFalse (h : m.Shows before w σ o (data ++ [d]))
    (hcode : w.Holds o [(⟨.jumpIfFalse, k⟩, line)]) (hk : k ≤ Chunk.maxShort) :
    ∃ m', m.Leads natives 1 m' ∧
      m'.Shows before w σ (if d.isFalsey then o + 3 + k else o + 3) (data ++ [d]) := by
  refine h.leads (hcode.decode hk) fun closure fname m₁ h₁ => ?_
  obtain ⟨v, hpeek, -, rfl⟩ := h₁.peek_top
  have hrun : execute natives ⟨closure, fname, w, o + 3, 0⟩ ⟨.jumpIfFalse, k⟩ m₁ =
      (if v.isFalsey then Machine.setIp (o + 3 + k) else Pure.pure () : MachineM Unit) m₁ := by
    change (do if (← Machine.peek 0).isFalsey then Machine.setIp (o + 3 + k) : MachineM Unit) m₁ = _
    rw [bind_apply, hpeek]
  rw [Heap.isFalsey_datum]
  by_cases hfalsey : v.isFalsey
  · rw [if_pos hfalsey] at hrun ⊢
    exact ⟨_, hrun, h₁.setIp _⟩
  · rw [if_neg hfalsey] at hrun ⊢
    exact ⟨m₁, hrun, h₁⟩

lemma leads_loop (h : m.Shows before w σ o data) (hcode : w.Holds o [(⟨.loop, k⟩, line)])
    (hk : k ≤ Chunk.maxShort) (hback : k ≤ o + 3) :
    ∃ m', m.Leads natives 1 m' ∧ m'.Shows before w σ (o + 3 - k) data := by
  refine h.leads (hcode.decode hk) fun closure fname m₁ h₁ => ⟨_, ?_, h₁.setIp _⟩
  change (if o + 3 < k then throw (.fault .loopBeforeStart) else Machine.setIp (o + 3 - k) :
    MachineM Unit) m₁ = _
  rw [if_neg (Nat.not_lt.2 hback)]
  rfl

/-- The end of the script. -/
lemma run_ret (h : m.Shows before w σ o [a, d]) (hcode : w.Holds o [(⟨.ret, 0⟩, line)]) :
    ∃ m', (∀ n, run natives (2 + n) m = .ok () m') ∧ m'.Reports before σ := by
  have hreturn : ∃ m', m.Leads natives 1 m' ∧ m'.frames = #[] ∧ m'.Reports before σ := by
    refine h.leads (hcode.decode rfl) fun closure fname m₁ h₁ => ⟨m₁.returned 0, ?_, ?_, ?_⟩
    · have hsize : 0 < m₁.stack.size := by
        rw [h₁.size_eq]
        exact Nat.zero_lt_succ _
      obtain ⟨_, _, hframes⟩ := h₁.frames
      change doReturn ⟨closure, fname, w, o + 1, 0⟩ m₁ = _
      rw [doReturn_apply _ hsize, hframes]
      rfl
    · obtain ⟨_, _, hframes⟩ := h₁.frames
      change m₁.frames.pop = #[]
      rw [hframes]
      rfl
    · have hclosed : m₁.returned 0 = { m₁ with
          frames := m₁.frames.pop, stack := resized m₁.stack.pop 0, openUpvalues := [] } := by
        unfold returned closeUpvalues
        dsimp only
        rw [h₁.opened]
        rfl
      rw [hclosed]
      exact ⟨rfl, h₁.globals, h₁.printed⟩
  obtain ⟨m', hlead, hempty, hreports⟩ := hreturn
  refine ⟨m', fun n => ?_, hreports⟩
  have hfirst := hlead (1 + n)
  rw [← Nat.add_assoc] at hfirst
  rw [hfirst, Nat.add_comm, run_succ_apply, hempty]
  rfl

end Shows

end Instructions

end Machine

end Lox
