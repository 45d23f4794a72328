import Mathlib.Data.List.Nodup
import Lox.Proofs.Machine.Effect

/-!
# Captured variables keep their values

A captured variable has its value on the stack as long as its scope lives, and in its upvalue
afterwards (`Machine.captured?`).  Between two boundaries of instructions the value changes only by
an assignment to this very variable (`Machine.Assigns`).  Whatever else happens, the variable is
seen with the same value after it: its slot is dropped, a call ends, other values take the slot, a
collection takes place, or an error clears the stack.

`Machine.Keeps` is this relation between two machines.  It is shown for one instruction of a sound
machine (`Executing.keeps_execute`) and, since a run with a larger budget goes on from where the
smaller budget has stopped it (`run_add`), for each boundary of a script (`interpret_keeps`).
-/

namespace Lox

/-- There is a captured variable. -/
def Heap.HasUpvalue (h : Heap) (id : ObjectId) : Prop :=
  ∃ u, h.get? id = some (.upvalue u)

namespace Machine

/-- The value of a captured variable: what is in its slot while it is on the stack, and its own
value afterwards. -/
def captured? (m : Machine) (id : ObjectId) : Option Value :=
  match m.heap.get? id with
  | some (.upvalue (.onStack slot)) => m.stack[slot]?
  | some (.upvalue (.closed v)) => some v
  | _ => none

/-- The next instruction assigns to the captured variable: through its upvalue, or as a local in
the slot where it is. -/
def Assigns (m : Machine) (id : ObjectId) : Prop :=
  ∃ frame i, m.frames.back? = some frame ∧ frame.chunk.decode frame.ip = .ok i ∧
    (i.opcode = .setUpvalue ∧ (m.upvaluesOf frame.closure)[i.operand]? = some (some id) ∨
      i.opcode = .setLocal ∧ m.heap.get? id = some (.upvalue (.onStack (frame.base + i.operand))))

/-- All captured variables have values. -/
def Valued (m : Machine) : Prop :=
  ∀ {id : ObjectId}, m.heap.HasUpvalue id → ∃ v, m.captured? id = some v

section Captured

variable {m m' : Machine} {id : ObjectId} {v : Value}

lemma captured?_onStack {slot : Nat} (h : m.heap.get? id = some (.upvalue (.onStack slot))) :
    m.captured? id = m.stack[slot]? := by
  unfold captured?
  rw [h]

lemma captured?_closed (h : m.heap.get? id = some (.upvalue (.closed v))) :
    m.captured? id = some v := by
  unfold captured?
  rw [h]

lemma hasUpvalue_of_captured? (h : m.captured? id = some v) : m.heap.HasUpvalue id := by
  unfold captured? at h
  split at h
  · rename_i hid
    exact ⟨_, hid⟩
  · rename_i hid
    exact ⟨_, hid⟩
  · cases h

/-- Captured variables that are on the stack have values there. -/
lemma Sound.valued (h : m.Sound) (hslots : ∀ u ∈ m.openUpvalues, u.slot < m.stack.size) :
    m.Valued := by
  rintro id ⟨u, hu⟩
  cases u with
  | closed v => exact ⟨v, captured?_closed hu⟩
  | onStack slot =>
    have hlt := hslots _ (h.objects hu)
    refine ⟨m.stack[slot], ?_⟩
    rw [captured?_onStack hu]
    exact Array.getElem?_eq_getElem hlt

lemma Running.valued {n : Nat} (h : m.Running n) : m.Valued :=
  h.sound.valued h.slot_lt

end Captured

/-! ## What keeps captured variables -/

/-- The machine went on to another, and the captured variables in `P` kept their values. -/
structure Keeps (P : ObjectId → Prop) (m m' : Machine) : Prop where
  fresh : m.heap.fresh ≤ m'.heap.fresh
  upvalues : ∀ {id : ObjectId}, id < m.heap.fresh → m'.heap.HasUpvalue id → m.heap.HasUpvalue id
  values : ∀ {id : ObjectId} {v : Value}, P id → id < m.heap.fresh → m'.heap.HasUpvalue id →
    m.captured? id = some v → m'.captured? id = some v

namespace Keeps

variable {P : ObjectId → Prop} {m m' m'' : Machine}

lemma refl (P : ObjectId → Prop) (m : Machine) : m.Keeps P m :=
  ⟨Nat.le_refl _, fun _ hu => hu, fun _ _ _ hv => hv⟩

lemma trans (h₁ : m.Keeps P m') (h₂ : m'.Keeps P m'') : m.Keeps P m'' where
  fresh := Nat.le_trans h₁.fresh h₂.fresh
  upvalues hid hu := h₁.upvalues hid (h₂.upvalues (Nat.lt_of_lt_of_le hid h₁.fresh) hu)
  values hP hid hu hv := by
    have hid' := Nat.lt_of_lt_of_le hid h₁.fresh
    exact h₂.values hP hid' hu (h₁.values hP hid (h₂.upvalues hid' hu) hv)

/-- Only the heap and the stack matter. -/
lemma of_eq {m₀ : Machine} (h : m₀.Keeps P m') (hheap : m.heap = m₀.heap) (hstack : m.stack = m₀.stack) :
    m.Keeps P m' := by
  have hcaptured : ∀ id, m.captured? id = m₀.captured? id := by
    intro id
    unfold captured?
    rw [hheap, hstack]
  obtain ⟨hfresh, hupvalues, hvalues⟩ := h
  exact ⟨hheap ▸ hfresh, hheap ▸ hupvalues, fun hP hid hu hv =>
    hvalues hP (hheap ▸ hid) hu (hcaptured _ ▸ hv)⟩

/-- What the relation says of an upvalue that is there before and after. -/
lemma exists_value (h : m.Keeps P m') (hvalid : m.heap.Valid) (hvalued : m.Valued) {id : ObjectId}
    (hP : P id) (hu : m.heap.HasUpvalue id) (hu' : m'.heap.HasUpvalue id) :
    ∃ v, m.captured? id = some v ∧ m'.captured? id = some v := by
  obtain ⟨v, hv⟩ := hvalued hu
  obtain ⟨u, hget⟩ := hu
  exact ⟨v, hv, h.values hP (hvalid.below hget) hu' hv⟩

end Keeps

section Stack

variable {m m' : Machine} {P : ObjectId → Prop}

/-- What happens above the captured variables does not change them. -/
lemma Spares.keeps {low : Nat} (h : m.Spares low m') (hsound : m.Sound)
    (hslots : ∀ u ∈ m.openUpvalues, u.slot < low) : m.Keeps P m' where
  fresh := h.heap.fresh
  upvalues := by
    rintro id hid ⟨u, hu⟩
    exact ⟨u, h.heap.upvalues hid hu⟩
  values := by
    rintro id v - hid ⟨u, hu⟩ hv
    have hold := h.heap.upvalues hid hu
    cases u with
    | closed v' =>
      rw [captured?_closed hold] at hv
      rw [captured?_closed hu]
      exact hv
    | onStack slot =>
      rw [captured?_onStack hold] at hv
      rw [captured?_onStack hu, h.stack slot (hslots _ (hsound.objects hold))]
      exact hv

/-- A slot is assigned to. -/
lemma keeps_set (slot : Nat) (v : Value)
    (hP : ∀ id, P id → m.heap.get? id ≠ some (.upvalue (.onStack slot))) :
    m.Keeps P { m with stack := m.stack.setIfInBounds slot v } where
  fresh := Nat.le_refl _
  upvalues _ hu := hu
  values := by
    rintro id v' hid - ⟨u, hu⟩ hv
    cases u with
    | closed v'' =>
      have hold : m.captured? id = some v'' := captured?_closed hu
      rw [captured?_closed hu, ← hold]
      exact hv
    | onStack slot' =>
      have hne : slot ≠ slot' := by
        rintro rfl
        exact hP id hid hu
      have hold : m.captured? id = m.stack[slot']? := captured?_onStack hu
      rw [captured?_onStack hu]
      show (m.stack.setIfInBounds slot v)[slot']? = _
      rw [Array.getElem?_setIfInBounds_ne hne, ← hold]
      exact hv

/-- A captured variable that has left the stack is assigned to. -/
lemma keeps_closeUpvalue {i : ObjectId} {v' : Value}
    (hi : m.heap.get? i = some (.upvalue (.closed v'))) (v : Value) (hP : ¬ P i) :
    m.Keeps P { m with heap := m.heap.closeUpvalue i v } where
  fresh := Nat.le_refl _
  upvalues := by
    rintro id - ⟨u, hu⟩
    simp only [Heap.get?_closeUpvalue] at hu
    split at hu
    · rename_i heq
      exact ⟨_, heq ▸ hi⟩
    · exact ⟨u, hu⟩
  values := by
    intro id v'' hid _ _ hv
    have hne : id ≠ i := by
      rintro rfl
      exact hP hid
    unfold captured? at hv ⊢
    simp only [Heap.get?_closeUpvalue]
    rw [if_neg hne]
    exact hv

/-- Two captured variables are not in one slot. -/
lemma Sound.eq_of_onStack (hsound : m.Sound) {id id' : ObjectId} {slot : Nat}
    (hid : m.heap.get? id = some (.upvalue (.onStack slot)))
    (hid' : m.heap.get? id' = some (.upvalue (.onStack slot))) : id = id' := by
  have hmem : (⟨slot, id⟩ : OpenUpvalue) ∈ m.openUpvalues := hsound.objects hid
  have hmem' : (⟨slot, id'⟩ : OpenUpvalue) ∈ m.openUpvalues := hsound.objects hid'
  have hslots : (m.openUpvalues.map OpenUpvalue.slot).Nodup :=
    List.pairwise_map.2 (hsound.sorted.imp fun hlt => Nat.ne_of_gt hlt)
  exact congrArg OpenUpvalue.id (List.inj_on_of_nodup_map hslots hmem hmem' rfl)

end Stack

/-! ## Leaving the stack -/

end Machine

/-- The captured variables that leave the stack take their values along. -/
lemma Heap.get?_closeAll {us : List OpenUpvalue} {h : Heap} (hv : h.Valid)
    (hus : ∀ u ∈ us, ∃ x, h.get? u.id = some (.upvalue x))
    (hinj : ∀ u ∈ us, ∀ u' ∈ us, u.id = u'.id → u = u') (value : OpenUpvalue → Value)
    {u : OpenUpvalue} (hu : u ∈ us) :
    (us.foldl (fun h u => h.closeUpvalue u.id (value u)) h).get? u.id =
      some (.upvalue (.closed (value u))) := by
  induction us generalizing h with
  | nil => simp at hu
  | cons u₀ us ih =>
    obtain ⟨⟨x, hx⟩, hrest⟩ := List.forall_mem_cons.1 hus
    have hvalid : (h.closeUpvalue u₀.id (value u₀)).Valid := hv.update (by simp [hx]) (by simp)
    have hrest' : ∀ u ∈ us, ∃ x, (h.closeUpvalue u₀.id (value u₀)).get? u.id = some (.upvalue x) := by
      intro u hu
      obtain ⟨y, hy⟩ := hrest u hu
      rw [get?_closeUpvalue]
      split
      · exact ⟨_, by rw [hx]; rfl⟩
      · exact ⟨y, hy⟩
    rw [List.foldl_cons]
    by_cases hmem : u ∈ us
    · exact ih hvalid hrest' (fun u hu u' hu' => hinj u (.tail _ hu) u' (.tail _ hu')) hmem
    · obtain rfl : u = u₀ := (List.mem_cons.1 hu).resolve_right hmem
      have hid : u.id ∉ us.map OpenUpvalue.id := by
        intro hid
        obtain ⟨u', hu', heq⟩ := List.mem_map.1 hid
        exact hmem (hinj u' (.tail _ hu') u (.head _) heq ▸ hu')
      rw [(hvalid.closeAll hrest' value).2.2.1 u.id hid, get?_closeUpvalue, if_pos rfl, hx]
      rfl

namespace Machine

section Closing

variable {m m' : Machine}

/-- The captured variables from a slot on leave the stack, and the slots from there on may get any
other values. -/
lemma Sound.keeps_closeUpvalues (h : m.Sound) (last : Nat) (P : ObjectId → Prop)
    (hheap : m'.heap = (m.closeUpvalues last).heap)
    (hstack : ∀ slot < last, m'.stack[slot]? = m.stack[slot]?) : m.Keeps P m' := by
  obtain ⟨hsound', hleft, -⟩ := h.closeUpvalues last
  have hsplit : m.openUpvalues.takeWhile (fun u => decide (last ≤ u.slot)) ++
      m.openUpvalues.dropWhile (fun u => decide (last ≤ u.slot)) = m.openUpvalues :=
    List.takeWhile_append_dropWhile
  have hopen : (m.closeUpvalues last).openUpvalues =
      m.openUpvalues.dropWhile fun u => decide (last ≤ u.slot) := by
    rw [Machine.closeUpvalues, List.span_eq_takeWhile_dropWhile]
  have hclose : (m.closeUpvalues last).heap =
      (m.openUpvalues.takeWhile fun u => decide (last ≤ u.slot)).foldl
        (fun h u => h.closeUpvalue u.id (m.stack.getD u.slot .nil)) m.heap := by
    rw [Machine.closeUpvalues, List.span_eq_takeWhile_dropWhile]
  generalize m.openUpvalues.takeWhile (fun u => decide (last ≤ u.slot)) = closing at hsplit hclose
  generalize m.openUpvalues.dropWhile (fun u => decide (last ≤ u.slot)) = rest at hsplit hopen
  have hmem : ∀ u ∈ closing, u ∈ m.openUpvalues := fun u hu => hsplit ▸ List.mem_append_left _ hu
  have hclosing : ∀ u ∈ closing, ∃ x, m.heap.get? u.id = some (.upvalue x) :=
    fun u hu => ⟨_, h.opened u (hmem u hu)⟩
  have hinj : ∀ u ∈ closing, ∀ u' ∈ closing, u.id = u'.id → u = u' := by
    rintro ⟨slot, id⟩ hu ⟨slot', id'⟩ hu' heq
    have hget := h.opened _ (hmem _ hu)
    have hget' := h.opened _ (hmem _ hu')
    dsimp only at heq hget hget'
    subst heq
    rw [hget] at hget'
    cases hget'
    rfl
  obtain ⟨-, hlater, hsame, -⟩ := h.heap.closeAll hclosing fun u => m.stack.getD u.slot .nil
  have hvalues := fun u hu => Heap.get?_closeAll h.heap hclosing hinj
    (fun u => m.stack.getD u.slot .nil) (u := u) hu
  rw [← hclose, ← hheap] at hlater
  rw [← hclose, ← hheap] at hsame
  rw [← hclose, ← hheap] at hvalues
  refine ⟨hlater.fresh, fun {id} _ hu => ?_, fun {id v} _ _ _ hv => ?_⟩
  · by_cases hid : id ∈ closing.map OpenUpvalue.id
    · obtain ⟨u', hu', rfl⟩ := List.mem_map.1 hid
      exact hclosing u' hu'
    · obtain ⟨u, hget⟩ := hu
      exact ⟨u, hsame id hid ▸ hget⟩
  · by_cases hid : id ∈ closing.map OpenUpvalue.id
    · obtain ⟨u, hu, rfl⟩ := List.mem_map.1 hid
      rw [captured?_onStack (h.opened u (hmem u hu))] at hv
      rw [captured?_closed (hvalues u hu), Array.getD_eq_getD_getElem?, hv]
      rfl
    · obtain ⟨u, hget⟩ := hasUpvalue_of_captured? hv
      have hget' := hsame id hid
      rw [hget] at hget'
      cases u with
      | closed v' =>
        rw [captured?_closed hget] at hv
        rw [captured?_closed hget', hv]
      | onStack slot =>
        -- It was not among those that leave, so it is below them.
        have hlt : slot < last := by
          have hin : (⟨slot, id⟩ : OpenUpvalue) ∈ closing ++ rest := hsplit ▸ h.objects hget
          rcases List.mem_append.1 hin with hin | hin
          · exact absurd (List.mem_map.2 ⟨_, hin, rfl⟩) hid
          · exact (hleft _ (hopen ▸ hin)).2
        rw [captured?_onStack hget] at hv
        rw [captured?_onStack hget', hstack slot hlt, hv]

lemma Sound.keeps_resetStack (h : m.Sound) (P : ObjectId → Prop) : m.Keeps P m.resetStack :=
  h.keeps_closeUpvalues 0 P rfl fun slot hslot => absurd hslot (Nat.not_lt_zero slot)

lemma Sound.valued_resetStack (h : m.Sound) : m.resetStack.Valued :=
  h.resetStack.valued fun _ hu => absurd hu List.not_mem_nil

end Closing

end Machine

/-! ## Instructions -/

/-- What an instruction drops is not captured. -/
lemma Instruction.Allows.exists_drops {w : Chunk} {upvalues next : Nat} {goOn : Nat → Shape → Prop}
    {i : Instruction} {a : Shape} (hneutral : i.Neutral) (h : i.Allows w upvalues next goOn a) :
    ∃ b, a = List.replicate i.drops false ++ b := by
  obtain ⟨op, operand⟩ := i
  obtain ⟨hlocal, hupvalue, hclose, hret⟩ := hneutral
  cases op with
  | setLocal => exact absurd rfl hlocal
  | setUpvalue => exact absurd rfl hupvalue
  | closeUpvalue => exact absurd rfl hclose
  | ret => exact absurd rfl hret
  | loadConstant | loadString | loadNil | loadTrue | loadFalse | getGlobal | setGlobal | getLocal
  | getUpvalue | jump | jumpIfFalse | loop | closure => exact ⟨a, rfl⟩
  | pop | negate | not | typeof | print =>
    obtain ⟨b, rfl, -⟩ := h
    exact ⟨b, rfl⟩
  | add | subtract | multiply | divide | equal | notEqual | less | greater | lessEqual
  | greaterEqual =>
    obtain ⟨b, rfl, -⟩ := h
    exact ⟨b, rfl⟩
  | defineGlobal =>
    obtain ⟨-, b, rfl, -⟩ := h
    exact ⟨b, rfl⟩
  | call =>
    obtain ⟨b, rfl, -⟩ := h
    exact ⟨b, rfl⟩

/-- What an instruction drops belongs to its call. -/
lemma Instruction.Allows.drops_le {w : Chunk} {upvalues next : Nat} {goOn : Nat → Shape → Prop}
    {i : Instruction} {a : Shape} (h : i.Allows w upvalues next goOn a) : i.drops ≤ a.length := by
  by_cases hneutral : i.Neutral
  · obtain ⟨b, rfl⟩ := h.exists_drops hneutral
    simp
  obtain ⟨op, operand⟩ := i
  by_cases hclose : op = .closeUpvalue
  · subst hclose
    obtain ⟨x, b, rfl, -⟩ := h
    simp [Instruction.drops, Instruction.takes]
  by_cases hret : op = .ret
  · subst hret
    obtain ⟨b, rfl⟩ := h
    simp [Instruction.drops, Instruction.takes]
  have hset : op = .setLocal ∨ op = .setUpvalue := by
    by_contra hnone
    exact hneutral ⟨fun heq => hnone (.inl heq), fun heq => hnone (.inr heq), hclose, hret⟩
  rcases hset with rfl | rfl
  all_goals exact Nat.zero_le _

namespace Machine

/-- The computation is not suspended, and keeps the captured variables in `P`. -/
def Preserves {α : Type} (P : ObjectId → Prop) (f : MachineM α) (m : Machine) : Prop :=
  match f m with
  | .ok _ m' => m.Keeps P m'
  | .error e m' => e ≠ .suspended ∧ m.Keeps P m'

section Instructions

variable {m : Machine} {frame : Frame} {waiting : Array Frame} {k n : Nat} {a below : Shape}
  {natives : Natives} {P : ObjectId → Prop}

lemma Preserves.of_eq {α : Type} {f g : MachineM α} {m' : Machine}
    (heq : f m = g m') (h : m.Keeps P m') (hg : Preserves P g m') : Preserves P f m := by
  unfold Preserves at hg ⊢
  rw [heq]
  cases hrun : g m' with
  | ok b m'' =>
    rw [hrun] at hg
    exact h.trans hg
  | error e m'' =>
    rw [hrun] at hg
    exact ⟨hg.1, h.trans hg.2⟩

lemma Leaves.preserves {α : Type} {low : Nat} {f : MachineM α} {Q : α → Machine → Prop}
    (h : Leaves low f m Q) (hsound : m.Sound) (hslots : ∀ u ∈ m.openUpvalues, u.slot < low) :
    Preserves P f m := by
  unfold Leaves at h
  unfold Preserves
  cases hf : f m with
  | ok b m' =>
    rw [hf] at h
    exact h.1.keeps hsound hslots
  | error e m' =>
    rw [hf] at h
    exact ⟨h.1, h.2.keeps hsound hslots⟩

/-- Captured variables are below what is not captured. -/
lemma Executing.slot_lt_of_replicate {j : Nat} {b : Shape}
    (h : m.Executing frame waiting k n (List.replicate j false ++ b) below) {u : OpenUpvalue}
    (hu : u ∈ m.openUpvalues) : u.slot < m.stack.size - j := by
  have hflag := h.opened u hu
  rw [List.append_assoc] at hflag
  have hlt := Shape.lt_of_flag?_replicate hflag
  rw [h.size, List.append_assoc, List.length_append, List.length_replicate]
  omega

lemma Executing.preserves_neutral (hnatives : ∀ native ∈ natives, native.Lawful ∧ native.Contained)
    (h : m.Executing frame waiting k n a below) {i : Instruction} (hneutral : i.Neutral)
    (hallows : i.Allows frame.chunk k frame.ip (frame.chunk.Runs k n) a) :
    Preserves P (execute natives frame i) m := by
  obtain ⟨b, rfl⟩ := hallows.exists_drops hneutral
  have hsize : m.stack.size = m.stack.size - i.drops + i.drops := by
    have hlength := h.size
    rw [List.append_assoc, List.length_append, List.length_replicate] at hlength
    omega
  have hleaves := execute_leaves hnatives h.sound hneutral hsize frame
  exact hleaves.preserves h.sound fun u hu => h.slot_lt_of_replicate hu

lemma Executing.preserves_setLocal (h : m.Executing frame waiting k n a below) {operand : Nat}
    (hlt : operand < a.length)
    (hP : ∀ id, P id → m.heap.get? id ≠ some (.upvalue (.onStack (frame.base + operand)))) :
    Preserves P (execute natives frame ⟨.setLocal, operand⟩) m := by
  have hrun : execute natives frame ⟨.setLocal, operand⟩ m = _ := setLocal_apply (h.slot_of_lt hlt)
  unfold Preserves
  rw [hrun]
  exact keeps_set _ _ hP

lemma Sound.preserves_setUpvalue (h : m.Sound) {operand : Nat}
    (hP : ∀ id, P id → (m.upvaluesOf frame.closure)[operand]? ≠ some (some id)) :
    Preserves P (execute natives frame ⟨.setUpvalue, operand⟩) m := by
  unfold Preserves
  rcases setUpvalue_cases frame operand m with ⟨f, herror⟩ | ⟨id, v, hid, hwrite⟩
  · rw [herror]
    exact ⟨by simp, .refl P m⟩
  rw [hwrite]
  rcases writeUpvalue_cases id v m with ⟨f, herror⟩ | hsame |
    ⟨i, rfl, ⟨slot, hslot, -, hset⟩ | ⟨v', hclosed, hset⟩⟩
  · rw [herror]
    exact ⟨by simp, .refl P m⟩
  · rw [hsame]
    exact .refl P m
  · rw [hset]
    refine keeps_set slot v fun id' hid' hget => ?_
    rw [h.eq_of_onStack hslot hget] at hid
    exact hP id' hid' hid
  · rw [hset]
    exact keeps_closeUpvalue hclosed v fun hi => hP i hi hid

lemma Executing.preserves_closeUpvalue (h : m.Executing frame waiting k n a below) (ha : a ≠ [])
    (operand : Nat) : Preserves P (execute natives frame ⟨.closeUpvalue, operand⟩) m := by
  have hpos : 0 < m.stack.size := by
    rw [h.size, List.length_append]
    exact Nat.lt_of_lt_of_le (List.length_pos_iff.2 ha) (Nat.le_add_right _ _)
  unfold Preserves
  rw [closeUpvalue_apply frame operand hpos]
  refine h.sound.keeps_closeUpvalues (m.stack.size - 1) P rfl fun slot hslot => ?_
  show m.stack.pop[slot]? = _
  rw [Array.getElem?_pop, if_pos hslot]

lemma Executing.preserves_doReturn (h : m.Executing frame waiting k n (false :: a) below) :
    Preserves P (doReturn frame) m := by
  have hsize := h.size
  rw [List.cons_append, List.length_cons, List.length_append] at hsize
  have hbase := h.base
  have hpos : 0 < m.stack.size := by omega
  -- The result comes off the stack, the variables of the call leave it, then the rest goes.
  have hpopped : m.Keeps P { m with stack := m.stack.pop } := by
    have hspares : m.Spares (m.stack.size - 1) { m with stack := m.stack.pop } := by
      refine .of_stack rfl fun slot hslot => ?_
      show m.stack.pop[slot]? = _
      rw [Array.getElem?_pop, if_pos hslot]
    exact hspares.keeps h.sound fun u hu => h.slot_lt_of_replicate (j := 1) hu
  have hsound : Sound { m with stack := m.stack.pop } := h.sound.of_eq rfl rfl
  have hreturned : Keeps P { m with stack := m.stack.pop } (m.returned frame.base) := by
    refine hsound.keeps_closeUpvalues frame.base P rfl fun slot hslot => ?_
    have hcut : Spares frame.base { m with stack := m.stack.pop }
        { m with stack := resized m.stack.pop frame.base } :=
      .resized (Nat.le_refl _) (by simp only [Array.size_pop]; omega)
    exact hcut.stack slot hslot
  have hkeeps := hpopped.trans hreturned
  by_cases hlast : m.frames.pop.isEmpty
  · unfold Preserves
    rw [doReturn_apply frame hpos, if_pos hlast]
    exact hkeeps
  · have hrun := doReturn_apply frame hpos
    rw [if_neg hlast] at hrun
    obtain ⟨hclosed, hleft, -⟩ := hsound.closeUpvalues frame.base
    have hheight : (m.returned frame.base).stack.size = frame.base + 0 := size_returned m _
    refine .of_eq hrun hkeeps ((leaves_push hheight _).preserves (hclosed.of_eq rfl rfl) ?_)
    exact fun u hu => (hleft u hu).2

/-- An instruction keeps all captured variables that it does not assign to. -/
lemma Executing.preserves_execute (hnatives : ∀ native ∈ natives, native.Lawful ∧ native.Contained)
    (h : m.Executing frame waiting k n a below) {i : Instruction}
    (hallows : i.Allows frame.chunk k frame.ip (frame.chunk.Runs k n) a)
    (hupvalue : i.opcode = .setUpvalue → ∀ id, P id →
      (m.upvaluesOf frame.closure)[i.operand]? ≠ some (some id))
    (hlocal : i.opcode = .setLocal → ∀ id, P id →
      m.heap.get? id ≠ some (.upvalue (.onStack (frame.base + i.operand)))) :
    Preserves P (execute natives frame i) m := by
  obtain ⟨op, operand⟩ := i
  by_cases hset : op = .setLocal
  · subst hset
    obtain ⟨hlt, -⟩ := hallows
    exact h.preserves_setLocal hlt (hlocal rfl)
  by_cases hset' : op = .setUpvalue
  · subst hset'
    exact h.sound.preserves_setUpvalue (hupvalue rfl)
  by_cases hclose : op = .closeUpvalue
  · subst hclose
    obtain ⟨x, b, rfl, -⟩ := hallows
    exact h.preserves_closeUpvalue (by simp) operand
  by_cases hret : op = .ret
  · subst hret
    obtain ⟨b, rfl⟩ := hallows
    exact h.preserves_doReturn
  exact h.preserves_neutral hnatives ⟨hset, hset', hclose, hret⟩ hallows

end Instructions

/-! ## Boundaries -/

section Boundaries

variable {m : Machine} {frame : Frame} {natives : Natives} {n : Nat}

/-- A collection changes nothing that is left on the heap. -/
lemma Sound.get?_collectIfDue (h : m.Sound) {id : ObjectId} {o : Object}
    (hget : m.collectIfDue.heap.get? id = some o) : m.heap.get? id = some o := by
  unfold collectIfDue at hget
  split at hget
  · exact (h.heap.get?_collect_eq_some.1 hget).2
  · exact hget

lemma Sound.spares_collectIfDue (h : m.Sound) : m.heap.Spares m.collectIfDue.heap := by
  unfold collectIfDue
  split
  · exact h.heap.spares_collect m.roots
  · exact .refl _

/-- From one boundary to the next, a machine keeps all captured variables that are not assigned
to. -/
lemma Running.step (hnatives : ∀ native ∈ natives, native.Lawful ∧ native.Contained)
    (h : m.Running (n + 1)) (hframe : m.frames.back? = some frame) :
    match (do betweenInstructions frame; Machine.step natives frame : MachineM Unit) m with
    | .ok _ m' => m'.Running n ∧ m.Keeps (fun id => ¬ m.Assigns id) m'
    | .error (.runtime _) m' => m'.Sound ∧ m.Keeps (fun id => ¬ m.Assigns id) m'
    | .error _ _ => False := by
  obtain ⟨i, traced, waiting, k, a, below, hentered⟩ := h.entered hframe natives
  -- What the collection leaves is as it was at the boundary.
  have hkept : ∀ {id : ObjectId} {o : Object}, (m.entered traced (frame.ip + i.size)).heap.get? id =
      some o → m.heap.get? id = some o :=
    fun hget => h.sound.get?_collectIfDue hget
  have hkeeps : m.Keeps (fun id => ¬ m.Assigns id) (m.entered traced (frame.ip + i.size)) := by
    have hspares : m.Spares m.stack.size (m.entered traced (frame.ip + i.size)) :=
      .of_heap h.sound.spares_collectIfDue (stack_entered m traced _)
    exact hspares.keeps h.sound fun u hu => h.slot_lt u hu
  have hupvalues : (m.entered traced (frame.ip + i.size)).upvaluesOf frame.closure =
      m.upvaluesOf frame.closure := by
    obtain ⟨made, us, hget, -⟩ := hentered.executing.closure
    unfold upvaluesOf
    rw [hget, hkept hget]
  have hpreserves : Preserves (fun id => ¬ m.Assigns id)
      (execute natives { frame with ip := frame.ip + i.size } i)
      (m.entered traced (frame.ip + i.size)) := by
    refine hentered.executing.preserves_execute hnatives hentered.allows ?_ ?_
    · intro hop id hid hplace
      rw [hupvalues] at hplace
      exact hid ⟨frame, i, hframe, hentered.decode, .inl ⟨hop, hplace⟩⟩
    · intro hop id hid hget
      exact hid ⟨frame, i, hframe, hentered.decode, .inr ⟨hop, hkept hget⟩⟩
  have hwhole := Preserves.of_eq hentered.step hkeeps hpreserves
  have hensures := h.ensures_step (fun native hn => (hnatives native hn).1) hframe
  rw [Ensures] at hensures
  unfold Preserves at hwhole
  cases hresult : (do betweenInstructions frame; Machine.step natives frame : MachineM Unit) m with
  | ok _ m' =>
    rw [hresult] at hwhole hensures
    exact ⟨hensures, hwhole⟩
  | error e m' =>
    rw [hresult] at hwhole hensures
    cases e with
    | runtime cause => exact ⟨hensures, hwhole.2⟩
    | fault f => exact hensures
    | suspended => exact absurd rfl hwhole.1

end Boundaries

/-! ## Runs -/

section Runs

variable {m : Machine} {natives : Natives}

/-- What a run leaves.  After a run that was stopped the machine goes on as before. -/
lemma Running.run (hnatives : ∀ native ∈ natives, native.Lawful ∧ native.Contained) {n k : Nat}
    (h : m.Running (n + k)) :
    match Machine.run natives n m with
    | .ok _ m' => m'.Running k ∧ m'.frames = #[] ∧ ∀ j, Machine.run natives (n + j) m = .ok () m'
    | .error (.runtime cause) m' =>
      m'.Sound ∧ ∀ j, Machine.run natives (n + j) m = .error (.runtime cause) m'
    | .error .suspended m' =>
      m'.Running k ∧ ∀ j, Machine.run natives (n + j) m = Machine.run natives j m'
    | .error (.fault _) _ => False := by
  induction n generalizing m with
  | zero =>
    rw [Nat.zero_add] at h
    rw [run_zero_apply]
    exact ⟨h, fun j => by rw [Nat.zero_add]⟩
  | succ n ih =>
    have hsucc : ∀ j, n + 1 + j = n + j + 1 := fun j => by omega
    rw [hsucc] at h
    simp only [hsucc, run_succ_apply]
    cases hframe : m.frames.back? with
    | none =>
      have hframes : m.frames = #[] := by simpa using hframe
      cases h with
      | idle hsound _ hnone => exact ⟨.idle hsound hframes hnone, hframes, fun _ => rfl⟩
      | call h _ =>
        rw [h.frames] at hframes
        simp at hframes
    | some frame =>
      have hstep := h.step hnatives hframe
      dsimp only
      cases hresult : (do betweenInstructions frame; Machine.step natives frame : MachineM Unit) m with
      | ok _ m₁ =>
        rw [hresult] at hstep
        exact ih hstep.1
      | error e m₁ =>
        rw [hresult] at hstep
        cases e with
        | runtime cause => exact ⟨hstep.1, fun _ => rfl⟩
        | fault f => exact hstep
        | suspended => exact hstep.elim

end Runs

/-! ## Scripts -/

section Scripts

variable {m : Machine} {natives : Natives} {script : Prototype}

/-- Nothing is on the stack, so the captured variables there are none. -/
lemma Sound.loading (h : m.Sound) (hscript : script.Verified) (P : ObjectId → Prop) :
    (m.loading script).Sound ∧ m.Keeps P (m.loading script) := by
  refine ⟨h.resetStack.allocateClosure hscript, (h.keeps_resetStack P).trans ?_⟩
  have hheap := (m.resetStack.heap.spares_allocate (.function (.ofPrototype script))).trans
    (Heap.spares_allocate _ (.newClosure (some m.resetStack.heap.fresh) script.captures.size))
  have hspares : m.resetStack.Spares 0 (m.loading script) := .of_heap hheap rfl
  exact hspares.keeps h.resetStack fun _ hu => absurd hu List.not_mem_nil

lemma Sound.loaded (h : m.Sound) (hscript : script.Verified) (P : ObjectId → Prop) :
    (m.loaded script).Sound ∧ m.Keeps P (m.loaded script) := by
  obtain ⟨hsound, hkeeps⟩ := h.loading hscript P
  refine ⟨hsound.of_eq rfl rfl, hkeeps.trans ?_⟩
  have hspares : (m.loading script).Spares 0 (m.loaded script) :=
    .of_stack rfl fun slot hslot => absurd hslot (Nat.not_lt_zero slot)
  exact hspares.keeps hsound fun _ hu => absurd hu List.not_mem_nil

/-- A script either cannot be called, or it is called and then run. -/
lemma Sound.interpret_cases (h : m.Sound) (hscript : script.Verified) (natives : Natives)
    (P : ObjectId → Prop) :
    (∃ e m', m'.Sound ∧ m'.Valued ∧ m'.frames = #[] ∧ m.Keeps P m' ∧
      ∀ n, m.interpret natives n script = (e, m')) ∨
    ∃ m', (∀ n, m'.Running n) ∧ m.Keeps P m' ∧
      ∀ n, m.interpret natives n script = ending (run natives n m') := by
  obtain ⟨hloading, hkeeps⟩ := h.loading hscript P
  obtain ⟨hloaded, hkeeps'⟩ := h.loaded hscript P
  by_cases hfull : m.config.maxStack ≤ 0
  · refine .inl ⟨.failed ⟨.stackOverflow, 0, []⟩, m.loading script, hloading,
      hloading.valued (fun _ hu => absurd hu List.not_mem_nil), rfl, hkeeps, fun n => ?_⟩
    rw [interpret_eq, if_pos hfull]
  have hrunning : ∀ n, Ensures (callClosure m.scriptId (.ofPrototype script) 0) (m.loaded script)
      fun _ => Running n := by
    intro n
    have hensures := h.ensures_load hscript n
    rw [Ensures, loadScript_apply, if_neg hfull] at hensures
    exact hensures
  have hcall : Leaves 0 (callClosure m.scriptId (.ofPrototype script) 0) (m.loaded script) _ :=
    leaves_callClosure _ _ _
  have hpreserves : Preserves P (callClosure m.scriptId (.ofPrototype script) 0) (m.loaded script) :=
    hcall.preserves hloaded fun _ hu => absurd hu List.not_mem_nil
  unfold Preserves at hpreserves
  cases hresult : callClosure m.scriptId (.ofPrototype script) 0 (m.loaded script) with
  | ok _ m' =>
    rw [hresult] at hpreserves
    refine .inr ⟨m', fun n => ?_, hkeeps'.trans hpreserves, fun n => ?_⟩
    · have hensures := hrunning n
      rw [Ensures, hresult] at hensures
      exact hensures
    · rw [interpret_eq, if_neg hfull, bind_apply, hresult]
  | error e m' =>
    have hensures := hrunning 0
    rw [Ensures, hresult] at hensures
    rw [hresult] at hpreserves
    cases e with
    | fault f => exact hensures.elim
    | suspended => exact absurd rfl hpreserves.1
    | runtime cause =>
      refine .inl ⟨.failed ⟨cause, m'.currentLine, m'.stackTrace⟩, m'.resetStack,
        hensures.resetStack, hensures.valued_resetStack, rfl,
        (hkeeps'.trans hpreserves.2).trans (hensures.keeps_resetStack P), fun n => ?_⟩
      rw [interpret_eq, if_neg hfull, bind_apply, hresult]
      rfl

/-- At each boundary of a script that runs on a sound machine, all captured variables have values.
None of them changes from one boundary to the next, those apart that are assigned to. -/
theorem interpret_keeps (hnatives : ∀ native ∈ natives, native.Lawful ∧ native.Contained)
    (hscript : script.Verified) (h : m.Sound) (n : Nat) :
    (m.interpret natives n script).2.Sound ∧ (m.interpret natives n script).2.Valued ∧
      (m.interpret natives n script).2.Keeps
        (fun id => ¬ (m.interpret natives n script).2.Assigns id)
        (m.interpret natives (n + 1) script).2 := by
  rcases h.interpret_cases hscript natives fun _ => True with
    ⟨e, m', hsound, hvalued, -, -, hinterpret⟩ | ⟨m', hrunning, -, hinterpret⟩
  · rw [hinterpret, hinterpret]
    exact ⟨hsound, hvalued, .refl _ m'⟩
  have hrun := (hrunning (n + 1)).run hnatives
  rw [hinterpret, hinterpret]
  cases hresult : run natives n m' with
  | ok _ m₁ =>
    rw [hresult] at hrun
    obtain ⟨hrunning₁, -, hsame⟩ := hrun
    rw [hsame 1]
    exact ⟨hrunning₁.sound, hrunning₁.valued, .refl _ m₁⟩
  | error e m₁ =>
    rw [hresult] at hrun
    cases e with
    | fault f => exact hrun.elim
    | runtime cause =>
      obtain ⟨hsound₁, hsame⟩ := hrun
      rw [hsame 1]
      exact ⟨hsound₁.resetStack, hsound₁.valued_resetStack, .refl _ m₁.resetStack⟩
    | suspended =>
      obtain ⟨hrunning₁, hgoOn⟩ := hrun
      refine ⟨hrunning₁.sound, hrunning₁.valued, ?_⟩
      rw [hgoOn 1, run_succ_apply]
      cases hframe : m₁.frames.back? with
      | none => exact .refl _ m₁
      | some frame =>
        have hstep := hrunning₁.step hnatives hframe
        dsimp only
        cases hnext : (do betweenInstructions frame; step natives frame : MachineM Unit) m₁ with
        | ok _ m₂ =>
          rw [hnext] at hstep
          exact hstep.2
        | error e m₂ =>
          rw [hnext] at hstep
          cases e with
          | runtime cause => exact hstep.2.trans (hstep.1.keeps_resetStack _)
          | fault f => exact hstep.elim
          | suspended => exact hstep.elim

/-- Beginning a script changes no captured variable. -/
theorem interpret_zero_keeps (hscript : script.Verified) (h : m.Sound) (natives : Natives)
    (P : ObjectId → Prop) : m.Keeps P (m.interpret natives 0 script).2 := by
  rcases h.interpret_cases hscript natives P with ⟨e, m', -, -, -, hkeeps, hinterpret⟩ |
    ⟨m', -, hkeeps, hinterpret⟩
  · rw [hinterpret]
    exact hkeeps
  · rw [hinterpret, run_zero_apply]
    exact hkeeps

end Scripts

end Machine

end Lox
