import Lox.Proofs.Machine.Lasting

/-!
# Closures have what they capture

A closure is put on the heap with empty places, which are then filled with its captured variables one
after another.  Between boundaries this is complete: every place of every closure on the heap holds a
captured variable that is on the heap too (`Heap.Attached`).

While a closure is made it is the one exception (`Heap.Filling`).  Its captured variables come from the
stack of the call that makes it, or from the running closure, which is another one and has its own.
-/

namespace Lox

namespace Heap

/-! ## Places of closures -/

/-- The place of a closure holds a captured variable that is on the heap. -/
def Attaches (h : Heap) (u : Option ObjectId) : Prop :=
  ∃ j, u = some j ∧ h.HasUpvalue j

/-- All closures on the heap have all their captured variables. -/
def Attached (h : Heap) : Prop :=
  ∀ id made us, h.get? id = some (.closure made us) → ∀ u ∈ us, h.Attaches u

/-- The first places of this closure, which has `count` of them, are filled.  All other closures have
all their captured variables. -/
structure Filling (h : Heap) (closure : ObjectId) (count place : Nat) : Prop where
  others : ∀ id made us, id ≠ closure → h.get? id = some (.closure made us) → ∀ u ∈ us, h.Attaches u
  own : ∃ made us, h.get? closure = some (.closure made us) ∧ us.size = count ∧
    ∀ p < place, ∃ u, us[p]? = some u ∧ h.Attaches u

section Attached

variable {h h' : Heap} {id closure : ObjectId} {count place : Nat} {u : Option ObjectId}

lemma HasUpvalue.allocate (hu : h.HasUpvalue id) (hv : h.Valid) (o : Object) :
    (h.allocate o).2.HasUpvalue id := by
  obtain ⟨x, hx⟩ := hu
  refine ⟨x, ?_⟩
  rw [get?_allocate, if_neg (Nat.ne_of_lt (hv.below hx)), hx]

lemma HasUpvalue.setUpvalue (hu : h.HasUpvalue id) (closure : ObjectId) (place : Nat)
    (u : Option ObjectId) : (h.setUpvalue closure place u).HasUpvalue id := by
  obtain ⟨x, hx⟩ := hu
  refine ⟨x, ?_⟩
  rw [get?_setUpvalue]
  split
  · rename_i heq
    rw [← heq, hx]
    rfl
  · exact hx

lemma Attaches.mono (hu : h.Attaches u) (hkept : ∀ id, h.HasUpvalue id → h'.HasUpvalue id) :
    h'.Attaches u := by
  obtain ⟨j, hj, hup⟩ := hu
  exact ⟨j, hj, hkept j hup⟩

/-- No closure comes to the heap, and no captured variable leaves it. -/
lemma Attached.of_kept (hh : h.Attached)
    (hold : ∀ id made us, h'.get? id = some (.closure made us) → h.get? id = some (.closure made us))
    (hkept : ∀ id, h.HasUpvalue id → h'.HasUpvalue id) : h'.Attached :=
  fun id made us hget u hu => (hh id made us (hold id made us hget) u hu).mono hkept

lemma Attached.allocate (hh : h.Attached) (hv : h.Valid) {o : Object}
    (ho : ∀ made us, o ≠ .closure made us) : (h.allocate o).2.Attached := by
  refine hh.of_kept (fun id made us hget => ?_) fun id hu => hu.allocate hv o
  rw [get?_allocate] at hget
  split at hget
  · exact absurd (Option.some.inj hget) (ho made us)
  · exact hget

lemma lasting_attached : Lasting Attached where
  intern {h} t hv hh := by
    refine hh.of_kept (fun id made us hget => ?_) fun id ⟨x, hx⟩ => ⟨x, hv.get?_intern_of_some hx⟩
    rcases Valid.intern_eq (h := h) t with ⟨_, -, heq⟩ | ⟨-, -, -, -, hcells, -⟩
    · rwa [heq] at hget
    · have hallocated : (h.allocate (.string t)).2.get? id = some (.closure made us) := by
        rwa [get?, hcells] at hget
      rw [get?_allocate] at hallocated
      split at hallocated
      · cases hallocated
      · exact hallocated
  native o hv hh := hh.allocate hv (by simp)
  upvalue u hv hh := hh.allocate hv (by simp)
  assign {h i} v _ _ hh := by
    refine hh.of_kept (fun id made us hget => ?_) fun id hu => hu.closeUpvalue i v
    rw [get?_closeUpvalue] at hget
    split at hget
    · obtain ⟨_, -, heq⟩ := Option.map_eq_some_iff.1 hget
      cases heq
    · exact hget
  collect {h} roots hv hh := by
    intro id made us hget u hu
    obtain ⟨hreach, hold⟩ := hv.get?_collect_eq_some.1 hget
    obtain ⟨j, rfl, x, hx⟩ := hh id made us hold u hu
    -- What a closure has captured can be reached through it.
    have href : j ∈ h.referencesOf id := by
      rw [referencesOf, hold]
      exact List.mem_append_right _ (by simpa using hu)
    exact ⟨j, rfl, x, hv.get?_collect_eq_some.2 ⟨hreach.step href, hx⟩⟩

/-! ## A closure in the making -/

/-- A new closure has nothing in its places. -/
lemma Attached.newClosure (hh : h.Attached) (hv : h.Valid) (made : Option ObjectId) (count : Nat) :
    (h.allocate (.newClosure made count)).2.Filling h.fresh count 0 where
  others := by
    intro id made' us hne hget u hu
    rw [get?_allocate, if_neg hne] at hget
    exact (hh id made' us hget u hu).mono fun id hup => hup.allocate hv _
  own := ⟨made, Array.replicate count none, by simp [Object.newClosure], by simp, by simp⟩

lemma Filling.allocate (hf : h.Filling closure count place) (hv : h.Valid) (x : Upvalue) :
    (h.allocate (.upvalue x)).2.Filling closure count place := by
  have hkept : ∀ id, h.HasUpvalue id → (h.allocate (.upvalue x)).2.HasUpvalue id :=
    fun id hu => hu.allocate hv _
  refine ⟨fun id made us hne hget u hu => ?_, ?_⟩
  · rw [get?_allocate] at hget
    split at hget
    · cases hget
    · exact (hf.others id made us hne hget u hu).mono hkept
  · obtain ⟨made, us, hget, hsize, hfilled⟩ := hf.own
    refine ⟨made, us, ?_, hsize, fun p hp => ?_⟩
    · rw [get?_allocate, if_neg (Nat.ne_of_lt (hv.below hget)), hget]
    · obtain ⟨u, hu, hattaches⟩ := hfilled p hp
      exact ⟨u, hu, hattaches.mono hkept⟩

/-- The next place is filled. -/
lemma Filling.setUpvalue (hf : h.Filling closure count place) (hplace : place < count)
    (hu : h.Attaches u) : (h.setUpvalue closure place u).Filling closure count (place + 1) := by
  have hkept : ∀ id, h.HasUpvalue id → (h.setUpvalue closure place u).HasUpvalue id :=
    fun id hup => hup.setUpvalue closure place u
  refine ⟨fun id made us hne hget u' hu' => ?_, ?_⟩
  · rw [get?_setUpvalue, if_neg hne] at hget
    exact (hf.others id made us hne hget u' hu').mono hkept
  · obtain ⟨made, us, hget, hsize, hfilled⟩ := hf.own
    refine ⟨made, us.setIfInBounds place u, ?_, by simpa using hsize, fun p hp => ?_⟩
    · rw [get?_setUpvalue, if_pos rfl, hget]
      rfl
    · by_cases hlast : p = place
      · subst hlast
        exact ⟨u, by simp [hsize, hplace], hu.mono hkept⟩
      · obtain ⟨u', hu', hattaches⟩ := hfilled p (by omega)
        refine ⟨u', ?_, hattaches.mono hkept⟩
        rw [Array.getElem?_setIfInBounds_ne (Ne.symm hlast), hu']

lemma Filling.attached (hf : h.Filling closure count count) : h.Attached := by
  intro id made us hget u hu
  by_cases hne : id = closure
  · subst hne
    obtain ⟨made', us', hget', hsize, hfilled⟩ := hf.own
    rw [hget] at hget'
    cases hget'
    obtain ⟨p, hp, rfl⟩ := Array.mem_iff_getElem.1 hu
    obtain ⟨u', hu', hattaches⟩ := hfilled p (hsize ▸ hp)
    rw [Array.getElem?_eq_getElem hp] at hu'
    cases hu'
    exact hattaches
  · exact hf.others id made us hne hget u hu

end Attached

end Heap

namespace Machine

/-! ## Making closures -/

section Closures

variable {m : Machine} {frame : Frame} {waiting : Array Frame} {k n : Nat} {a below : Shape}
  {natives : Natives} {closure : ObjectId} {count place : Nat}

/-- A capture gives a captured variable, of the stack or of the running closure. -/
lemma Calling.capture_filled (h : m.Calling frame waiting k n a below) {c : Capture}
    (hc : if c.isLocal then a.flag? c.index = some true else c.index < k)
    (hf : m.heap.Filling closure count place) (hne : frame.closure ≠ closure) :
    ∃ u m', capture frame c m = .ok u m' ∧ m'.Calling frame waiting k n a below ∧
      m'.heap.Filling closure count place ∧ m'.heap.Attaches u := by
  have hensures := h.ensures_capture hc
  rw [Ensures] at hensures
  suffices hrun : ∃ u m', capture frame c m = .ok u m' ∧
      m'.heap.Filling closure count place ∧ m'.heap.Attaches u by
    obtain ⟨u, m', hrun, hf', hu⟩ := hrun
    rw [hrun] at hensures
    exact ⟨u, m', hrun, hensures.1, hf', hu⟩
  unfold capture
  split at hc <;> rename_i hlocal
  · rw [if_pos hlocal, bind_apply]
    rcases captureSlot_cases (frame.base + c.index) m with ⟨u, hu, -, hrun⟩ |
      ⟨above, rest, -, -, -, hrun⟩
    · rw [hrun]
      exact ⟨_, m, rfl, hf, u.id, rfl, _, h.sound.opened u hu⟩
    · rw [hrun]
      exact ⟨_, _, rfl, hf.allocate h.sound.heap _, m.heap.fresh, rfl, .onStack (frame.base + c.index),
        by simp⟩
  · rw [if_neg hlocal, bind_apply, get_apply]
    obtain ⟨made, us, hget, hsize⟩ := h.closure
    have hat : (m.upvaluesOf frame.closure)[c.index]? = some us[c.index] := by
      rw [upvaluesOf, hget]
      exact Array.getElem?_eq_getElem (hsize ▸ hc)
    dsimp only
    rw [hat]
    exact ⟨_, m, rfl, hf, hf.others frame.closure made us hne hget _ (Array.getElem_mem _)⟩

/-- All captures together fill the closure. -/
lemma Calling.captureAll_filled (h : m.Calling frame waiting k n a below) {cs : List Capture}
    (hcs : ∀ c ∈ cs, if c.isLocal then a.flag? c.index = some true else c.index < k)
    (hf : m.heap.Filling closure count place) (hcount : place + cs.length = count)
    (hne : frame.closure ≠ closure) :
    ∃ m', captureAll frame closure place cs m = .ok () m' ∧ m'.heap.Attached := by
  induction cs generalizing m place with
  | nil =>
    obtain rfl : place = count := hcount
    exact ⟨m, rfl, hf.attached⟩
  | cons c cs ih =>
    obtain ⟨hc, hcs⟩ := List.forall_mem_cons.1 hcs
    rw [List.length_cons] at hcount
    obtain ⟨u, m₁, hrun, h₁, hf₁, hu⟩ := h.capture_filled hc hf hne
    obtain ⟨hsound, hkept⟩ := h₁.sound.setUpvalue closure place u
    have hset : Calling { m₁ with heap := m₁.heap.setUpvalue closure place u } frame waiting k n a
        below := h₁.of_kept hsound rfl h₁.opened hkept
    obtain ⟨m', hrest, hattached⟩ := ih hset hcs (hf₁.setUpvalue (by omega) hu) (by omega)
    refine ⟨m', ?_, hattached⟩
    unfold captureAll
    rw [bind_apply, hrun]
    dsimp only
    rw [bind_apply, modify_apply]
    exact hrest

/-- A new closure has what it captures, whether there is room for it on the stack or not. -/
lemma Executing.upholds_makeClosure (h : m.Executing frame waiting k n a below) {p : Prototype}
    {x : Bool} {i : Nat} (hp : frame.chunk.functions[i]? = some p)
    (hcaptures : p.Capturable k (x :: a)) :
    m.Upholds Heap.Attached (left (makeClosure frame i) m) := by
  refine Tends.upholds ((blind_tends.within_makeClosure within_tends_captureSlot frame i).left m)
    fun _ hattached => ?_
  have hverified : p.Verified := h.functions p (Array.mem_of_getElem? hp)
  have hvalid := h.sound.heap.allocate (o := .function (.ofPrototype p)) (by simp)
  have hf := (hattached.allocate h.sound.heap (o := .function (.ofPrototype p)) (by simp)).newClosure
    hvalid (some m.heap.fresh) p.captures.size
  -- The running closure was there before.
  have hne : frame.closure ≠ m.heap.fresh + 1 := by
    obtain ⟨made, us, hget, -⟩ := h.closure
    exact Nat.ne_of_lt (Nat.lt_succ_of_lt (h.sound.heap.below hget))
  obtain ⟨m₁, hrun, hattached₁⟩ := (h.allocateClosure hverified x).captureAll_filled
    (fun c hc => hcaptures c (Array.mem_def.2 hc)) hf (Nat.zero_add _) hne
  rw [Heap.fresh_allocate] at hrun
  unfold makeClosure
  rw [hp]
  dsimp only
  rw [left_bind_ok (allocateClosure_apply p m), left_bind_ok hrun, heap_left_push]
  exact hattached₁

/-- From one boundary to the next all closures keep what they capture, and new ones get it. -/
theorem Running.attached_step (hnatives : ∀ native ∈ natives, native.Lawful) (h : m.Running (n + 1))
    (hframe : m.frames.back? = some frame) :
    m.Upholds Heap.Attached
      (left (do betweenInstructions frame; Machine.step natives frame : MachineM Unit) m) := by
  refine h.upholds_step Heap.lasting_attached hnatives hframe
    fun i traced _ _ _ _ hentered hclosure => ?_
  obtain ⟨op, operand⟩ := i
  cases hclosure
  obtain ⟨p, x, hp, hcaptures, -⟩ := hentered.allows
  exact hentered.executing.upholds_makeClosure hp hcaptures

end Closures

end Machine

end Lox
