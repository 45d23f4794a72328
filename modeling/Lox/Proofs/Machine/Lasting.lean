import Lox.Proofs.Machine.Naming

/-!
# Properties of the heap that last

Some properties of the heap are broken by hardly anything that a machine does.  `Heap.Lasting` lists
what such a property has to stand: strings are interned, host functions and captured variables are
added, captured variables leave the stack, and garbage is freed.  All instructions but the making of
a closure uphold it then, and so does what a lawful host function does (`upholds_execute`).

Making a closure puts a function and a closure on the heap, so a property of functions or of closures
needs an argument for this instruction.  For the property that all functions are regular it is that
they are functions of the running code, which are (`Heap.lasting_regular`, `within_makeClosure_regular`).
-/

namespace Lox

namespace Heap

/-- A property that a valid heap keeps, whatever happens to it except that a closure is made. -/
structure Lasting (P : Heap → Prop) : Prop where
  intern : ∀ {h : Heap} (t : Text), h.Valid → P h → P (h.intern t).2
  native : ∀ {h : Heap} (o : NativeObject), h.Valid → P h → P (h.allocate (.native o)).2
  upvalue : ∀ {h : Heap} (u : Upvalue), h.Valid → P h → P (h.allocate (.upvalue u)).2
  assign : ∀ {h : Heap} {id : ObjectId} (v : Value), h.Valid → h.HasUpvalue id → P h →
    P (h.closeUpvalue id v)
  collect : ∀ {h : Heap} (roots : List ObjectId), h.Valid → P h → P (h.collect roots)

lemma HasUpvalue.closeUpvalue {h : Heap} {id : ObjectId} (hu : h.HasUpvalue id) (id' : ObjectId)
    (v : Value) : (h.closeUpvalue id' v).HasUpvalue id := by
  obtain ⟨u, hget⟩ := hu
  unfold HasUpvalue
  rw [get?_closeUpvalue]
  split
  · rename_i heq
    subst heq
    exact ⟨.closed v, by rw [hget]; rfl⟩
  · exact ⟨u, hget⟩

/-- Several captured variables leave the stack. -/
lemma Lasting.closeAll {P : Heap → Prop} (hP : Lasting P) {us : List OpenUpvalue} {h : Heap}
    (hv : h.Valid) (hus : ∀ u ∈ us, h.HasUpvalue u.id) (value : OpenUpvalue → Value) (hh : P h) :
    P (us.foldl (fun h u => h.closeUpvalue u.id (value u)) h) := by
  induction us generalizing h with
  | nil => exact hh
  | cons u us ih =>
    obtain ⟨hu, hus⟩ := List.forall_mem_cons.1 hus
    have hvalid : (h.closeUpvalue u.id (value u)).Valid := by
      obtain ⟨x, hx⟩ := hu
      exact hv.update (by simp [hx]) (by simp)
    exact ih hvalid (fun u' hu' => (hus u' hu').closeUpvalue u.id (value u))
      (hP.assign (value u) hv hu hh)

end Heap

namespace Machine

/-- An intact machine goes on to an intact machine, and its heap keeps the property. -/
def Upholds (P : Heap → Prop) (m m' : Machine) : Prop :=
  m.Intact → m'.Intact ∧ (P m.heap → P m'.heap)

section Upholds

variable {P : Heap → Prop} {m m' m'' : Machine}

lemma Upholds.trans (h : m.Upholds P m') (h' : m'.Upholds P m'') : m.Upholds P m'' := by
  intro hm
  obtain ⟨hm', hkept⟩ := h hm
  obtain ⟨hm'', hkept'⟩ := h' hm'
  exact ⟨hm'', fun hP => hkept' (hkept hP)⟩

lemma Tends.upholds (h : m.Tends m') (hP : m.Intact → P m.heap → P m'.heap) : m.Upholds P m' :=
  fun hm => ⟨(h hm).1, hP hm⟩

lemma Upholds.of_eq (hheap : m'.heap = m.heap) (hopened : m'.openUpvalues = m.openUpvalues) :
    m.Upholds P m' := by
  intro hm
  refine ⟨⟨hheap ▸ hm.heap, ?_⟩, fun hP => hheap ▸ hP⟩
  rw [hheap, hopened]
  exact hm.opened

/-- What is no matter of globals need not be said of them. -/
lemma mild_upholds (hP : Heap.Lasting P) : Mild (Upholds P) where
  refl _ := .of_eq rfl rfl
  trans := .trans
  stack _ _ := .of_eq rfl rfl
  printed _ _ := .of_eq rfl rfl
  intern m t := (blind_tends.intern m t).upholds fun hm => hP.intern t hm.heap
  assign m i x v hi := (blind_tends.assign m i x v hi).upholds fun hm => hP.assign v hm.heap ⟨x, hi⟩

lemma upholds_closeUpvalues (hP : Heap.Lasting P) (m : Machine) (last : Nat) :
    m.Upholds P (m.closeUpvalues last) := by
  refine (tends_closeUpvalues m last).upholds fun hm hh => ?_
  have hclosing : ∀ u ∈ m.openUpvalues.takeWhile fun u => decide (last ≤ u.slot),
      m.heap.HasUpvalue u.id :=
    fun u hu => hm.opened u ((List.takeWhile_sublist _).subset hu)
  rw [Machine.closeUpvalues, List.span_eq_takeWhile_dropWhile]
  exact hP.closeAll hm.heap hclosing (fun u => m.stack.getD u.slot .nil) hh

lemma upholds_collect (hP : Heap.Lasting P) (m : Machine) : m.Upholds P m.collect :=
  (tends_collect m).upholds fun hm => hP.collect m.roots hm.heap

lemma upholds_entered (hP : Heap.Lasting P) (m : Machine) (traced : Array Text) (ip : Nat) :
    m.Upholds P (m.entered traced ip) := by
  have hcollected : m.Upholds P m.collectIfDue := by
    unfold collectIfDue
    split
    · exact upholds_collect hP m
    · exact .of_eq rfl rfl
  exact hcollected.trans (.of_eq rfl rfl)

lemma upholds_resetStack (hP : Heap.Lasting P) (m : Machine) : m.Upholds P m.resetStack :=
  (tends_resetStack m).upholds fun hm => (upholds_closeUpvalues hP m 0 hm).2

lemma HostStep.upholds (hP : Heap.Lasting P) (hstep : HostStep m m') : m.Upholds P m' := by
  cases hstep with
  | intern t => exact (mild_upholds hP).intern m t
  | native o =>
    exact (blind_tends.allocate m _ (by simp)).upholds fun hm => hP.native o hm.heap
  | setGlobal | setSlot | print | setClock => exact .of_eq rfl rfl
  | collect => exact upholds_collect hP m

lemma upholds_of_host (hP : Heap.Lasting P) (hhost : Relation.ReflTransGen HostStep m m') :
    m.Upholds P m' := by
  induction hhost with
  | refl => exact .of_eq rfl rfl
  | tail _ hstep ih => exact ih.trans (hstep.upholds hP)

end Upholds

/-! ## Instructions -/

section Instructions

variable {P : Heap → Prop} {frame : Frame} {natives : Natives} {i : Instruction}

lemma within_upholds_captureSlot (hP : Heap.Lasting P) (slot : Nat) :
    Within (Upholds P) (captureSlot slot) := by
  intro m
  have htends := within_tends_captureSlot slot m
  rcases captureSlot_cases slot m with ⟨u, -, -, hrun⟩ | ⟨above, rest, -, -, -, hrun⟩
  · rw [hrun]
    exact .of_eq rfl rfl
  · rw [hrun] at htends ⊢
    exact htends.upholds fun hm => hP.upvalue (.onStack slot) hm.heap

/-- A call either has begun, or it is one of a host function. -/
lemma within_upholds_call (hP : Heap.Lasting P) (hnatives : ∀ native ∈ natives, native.Lawful)
    (frame : Frame) (given : Nat) : Within (Upholds P) (execute natives frame ⟨.call, given⟩) := by
  intro m
  rcases @call_cases natives frame given m with ⟨e, herror⟩ | ⟨callee, -, hok⟩ | ⟨o, hnative⟩
  · rw [herror]
    exact .of_eq rfl rfl
  · rw [hok]
    exact .of_eq rfl rfl
  · rw [hnative]
    refine within_callNative (mild_upholds hP) (fun native hmem => ?_) o given m
    exact (hnatives native hmem).within fun _ _ hhost => upholds_of_host hP hhost

/-- An instruction upholds a property that lasts, if it makes no closure or making this closure does. -/
theorem upholds_execute (hP : Heap.Lasting P) (hnatives : ∀ native ∈ natives, native.Lawful)
    (frame : Frame) (m : Machine)
    (hclosure : i.opcode = .closure → m.Upholds P (left (makeClosure frame i.operand) m)) :
    m.Upholds P (left (execute natives frame i) m) := by
  obtain ⟨op, operand⟩ := i
  by_cases hcall : op = .call
  · subst hcall
    exact (within_upholds_call hP hnatives frame operand).left m
  by_cases hmake : op = .closure
  · subst hmake
    exact hclosure rfl
  · refine (within_execute_of_mild (mild_upholds hP) frame hcall (fun _ _ _ => .of_eq rfl rfl)
      (fun _ _ _ => .of_eq rfl rfl) ?_ fun _ => upholds_closeUpvalues hP).left m
    exact fun heq => absurd heq hmake

/-- What happens from one boundary to the next upholds a property that lasts, if making a closure
does. -/
theorem Running.upholds_step (hP : Heap.Lasting P) (hnatives : ∀ native ∈ natives, native.Lawful)
    {m : Machine} {n : Nat} (h : m.Running (n + 1)) (hframe : m.frames.back? = some frame)
    (hclosure : ∀ i traced waiting k a below, m.Entered natives frame i traced waiting k n a below →
      i.opcode = .closure → (m.entered traced (frame.ip + i.size)).Upholds P
        (left (makeClosure { frame with ip := frame.ip + i.size } i.operand)
          (m.entered traced (frame.ip + i.size)))) :
    m.Upholds P (left (do betweenInstructions frame; Machine.step natives frame : MachineM Unit) m) := by
  obtain ⟨i, traced, waiting, k, a, below, hentered⟩ := h.entered hframe natives
  have hexecuted := upholds_execute hP hnatives { frame with ip := frame.ip + i.size }
    (m.entered traced (frame.ip + i.size)) (hclosure i traced waiting k a below hentered)
  have hstep : left (do betweenInstructions frame; Machine.step natives frame : MachineM Unit) m =
      left (execute natives { frame with ip := frame.ip + i.size } i)
        (m.entered traced (frame.ip + i.size)) := by
    rw [left, hentered.step, left]
  rw [hstep]
  exact (upholds_entered hP m traced _).trans hexecuted

end Instructions

end Machine

/-! ## Regular functions -/

/-- Well formed and balanced, as every function is that the compiler returns. -/
def Prototype.Regular (p : Prototype) : Prop :=
  p.WellFormed ∧ p.Balanced

/-- The code of a regular function, with the heights of the stack. -/
lemma Prototype.Regular.exists_chunk {p : Prototype} (h : p.Regular) :
    ∃ (w : Chunk) (arity : Nat) (height : Nat → Nat), p.chunk = some w ∧ p.arity = arity ∧
      w.WellFormed p.captures.size ∧ w.Balanced arity height ∧ ∀ f ∈ w.functions, f.Regular := by
  obtain ⟨hwellFormed, hbalanced⟩ := h
  cases hwellFormed with
  | mk hchunk _ _ _ _ hlayout hfunctions =>
    cases hbalanced with
    | mk hchunk' harity hheights hfunctions' =>
      rw [hchunk, Option.some.injEq] at hchunk'
      subst hchunk'
      exact ⟨_, _, _, hchunk, harity, hlayout, hheights, fun f hf =>
        ⟨hfunctions f hf, hfunctions' f hf⟩⟩

namespace Heap

lemma exists_of_function? {h : Heap} {made : Option ObjectId} {f : FunctionObject}
    (hmade : h.function? made = some f) : ∃ id, made = some id ∧ h.get? id = some (.function f) := by
  rw [function?] at hmade
  split at hmade
  · rename_i f' hget
    cases hmade
    exact Option.bind_eq_some_iff.1 hget
  · cases hmade

/-- All functions on the heap are regular. -/
def Regular (h : Heap) : Prop :=
  ∀ id f, h.get? id = some (.function f) → ∃ p : Prototype, p.Regular ∧ f = .ofPrototype p

/-- No function comes to the heap. -/
lemma Regular.of_old {h h' : Heap} (hh : h.Regular)
    (hold : ∀ id f, h'.get? id = some (.function f) → h.get? id = some (.function f)) :
    h'.Regular :=
  fun id f hget => hh id f (hold id f hget)

lemma Regular.allocate {h : Heap} (hh : h.Regular) {o : Object}
    (ho : ∀ f, o = .function f → ∃ p : Prototype, p.Regular ∧ f = .ofPrototype p) :
    (h.allocate o).2.Regular := by
  intro id f hget
  rw [get?_allocate] at hget
  split at hget
  · exact ho f (Option.some.inj hget)
  · exact hh id f hget

/-- Functions are not changed in place. -/
lemma Regular.update {h : Heap} (hh : h.Regular) (id : ObjectId) {o : Object}
    (ho : ∀ f, o ≠ .function f) : (h.update id o).Regular := by
  refine hh.of_old fun id' f hget => ?_
  rw [get?_update] at hget
  split at hget
  · obtain ⟨_, -, heq⟩ := Option.map_eq_some_iff.1 hget
    exact absurd heq (ho f)
  · exact hget

lemma lasting_regular : Lasting Regular where
  intern {h} t _ hh := by
    rcases Valid.intern_eq (h := h) t with ⟨id, -, heq⟩ | ⟨-, -, -, -, hcells, -⟩
    · rw [heq]
      exact hh
    · have hallocated : (h.allocate (.string t)).2.Regular := hh.allocate (by simp)
      refine hallocated.of_old fun id f hget => ?_
      rwa [get?, hcells] at hget
  native o _ hh := hh.allocate (by simp)
  upvalue u _ hh := hh.allocate (by simp)
  assign v _ _ hh := hh.update _ (by simp)
  collect roots hv hh := hh.of_old fun _ _ hget => (hv.get?_collect_eq_some.1 hget).2

end Heap

namespace Machine

/-- The function of a new closure is one of the running code. -/
lemma within_makeClosure_regular {frame : Frame} (hfunctions : ∀ p ∈ frame.chunk.functions, p.Regular)
    (i : Nat) : Within (Upholds Heap.Regular) (makeClosure frame i) := by
  refine within_makeClosure (mild_upholds Heap.lasting_regular) frame i (fun p hp m => ?_)
    (fun m closure place u => ?_) fun _ _ c _ _ =>
      within_upholds_captureSlot Heap.lasting_regular (frame.base + c.index)
  · refine (within_allocateClosure blind_tends p m).upholds fun _ hh => ?_
    have hfunction : (m.heap.allocate (.function (.ofPrototype p))).2.Regular := by
      refine hh.allocate fun f hf => ⟨p, hfunctions p (Array.mem_of_getElem? hp), ?_⟩
      cases hf
      rfl
    exact hfunction.allocate fun f hf => by cases hf
  · refine (blind_tends.setUpvalue m closure place u).upholds fun _ hh => ?_
    dsimp only [Heap.setUpvalue]
    split
    · exact hh.update closure fun f hf => by cases hf
    · exact hh

end Machine

end Lox
