import Mathlib.Data.List.TakeDrop
import Mathlib.Data.List.TakeWhile
import Lox.Proofs.Bytecode.Verification
import Lox.Proofs.Heap.Collection
import Lox.Proofs.Machine.Steps

/-!
# Sound machines

What is true of a machine at every moment.  `Machine.Sound` is about its heap and the captured
variables on its stack, and holds also of a machine that has just failed.  `Machine.Executing`
says in addition what the active calls have on the stack: the innermost call has a shape that its
code goes on with, and every other call waits for one result on top of its own shape.

Only three kinds of objects matter here.  Functions on the heap are verified, closures have as
many upvalues as their function captures, and upvalues that are still on the stack are those the
machine lists as open.
-/

namespace Lox

/-! ## Objects -/

/-- An object that does not break the machine. -/
def Object.Wellformed (h : Heap) (opened : List OpenUpvalue) (id : ObjectId) : Object → Prop
  | .function f => ∃ p : Prototype, p.Verified ∧ f = .ofPrototype p
  | .closure made us => ∀ i, made = some i → i < h.fresh ∧
      ∀ f, h.get? i = some (.function f) → us.size = f.captureCount
  | .upvalue (.onStack slot) => ⟨slot, id⟩ ∈ opened
  | _ => True

namespace Heap

/-- The heap went on to another: functions are never changed, and new objects have new
identities. -/
structure Later (h h' : Heap) : Prop where
  fresh : h.fresh ≤ h'.fresh
  functions : ∀ {i : ObjectId} {f : FunctionObject}, i < h.fresh →
    h'.get? i = some (.function f) → h.get? i = some (.function f)

lemma Later.refl (h : Heap) : h.Later h := ⟨Nat.le_refl _, fun _ hf => hf⟩

lemma Later.trans {h h' h'' : Heap} (h₁ : h.Later h') (h₂ : h'.Later h'') : h.Later h'' :=
  ⟨Nat.le_trans h₁.fresh h₂.fresh, fun hi hf =>
    h₁.functions hi (h₂.functions (Nat.lt_of_lt_of_le hi h₁.fresh) hf)⟩

lemma later_allocate (h : Heap) (o : Object) : h.Later (h.allocate o).2 := by
  refine ⟨Nat.le_succ _, fun {i f} hi hf => ?_⟩
  rwa [get?_allocate, if_neg (Nat.ne_of_lt hi)] at hf

lemma later_intern (h : Heap) (t : Text) : h.Later (h.intern t).2 := by
  rw [intern]
  split
  · exact .refl h
  · exact ⟨Nat.le_succ _, (later_allocate h (.string t)).functions⟩

lemma later_update {h : Heap} (id : ObjectId) {o : Object} (ho : ∀ f, o ≠ .function f) :
    h.Later (h.update id o) := by
  refine ⟨Nat.le_refl _, fun {i f} _ hf => ?_⟩
  rw [get?_update] at hf
  split at hf
  · obtain ⟨_, -, hsame⟩ := Option.map_eq_some_iff.1 hf
    exact absurd hsame (ho f)
  · exact hf

lemma Valid.later_collect {h : Heap} (hv : h.Valid) (roots : List ObjectId) :
    h.Later (h.collect roots) :=
  ⟨Nat.le_of_eq (hv.fresh_collect roots).symm, fun _ hf => (hv.get?_collect_eq_some.1 hf).2⟩

/-- There is a closure with this many upvalues. -/
def HasClosure (h : Heap) (id : ObjectId) (upvalues : Nat) : Prop :=
  ∃ made us, h.get? id = some (.closure made us) ∧ us.size = upvalues

end Heap

lemma Object.Wellformed.later {h h' : Heap} {opened opened' : List OpenUpvalue} {id : ObjectId}
    {o : Object} (ho : o.Wellformed h opened id) (hlater : h.Later h')
    (hopened : ∀ slot, ⟨slot, id⟩ ∈ opened → ⟨slot, id⟩ ∈ opened') :
    o.Wellformed h' opened' id := by
  cases o with
  | string t => trivial
  | native n => trivial
  | function f => exact ho
  | closure made us =>
    intro i hi
    obtain ⟨hlt, hcount⟩ := ho i hi
    exact ⟨Nat.lt_of_lt_of_le hlt hlater.fresh, fun f hf => hcount f (hlater.functions hlt hf)⟩
  | upvalue u =>
    cases u with
    | closed v => trivial
    | onStack slot => exact hopened slot ho

namespace Machine

/-! ## Sound machines -/

/-- What holds of a machine whatever it is doing. -/
structure Sound (m : Machine) : Prop where
  heap : m.heap.Valid
  objects : ∀ {id : ObjectId} {o : Object}, m.heap.get? id = some o →
    o.Wellformed m.heap m.openUpvalues id
  opened : ∀ u ∈ m.openUpvalues, m.heap.get? u.id = some (.upvalue (.onStack u.slot))
  sorted : m.openUpvalues.Pairwise fun u u' => u'.slot < u.slot

lemma sound_new (config : MachineConfig) : (Machine.new config).Sound where
  heap := Heap.valid_new _
  objects := by simp [Machine.new, Heap.new, Heap.get?]
  opened := by simp [Machine.new]
  sorted := .nil

/-- Only the heap and the open upvalues matter. -/
lemma Sound.of_eq {m m' : Machine} (h : m.Sound) (hheap : m'.heap = m.heap)
    (hopened : m'.openUpvalues = m.openUpvalues) : m'.Sound := by
  obtain ⟨hvalid, hobjects, hopen, hsorted⟩ := h
  exact ⟨hheap ▸ hvalid, fun hget => by
    rw [hheap] at hget ⊢
    rw [hopened]
    exact hobjects hget, by rw [hheap, hopened]; exact hopen, hopened ▸ hsorted⟩

/-- A new object that is well formed. -/
lemma Sound.allocate {m : Machine} (h : m.Sound) {o : Object} (hstring : ∀ t, o ≠ .string t)
    (ho : o.Wellformed (m.heap.allocate o).2 m.openUpvalues m.heap.fresh) :
    Sound { m with heap := (m.heap.allocate o).2 } where
  heap := h.heap.allocate hstring
  objects := by
    intro id o' hget
    simp only [Heap.get?_allocate] at hget
    split at hget
    · rename_i heq
      cases hget
      exact heq ▸ ho
    · exact (h.objects hget).later (m.heap.later_allocate o) fun _ hmem => hmem
  opened := by
    intro u hu
    have hget := h.opened u hu
    simp only [Heap.get?_allocate]
    rw [if_neg (Nat.ne_of_lt (h.heap.below hget))]
    exact hget
  sorted := h.sorted

lemma Sound.intern {m : Machine} (h : m.Sound) (t : Text) :
    Sound { m with heap := (m.heap.intern t).2 } := by
  have hlater := m.heap.later_intern t
  have hvalid := h.heap.intern t
  rcases Heap.Valid.intern_eq (h := m.heap) t with ⟨id, -, heq⟩ | ⟨hnone, -, -, -, hcells, -⟩
  · refine h.of_eq ?_ rfl
    rw [heq]
  have hget : ∀ id, (m.heap.intern t).2.get? id = (m.heap.allocate (.string t)).2.get? id := by
    intro id
    rw [Heap.get?, Heap.get?, hcells]
  refine ⟨hvalid, fun {id o} hid => ?_, fun u hu => ?_, h.sorted⟩
  · simp only [hget, Heap.get?_allocate] at hid
    split at hid
    · cases hid
      trivial
    · exact (h.objects hid).later hlater fun _ hmem => hmem
  · have hopen := h.opened u hu
    simp only [hget, Heap.get?_allocate]
    rw [if_neg (Nat.ne_of_lt (h.heap.below hopen))]
    exact hopen

/-- A collection keeps the machine sound, and keeps all that it refers to. -/
lemma Sound.collect {m : Machine} (h : m.Sound) : m.collect.Sound where
  heap := h.heap.collect m.roots
  objects := by
    intro id o hget
    have hold := (h.heap.get?_collect_eq_some.1 hget).2
    exact (h.objects hold).later (h.heap.later_collect m.roots) fun _ hmem => hmem
  opened := by
    intro u hu
    refine h.heap.get?_collect_eq_some.2 ⟨.root ?_, h.opened u hu⟩
    simp only [roots, List.mem_append, List.mem_map]
    exact .inl (.inr ⟨u, hu, rfl⟩)
  sorted := h.sorted

end Machine

/-! ## Captured variables -/

lemma Heap.HasClosure.allocate {h : Heap} (hv : h.Valid) {id : ObjectId} {k : Nat}
    (hc : h.HasClosure id k) (o : Object) : (h.allocate o).2.HasClosure id k := by
  obtain ⟨made, us, hget, hsize⟩ := hc
  refine ⟨made, us, ?_, hsize⟩
  rw [get?_allocate, if_neg (Nat.ne_of_lt (hv.below hget))]
  exact hget

lemma Heap.HasClosure.intern {h : Heap} (hv : h.Valid) {id : ObjectId} {k : Nat}
    (hc : h.HasClosure id k) (t : Text) : (h.intern t).2.HasClosure id k := by
  obtain ⟨made, us, hget, hsize⟩ := hc
  exact ⟨made, us, hv.get?_intern_of_some hget, hsize⟩

lemma Heap.HasClosure.update {h : Heap} {id : ObjectId} {k : Nat} (hc : h.HasClosure id k)
    {id' : ObjectId} {u u' : Upvalue} (hu : h.get? id' = some (.upvalue u)) :
    (h.update id' (.upvalue u')).HasClosure id k := by
  obtain ⟨made, us, hget, hsize⟩ := hc
  refine ⟨made, us, ?_, hsize⟩
  have hne : id ≠ id' := by
    rintro rfl
    rw [hu] at hget
    cases hget
  rw [get?_update, if_neg hne]
  exact hget

/-- Several captured variables leave the stack. -/
lemma Heap.Valid.closeAll {us : List OpenUpvalue} {h : Heap} (hv : h.Valid)
    (hus : ∀ u ∈ us, ∃ x, h.get? u.id = some (.upvalue x)) (value : OpenUpvalue → Value) :
    (us.foldl (fun h u => h.closeUpvalue u.id (value u)) h).Valid ∧
      h.Later (us.foldl (fun h u => h.closeUpvalue u.id (value u)) h) ∧
      (∀ id ∉ us.map OpenUpvalue.id,
        (us.foldl (fun h u => h.closeUpvalue u.id (value u)) h).get? id = h.get? id) ∧
      (∀ id ∈ us.map OpenUpvalue.id, ∃ v,
        (us.foldl (fun h u => h.closeUpvalue u.id (value u)) h).get? id =
          some (.upvalue (.closed v))) := by
  induction us generalizing h with
  | nil => exact ⟨hv, .refl h, fun _ _ => rfl, by simp⟩
  | cons u us ih =>
    obtain ⟨⟨x, hx⟩, hrest⟩ := List.forall_mem_cons.1 hus
    have hvalid : (h.closeUpvalue u.id (value u)).Valid :=
      hv.update (by simp [hx]) (by simp)
    have hlater : h.Later (h.closeUpvalue u.id (value u)) := later_update u.id (by simp)
    have hupvalues : ∀ id x, h.get? id = some (.upvalue x) →
        ∃ x', (h.closeUpvalue u.id (value u)).get? id = some (.upvalue x') := by
      intro id x hid
      rw [get?_closeUpvalue]
      split
      · exact ⟨_, by rw [hx]; rfl⟩
      · exact ⟨x, hid⟩
    obtain ⟨hvalid', hlater', hsame, hclosed⟩ := ih hvalid fun u' hu' =>
      let ⟨x', hx'⟩ := hrest u' hu'
      hupvalues _ _ hx'
    refine ⟨hvalid', hlater.trans hlater', fun id hid => ?_, fun id hid => ?_⟩
    · rw [List.map_cons, List.mem_cons, not_or] at hid
      rw [List.foldl_cons, hsame id hid.2, get?_closeUpvalue, if_neg hid.1]
    · by_cases hmem : id ∈ us.map OpenUpvalue.id
      · exact hclosed id hmem
      · rw [List.map_cons, List.mem_cons] at hid
        obtain rfl := hid.resolve_right hmem
        refine ⟨value u, ?_⟩
        rw [List.foldl_cons, hsame u.id hmem, get?_closeUpvalue, if_pos rfl, hx]
        rfl

namespace Machine

/-- What is left open lies below the slot. -/
lemma Sound.lt_of_mem_dropWhile {m : Machine} (h : m.Sound) {last : Nat} {u : OpenUpvalue}
    (hu : u ∈ m.openUpvalues.dropWhile fun u => decide (last ≤ u.slot)) : u.slot < last := by
  have hsorted := h.sorted.sublist (List.dropWhile_sublist fun u => decide (last ≤ u.slot))
  cases hrest : m.openUpvalues.dropWhile fun u => decide (last ≤ u.slot) with
  | nil => simp [hrest] at hu
  | cons u' rest =>
    have hhead : u'.slot < last := by
      have hnot := List.head_dropWhile_not (fun u : OpenUpvalue => decide (last ≤ u.slot))
        (by simp [hrest] : m.openUpvalues.dropWhile (fun u => decide (last ≤ u.slot)) ≠ [])
      simp only [hrest, List.head_cons, decide_eq_false_iff_not, Nat.not_le] at hnot
      exact hnot
    rw [hrest] at hu hsorted
    rcases List.mem_cons.1 hu with rfl | hu
    · exact hhead
    · exact Nat.lt_trans ((List.pairwise_cons.1 hsorted).1 u hu) hhead

/-- Moving captured variables off the stack. -/
lemma Sound.closeUpvalues {m : Machine} (h : m.Sound) (last : Nat) :
    (m.closeUpvalues last).Sound ∧
      (∀ u ∈ (m.closeUpvalues last).openUpvalues, u ∈ m.openUpvalues ∧ u.slot < last) ∧
      ∀ id k, m.heap.HasClosure id k → (m.closeUpvalues last).heap.HasClosure id k := by
  have hspan : m.openUpvalues.span (fun u => decide (last ≤ u.slot)) =
      (m.openUpvalues.takeWhile fun u => decide (last ≤ u.slot),
        m.openUpvalues.dropWhile fun u => decide (last ≤ u.slot)) :=
    List.span_eq_takeWhile_dropWhile _ _
  have hsplit : m.openUpvalues.takeWhile (fun u => decide (last ≤ u.slot)) ++
      m.openUpvalues.dropWhile (fun u => decide (last ≤ u.slot)) = m.openUpvalues :=
    List.takeWhile_append_dropWhile
  rw [Machine.closeUpvalues, hspan]
  dsimp only
  generalize m.openUpvalues.takeWhile (fun u => decide (last ≤ u.slot)) = closing at hsplit ⊢
  have hlast : ∀ u ∈ m.openUpvalues.dropWhile fun u => decide (last ≤ u.slot), u.slot < last :=
    fun u hu => h.lt_of_mem_dropWhile hu
  generalize m.openUpvalues.dropWhile (fun u => decide (last ≤ u.slot)) = rest at hsplit hlast ⊢
  have hmem : ∀ u, u ∈ m.openUpvalues ↔ u ∈ closing ∨ u ∈ rest := by
    intro u
    rw [← hsplit, List.mem_append]
  have hclosing : ∀ u ∈ closing, ∃ x, m.heap.get? u.id = some (.upvalue x) :=
    fun u hu => ⟨_, h.opened u ((hmem u).2 (.inl hu))⟩
  obtain ⟨hvalid, hlater, hsame, hclosed⟩ :=
    h.heap.closeAll hclosing fun u => m.stack.getD u.slot .nil
  have hsorted := h.sorted
  rw [← hsplit, List.pairwise_append] at hsorted
  -- An upvalue has one slot, so what stays open is none of those that are closed.
  have hrest : ∀ u ∈ rest, u.id ∉ closing.map OpenUpvalue.id := by
    intro u hu hid
    obtain ⟨u', hu', heq⟩ := List.mem_map.1 hid
    have hget := h.opened u' ((hmem u').2 (.inl hu'))
    rw [heq, h.opened u ((hmem u).2 (.inr hu))] at hget
    have hslot : u.slot = u'.slot := by simpa using hget
    exact absurd (hsorted.2.2 u' hu' u hu) (by omega)
  refine ⟨⟨hvalid, fun {id o} hget => ?_, fun u hu => ?_, hsorted.2.1⟩, fun u hu => ?_, ?_⟩
  · by_cases hid : id ∈ closing.map OpenUpvalue.id
    · obtain ⟨v, hv⟩ := hclosed id hid
      rw [hv] at hget
      cases hget
      trivial
    · rw [hsame id hid] at hget
      refine (h.objects hget).later hlater fun slot hslot => ?_
      refine ((hmem _).1 hslot).resolve_left fun hin => hid ?_
      exact List.mem_map.2 ⟨_, hin, rfl⟩
  · rw [hsame u.id (hrest u hu)]
    exact h.opened u ((hmem u).2 (.inr hu))
  · exact ⟨(hmem u).2 (.inr hu), hlast u hu⟩
  · rintro id k ⟨made, us, hget, hsize⟩
    refine ⟨made, us, ?_, hsize⟩
    rw [hsame id fun hid => ?_]
    · exact hget
    · obtain ⟨u, hu, rfl⟩ := List.mem_map.1 hid
      obtain ⟨x, hx⟩ := hclosing u hu
      rw [hx] at hget
      cases hget

/-- Capturing a slot gives the upvalue it has already, or puts a new one in its place. -/
lemma captureSlot_cases (slot : Nat) (m : Machine) :
    (∃ u ∈ m.openUpvalues, u.slot = slot ∧ captureSlot slot m = .ok u.id m) ∨
      ∃ above rest, m.openUpvalues = above ++ rest ∧ (∀ u ∈ above, slot < u.slot) ∧
        (∀ u ∈ rest.head?, u.slot < slot) ∧
        captureSlot slot m = .ok m.heap.fresh { m with
          heap := (m.heap.allocate (.upvalue (.onStack slot))).2
          openUpvalues := above ++ ⟨slot, m.heap.fresh⟩ :: rest } := by
  have hsplit : m.openUpvalues.takeWhile (fun u => decide (slot < u.slot)) ++
      m.openUpvalues.dropWhile (fun u => decide (slot < u.slot)) = m.openUpvalues :=
    List.takeWhile_append_dropWhile
  have habove : ∀ u ∈ m.openUpvalues.takeWhile (fun u => decide (slot < u.slot)), slot < u.slot :=
    fun u hu => by simpa using List.mem_takeWhile_imp hu
  have hhead : ∀ u ∈ (m.openUpvalues.dropWhile fun u => decide (slot < u.slot)).head?,
      u.slot ≤ slot := by
    intro u hu
    have hnot := List.head?_dropWhile_not (fun u : OpenUpvalue => decide (slot < u.slot))
      m.openUpvalues
    rw [Option.mem_def.1 hu] at hnot
    simpa using hnot
  simp only [captureSlot, bind_apply, get_apply, List.span_eq_takeWhile_dropWhile]
  generalize m.openUpvalues.takeWhile (fun u => decide (slot < u.slot)) = above at hsplit habove ⊢
  generalize m.openUpvalues.dropWhile (fun u => decide (slot < u.slot)) = rest at hsplit hhead ⊢
  cases rest with
  | nil => exact .inr ⟨above, [], hsplit.symm, habove, by simp, rfl⟩
  | cons u rest =>
    by_cases hslot : u.slot = slot
    · left
      refine ⟨u, ?_, hslot, ?_⟩
      · rw [← hsplit]
        simp
      · simp [hslot, pure_apply]
    · right
      refine ⟨above, u :: rest, hsplit.symm, habove, ?_, ?_⟩
      · intro u' hu'
        cases hu'
        have := hhead u (by simp)
        omega
      · dsimp only
        rw [if_neg hslot]
        rfl

/-- A new upvalue in its place among the others. -/
lemma Sound.openUpvalue {m : Machine} (h : m.Sound) {slot : Nat} {above rest : List OpenUpvalue}
    (hsplit : m.openUpvalues = above ++ rest) (habove : ∀ u ∈ above, slot < u.slot)
    (hrest : ∀ u ∈ rest.head?, u.slot < slot) :
    Sound { m with
      heap := (m.heap.allocate (.upvalue (.onStack slot))).2
      openUpvalues := above ++ ⟨slot, m.heap.fresh⟩ :: rest } where
  heap := h.heap.allocate (by simp)
  objects := by
    intro id o hget
    simp only [Heap.get?_allocate] at hget
    split at hget
    · rename_i heq
      cases hget
      subst heq
      exact List.mem_append_right _ List.mem_cons_self
    · refine (h.objects hget).later (m.heap.later_allocate _) fun slot' hslot' => ?_
      rw [hsplit] at hslot'
      rcases List.mem_append.1 hslot' with hin | hin
      · exact List.mem_append_left _ hin
      · exact List.mem_append_right _ (List.mem_cons_of_mem _ hin)
  opened := by
    intro u hu
    simp only [Heap.get?_allocate]
    have hold : u ∈ m.openUpvalues →
        (if u.id = m.heap.fresh then some (.upvalue (.onStack slot)) else m.heap.get? u.id) =
          some (.upvalue (.onStack u.slot)) := by
      intro hu
      have hget := h.opened u hu
      rw [if_neg (Nat.ne_of_lt (h.heap.below hget))]
      exact hget
    rcases List.mem_append.1 hu with hin | hin
    · exact hold (hsplit ▸ List.mem_append_left _ hin)
    · rcases List.mem_cons.1 hin with rfl | hin
      · simp
      · exact hold (hsplit ▸ List.mem_append_right _ hin)
  sorted := by
    have hsorted := h.sorted
    rw [hsplit, List.pairwise_append] at hsorted
    obtain ⟨habove', hrest', hcross⟩ := hsorted
    have hlt : ∀ u ∈ rest, u.slot < slot := by
      cases rest with
      | nil => simp
      | cons u' rest =>
        intro u hu
        have hhead := hrest u' (by simp)
        rcases List.mem_cons.1 hu with rfl | hu
        · exact hhead
        · exact Nat.lt_trans ((List.pairwise_cons.1 hrest').1 u hu) hhead
    refine List.pairwise_append.2 ⟨habove', List.pairwise_cons.2 ⟨hlt, hrest'⟩, ?_⟩
    intro u hu u' hu'
    rcases List.mem_cons.1 hu' with rfl | hu'
    · exact habove u hu
    · exact hcross u hu u' hu'

/-- Assigning to a captured variable that has left the stack. -/
lemma Sound.closeUpvalue {m : Machine} (h : m.Sound) {id : ObjectId} {v : Value}
    (hid : m.heap.get? id = some (.upvalue (.closed v))) (v' : Value) :
    Sound { m with heap := m.heap.closeUpvalue id v' } where
  heap := h.heap.update (by simp [hid]) (by simp)
  objects := by
    intro id' o hget
    simp only [Heap.get?_closeUpvalue] at hget
    split at hget
    · rw [hid] at hget
      cases hget
      trivial
    · exact (h.objects hget).later (Heap.later_update id (by simp)) fun _ hmem => hmem
  opened := by
    intro u hu
    have hget := h.opened u hu
    simp only [Heap.get?_closeUpvalue]
    rw [if_neg]
    · exact hget
    · rintro rfl
      rw [hid] at hget
      cases hget
  sorted := h.sorted

/-- A closure gets a captured variable; the number of its places stays. -/
lemma Sound.setUpvalue {m : Machine} (h : m.Sound) (id : ObjectId) (place : Nat)
    (u : Option ObjectId) :
    Sound { m with heap := m.heap.setUpvalue id place u } ∧
      ∀ id' k, m.heap.HasClosure id' k → (m.heap.setUpvalue id place u).HasClosure id' k := by
  rw [Heap.setUpvalue]
  split
  · rename_i made us hid
    have hlater : m.heap.Later (m.heap.update id (.closure made (us.setIfInBounds place u))) :=
      Heap.later_update id (by simp)
    refine ⟨⟨h.heap.update (by simp [hid]) (by simp), fun {id' o} hget => ?_, fun u' hu' => ?_,
      h.sorted⟩, ?_⟩
    · simp only [Heap.get?_update] at hget
      split at hget
      · rw [hid] at hget
        cases hget
        intro i hi
        obtain ⟨hlt, hcount⟩ := h.objects hid i hi
        refine ⟨Nat.lt_of_lt_of_le hlt hlater.fresh, fun f hf => ?_⟩
        rw [Array.size_setIfInBounds]
        exact hcount f (hlater.functions hlt hf)
      · exact (h.objects hget).later hlater fun _ hmem => hmem
    · have hget := h.opened u' hu'
      simp only [Heap.get?_update]
      rw [if_neg]
      · exact hget
      · rintro rfl
        rw [hid] at hget
        cases hget
    · rintro id' k ⟨made', us', hget, hsize⟩
      by_cases heq : id' = id
      · subst heq
        rw [hid] at hget
        cases hget
        exact ⟨made, us.setIfInBounds place u, by simp [hid], by simpa using hsize⟩
      · exact ⟨made', us', by simpa [heq] using hget, hsize⟩
  · exact ⟨h, fun _ _ hc => hc⟩

end Machine

end Lox
