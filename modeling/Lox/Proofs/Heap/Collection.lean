import Mathlib.Data.List.Perm.Subperm
import Lox.Proofs.Heap.Lookup

/-!
# A collection keeps exactly what can be reached

`Heap.Reachable` is reachability from the roots along the references of objects.  A collection
keeps the objects that are reachable, as they are, and frees the others (`get?_collect`); the
string table loses exactly the strings that were freed.

The proof follows the marking.  `Marking` is the state of a heap while objects are marked: the
marked objects are those whose references were followed already and the gray ones, each once, and
all of them are reachable.  Since an object is marked at most once, the number of objects bounds
the tracing, and when it ends no object is gray.  Then the marked objects are closed under
references, so that they are all that is reachable.
-/

namespace Lox.Heap

/-- Whether an object can be reached from the roots. -/
inductive Reachable (h : Heap) (roots : List ObjectId) : ObjectId → Prop
  | root {id : ObjectId} : id ∈ roots → Reachable h roots id
  | step {id id' : ObjectId} : Reachable h roots id → id' ∈ h.referencesOf id →
      Reachable h roots id'

/-! ## Marking -/

/-- Marking does nothing, or makes one object marked and gray. -/
lemma mark_cases (h : Heap) (id : ObjectId) :
    (h.mark id = h ∧ (h.get? id = none ∨ h.isMarked id)) ∨
      ∃ c, h.cells[id]? = some c ∧ c.marked = false ∧ h.mark id =
        { h with cells := h.cells.insert id { c with marked := true }, gray := id :: h.gray } := by
  rw [mark]
  split
  · rename_i c hcell
    split
    · rename_i hmarked
      exact .inl ⟨rfl, .inr (by simp [isMarked, hcell, hmarked])⟩
    · rename_i hmarked
      exact .inr ⟨c, hcell, by simpa using hmarked, rfl⟩
  · rename_i hcell
    exact .inl ⟨rfl, .inl (by simp [get?, hcell])⟩

lemma isMarked_mark (h : Heap) (id x : ObjectId) :
    (h.mark id).isMarked x ↔ h.isMarked x ∨ (x = id ∧ (h.get? id).isSome) := by
  rcases mark_cases h id with ⟨heq, hold⟩ | ⟨c, hcell, -, heq⟩
  · rw [heq]
    constructor
    · exact .inl
    · rintro (hx | ⟨rfl, hsome⟩)
      · exact hx
      · rcases hold with hnone | hmarked
        · simp [hnone] at hsome
        · exact hmarked
  · rw [heq]
    simp only [isMarked, Std.TreeMap.getElem?_insert, Std.compare_eq_iff_eq, get?, hcell]
    by_cases hx : id = x
    · simp [hx]
    · simp [hx, Ne.symm hx]

lemma get?_mark (h : Heap) (id x : ObjectId) : (h.mark id).get? x = h.get? x := by
  rcases mark_cases h id with ⟨heq, -⟩ | ⟨c, hcell, -, heq⟩
  · rw [heq]
  · rw [heq]
    simp only [get?, Std.TreeMap.getElem?_insert, Std.compare_eq_iff_eq]
    by_cases hx : id = x
    · subst hx
      simp [hcell]
    · simp [hx]

/-- What marking leaves alone. -/
structure SameBooks (h h' : Heap) : Prop where
  strings : h'.strings = h.strings
  fresh : h'.fresh = h.fresh
  bytes : h'.bytes = h.bytes
  stats : h'.stats = h.stats
  size : h'.cells.size = h.cells.size

lemma SameBooks.refl (h : Heap) : h.SameBooks h :=
  ⟨rfl, rfl, rfl, rfl, rfl⟩

lemma SameBooks.trans {h₁ h₂ h₃ : Heap} (h₁₂ : h₁.SameBooks h₂) (h₂₃ : h₂.SameBooks h₃) :
    h₁.SameBooks h₃ :=
  ⟨h₂₃.strings.trans h₁₂.strings, h₂₃.fresh.trans h₁₂.fresh, h₂₃.bytes.trans h₁₂.bytes,
    h₂₃.stats.trans h₁₂.stats, h₂₃.size.trans h₁₂.size⟩

lemma sameBooks_mark (h : Heap) (id : ObjectId) : h.SameBooks (h.mark id) := by
  rcases mark_cases h id with ⟨heq, -⟩ | ⟨c, hcell, -, heq⟩
  · rw [heq]
    exact .refl h
  · have hmem : h.cells.contains id := by
      rw [← Std.TreeMap.isSome_getElem?_eq_contains, hcell]
      rfl
    rw [heq]
    exact ⟨rfl, rfl, rfl, rfl, by rw [Std.TreeMap.size_insert, if_pos hmem]⟩

/-- The state of marking the heap `h₀`: the objects of `done` were marked and their references
followed, those that are gray were marked. -/
structure Marking (h₀ : Heap) (roots : List ObjectId) (h : Heap) (done : List ObjectId) : Prop where
  get? : ∀ id, h.get? id = h₀.get? id
  books : h₀.SameBooks h
  marked : ∀ id, h.isMarked id ↔ id ∈ done ++ h.gray
  nodup : (done ++ h.gray).Nodup
  reachable : ∀ id ∈ done ++ h.gray, Reachable h₀ roots id

namespace Marking

variable {h₀ h : Heap} {roots done ids : List ObjectId} {id : ObjectId}

lemma referencesOf (hm : Marking h₀ roots h done) (id : ObjectId) :
    h.referencesOf id = h₀.referencesOf id := by
  rw [Heap.referencesOf, Heap.referencesOf, hm.get?]

lemma mark (hm : Marking h₀ roots h done) (hid : Reachable h₀ roots id) :
    Marking h₀ roots (h.mark id) done := by
  rcases mark_cases h id with ⟨heq, -⟩ | ⟨c, hcell, hmarked, heq⟩
  · rw [heq]
    exact hm
  have hgray : (h.mark id).gray = id :: h.gray := by rw [heq]
  have hperm : (done ++ (h.mark id).gray).Perm (id :: (done ++ h.gray)) := by
    rw [hgray]
    exact List.perm_middle
  have hnew : id ∉ done ++ h.gray := by
    rw [← hm.marked]
    simp [isMarked, hcell, hmarked]
  refine ⟨fun x => by rw [get?_mark, hm.get?], ?_, fun x => ?_, ?_, fun x hx => ?_⟩
  · exact hm.books.trans (sameBooks_mark h id)
  · rw [isMarked_mark, hm.marked, hperm.mem_iff, List.mem_cons, or_comm]
    simp [Heap.get?, hcell]
  · rw [hperm.nodup_iff]
    exact List.nodup_cons.2 ⟨hnew, hm.nodup⟩
  · rcases List.mem_cons.1 (hperm.mem_iff.1 hx) with rfl | hx
    · exact hid
    · exact hm.reachable x hx

/-- Marking several objects marks those that exist, and unmarks none. -/
lemma markAll (hm : Marking h₀ roots h done) (hids : ∀ id ∈ ids, Reachable h₀ roots id) :
    Marking h₀ roots (h.markAll ids) done ∧
      (∀ id, h.isMarked id → (h.markAll ids).isMarked id) ∧
      ∀ id ∈ ids, (h₀.get? id).isSome → (h.markAll ids).isMarked id := by
  induction ids generalizing h with
  | nil => exact ⟨hm, fun _ => id, by simp⟩
  | cons id ids ih =>
    obtain ⟨hreach, hids⟩ := List.forall_mem_cons.1 hids
    obtain ⟨hmarking, hkept, hall⟩ := ih (hm.mark hreach) hids
    have hgrows : ∀ x, h.isMarked x → (h.mark id).isMarked x :=
      fun x hx => (isMarked_mark h id x).2 (.inl hx)
    refine ⟨hmarking, fun x hx => hkept x (hgrows x hx), fun x hx hsome => ?_⟩
    rcases List.mem_cons.1 hx with rfl | hx
    · exact hkept x ((isMarked_mark h x x).2 (.inr ⟨rfl, hm.get? x ▸ hsome⟩))
    · exact hall x hx hsome

/-- As many objects can be marked as there are. -/
lemma length_le {h₁ : Heap} (hm : Marking h₀ roots h done) (h₁₀ : ∀ id, h₁.get? id = h₀.get? id) :
    done.length + h.gray.length ≤ h₁.cells.size := by
  rw [← List.length_append, ← Std.TreeMap.length_keys]
  refine (hm.nodup.subperm fun id hid => ?_).length_le
  rw [Std.TreeMap.mem_keys, Std.TreeMap.mem_iff_isSome_getElem?]
  have hmarked := (hm.marked id).2 hid
  have hsome : (h₁.get? id).isSome := by
    rw [h₁₀, ← hm.get?]
    rw [isMarked, Option.any_eq_true] at hmarked
    obtain ⟨c, hcell, -⟩ := hmarked
    simp [Heap.get?, hcell]
  simpa [Heap.get?] using hsome

end Marking

/-! ## Tracing -/

/-- All references of the objects in `done` were marked. -/
def Closed (h₀ h : Heap) (done : List ObjectId) : Prop :=
  ∀ id ∈ done, ∀ id' ∈ h₀.referencesOf id, (h₀.get? id').isSome → h.isMarked id'

/-- Tracing ends with no gray object, if the bound is the number of objects. -/
lemma Marking.traceReferences {h₀ h h₁ : Heap} {roots done : List ObjectId} {bound : Nat}
    (hm : Marking h₀ roots h done) (hclosed : Closed h₀ h done)
    (h₁₀ : ∀ id, h₁.get? id = h₀.get? id) (hbound : h₁.cells.size ≤ done.length + bound) :
    ∃ done', Marking h₀ roots (traceReferences bound h) done' ∧
      Closed h₀ (traceReferences bound h) done' ∧ (traceReferences bound h).gray = [] ∧
      ∀ id, h.isMarked id → (traceReferences bound h).isMarked id := by
  induction bound generalizing h done with
  | zero =>
    have hlength := hm.length_le h₁₀
    have hgray : h.gray = [] := List.length_eq_zero_iff.1 (by omega)
    exact ⟨done, hm, hclosed, hgray, fun _ => id⟩
  | succ bound ih =>
    rw [Heap.traceReferences]
    split
    · rename_i hgray
      exact ⟨done, hm, hclosed, hgray, fun _ => id⟩
    · rename_i id gray hgray
      -- The object turns from gray to done while its references are marked.
      have hperm : (id :: done ++ gray).Perm (done ++ h.gray) := by
        rw [hgray]
        exact List.perm_middle.symm
      have hpop : Marking h₀ roots { h with gray } (id :: done) :=
        ⟨hm.get?, hm.books.trans ⟨rfl, rfl, rfl, rfl, rfl⟩,
          fun x => (hm.marked x).trans hperm.mem_iff.symm, hperm.nodup_iff.2 hm.nodup,
          fun x hx => hm.reachable x (hperm.mem_iff.1 hx)⟩
      have hid : Reachable h₀ roots id := hpop.reachable id (by simp)
      have hrefs : ∀ id' ∈ h.referencesOf id, Reachable h₀ roots id' := by
        intro id' hid'
        rw [hm.referencesOf] at hid'
        exact .step hid hid'
      obtain ⟨hmarking, hkept, hall⟩ := hpop.markAll hrefs
      obtain ⟨done', hmarking', hclosed', hgray', hkept'⟩ := ih hmarking (by
        intro x hx id' hid' hsome
        rcases List.mem_cons.1 hx with rfl | hx
        · exact hall id' (hm.referencesOf x ▸ hid') hsome
        · exact hkept id' (hclosed x hx id' hid' hsome)) (by
        rw [List.length_cons]
        omega)
      exact ⟨done', hmarking', hclosed', hgray', fun x hx => hkept' x (hkept x hx)⟩

/-- What is marked when tracing has ended. -/
lemma AtRest.marked_iff {h : Heap} (hr : h.AtRest) (roots : List ObjectId) :
    ∃ done, Marking h roots (traceReferences (h.markAll roots).cells.size (h.markAll roots)) done ∧
      (traceReferences (h.markAll roots).cells.size (h.markAll roots)).gray = [] ∧
      ∀ id, (traceReferences (h.markAll roots).cells.size (h.markAll roots)).isMarked id ↔
        Reachable h roots id ∧ (h.get? id).isSome := by
  have hstart : Marking h roots h [] := by
    refine ⟨fun _ => rfl, .refl h, fun id => ?_, by simp [hr.gray], by simp [hr.gray]⟩
    rw [hr.gray, isMarked]
    cases hcell : h.cells[id]? with
    | none => simp
    | some c => simp [hr.unmarked hcell]
  have hroots : ∀ id ∈ roots, Reachable h roots id := fun id hid => .root hid
  obtain ⟨hmarking, -, hall⟩ := hstart.markAll hroots
  have hbound : (h.markAll roots).cells.size ≤
      ([] : List ObjectId).length + (h.markAll roots).cells.size := by simp
  obtain ⟨done, hm, hclosed, hgray, hkept⟩ := hmarking.traceReferences (by simp [Closed])
    hmarking.get? hbound
  refine ⟨done, hm, hgray, fun id => ⟨fun hid => ?_, ?_⟩⟩
  · refine ⟨hm.reachable id ((hm.marked id).1 hid), ?_⟩
    rw [isMarked, Option.any_eq_true] at hid
    obtain ⟨c, hcell, -⟩ := hid
    rw [← hm.get? id]
    simp [get?, hcell]
  · rintro ⟨hreach, hsome⟩
    induction hreach with
    | root hid => exact hkept _ (hall _ hid hsome)
    | @step id id' _ href ih =>
      have hpresent : (h.get? id).isSome := by
        rw [referencesOf] at href
        cases hget : h.get? id with
        | none => simp [hget] at href
        | some o => rfl
      have hdone := (hm.marked id).1 (ih hpresent)
      rw [hgray, List.append_nil] at hdone
      exact hclosed id hdone id' href hsome

/-! ## Sweeping -/

lemma get?_sweep (h : Heap) (id : ObjectId) :
    h.sweep.get? id = if h.isMarked id then h.get? id else none := by
  rw [sweep, get?, isMarked, get?]
  simp only [Std.TreeMap.getElem?_filterMap']
  cases hcell : h.cells[id]? with
  | none => simp
  | some c => by_cases hmarked : c.marked <;> simp [hmarked]

/-- A collection keeps what can be reached and frees everything else. -/
theorem AtRest.get?_collect {h : Heap} (hr : h.AtRest) (roots : List ObjectId) (id : ObjectId) :
    (Reachable h roots id → (h.collect roots).get? id = h.get? id) ∧
      (¬ Reachable h roots id → (h.collect roots).get? id = none) := by
  obtain ⟨done, hm, -, hmarked⟩ := hr.marked_iff roots
  have hget : (h.collect roots).get? id =
      if (traceReferences (h.markAll roots).cells.size (h.markAll roots)).isMarked id
      then h.get? id else none := by
    rw [← hm.get? id]
    exact get?_sweep (dropUnmarkedStrings _) id
  rw [hget]
  constructor
  · intro hreach
    split
    · rfl
    · rename_i hnot
      rw [hmarked] at hnot
      cases hid : h.get? id with
      | none => rfl
      | some o => exact absurd ⟨hreach, by simp [hid]⟩ hnot
  · intro hnot
    rw [if_neg]
    rw [hmarked]
    exact fun hmarked => hnot hmarked.1

lemma AtRest.get?_collect_eq_some {h : Heap} (hr : h.AtRest) {roots : List ObjectId} {id : ObjectId}
    {o : Object} : (h.collect roots).get? id = some o ↔ Reachable h roots id ∧ h.get? id = some o := by
  obtain ⟨hkept, hfreed⟩ := hr.get?_collect roots id
  by_cases hreach : Reachable h roots id
  · simp [hreach, hkept hreach]
  · simp [hreach, hfreed hreach]

lemma AtRest.fresh_collect {h : Heap} (hr : h.AtRest) (roots : List ObjectId) :
    (h.collect roots).fresh = h.fresh := by
  obtain ⟨done, hm, -⟩ := hr.marked_iff roots
  exact hm.books.fresh

/-- The strings that were freed leave the table. -/
lemma AtRest.strings_collect {h : Heap} (hr : h.AtRest) (roots : List ObjectId) (t : Text)
    (id : ObjectId) : (h.collect roots).strings[t]? = some id ↔
      h.strings[t]? = some id ∧ Reachable h roots id := by
  obtain ⟨done, hm, -, hmarked⟩ := hr.marked_iff roots
  have hfilter : (h.collect roots).strings = h.strings.filter fun _ id =>
      (traceReferences (h.markAll roots).cells.size (h.markAll roots)).isMarked id := by
    rw [← hm.books.strings]
    rfl
  rw [hfilter, Std.TreeMap.getElem?_filter', Option.filter_eq_some_iff, hmarked]
  constructor
  · rintro ⟨htable, hreach, -⟩
    exact ⟨htable, hreach⟩
  · rintro ⟨htable, hreach⟩
    exact ⟨htable, hreach, by rw [hr.listed htable]; rfl⟩

/-- A collection leaves a heap at rest. -/
theorem AtRest.collect {h : Heap} (hr : h.AtRest) (roots : List ObjectId) :
    (h.collect roots).AtRest where
  below := by
    intro id o hget
    rw [hr.fresh_collect]
    exact hr.below (hr.get?_collect_eq_some.1 hget).2
  unmarked := by
    intro id c hcell
    have hsweep : (h.collect roots).cells = (traceReferences (h.markAll roots).cells.size
        (h.markAll roots)).cells.filterMap fun _ c =>
          if c.marked then some { c with marked := false } else none := rfl
    rw [hsweep, Std.TreeMap.getElem?_filterMap', Option.bind_eq_some_iff] at hcell
    obtain ⟨c', -, hcell⟩ := hcell
    split at hcell
    · cases hcell
      rfl
    · cases hcell
  gray := by
    obtain ⟨done, -, hgray, -⟩ := hr.marked_iff roots
    exact hgray
  listed := by
    intro t id hlisted
    obtain ⟨hold, hreach⟩ := (hr.strings_collect roots t id).1 hlisted
    exact hr.get?_collect_eq_some.2 ⟨hreach, hr.listed hold⟩

theorem Valid.collect {h : Heap} (hv : h.Valid) (roots : List ObjectId) :
    (h.collect roots).Valid where
  toAtRest := hv.toAtRest.collect roots
  tabled := by
    intro t id hget
    obtain ⟨hreach, hold⟩ := hv.get?_collect_eq_some.1 hget
    exact (hv.strings_collect roots t id).2 ⟨hv.tabled hold, hreach⟩

end Lox.Heap
