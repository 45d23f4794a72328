import Mathlib.Data.List.Sort
import Mathlib.Logic.Relation
import Lox.Proofs.Heap.Collection

/-!
# Collections are exact

What a collection leaves of a heap, said of the heap as a whole: of the objects in the order of
their allocation, of the marks, and of the table of strings.  `Heap.Live` says which objects are
to stay, in terms of the three kinds of references there are.  It does not mention how a
collector finds them.

The heaps in question are those that the heap's operations lead to (`Heap.Operation`).  Between
two operations a heap is valid, and that is all that `Heap.collect_exact` needs to know of it.
Roots are any identities at all.
-/

namespace Lox

/-! ## References -/

/-- The references of an object. -/
inductive Object.RefersTo : Object → ObjectId → Prop
  /-- A closure refers to the function it was made from. -/
  | function {f : ObjectId} {us : Array (Option ObjectId)} : RefersTo (.closure (some f) us) f
  /-- A closure refers to the variables it captured, as far as they are set. -/
  | captured {made : Option ObjectId} {us : Array (Option ObjectId)} {u : ObjectId} :
      some u ∈ us → RefersTo (.closure made us) u
  /-- A captured variable that has left the stack refers to its value. -/
  | closed {id : ObjectId} : RefersTo (.upvalue (.closed (.object (some id)))) id

lemma Object.mem_references_iff {o : Object} {id : ObjectId} :
    id ∈ o.references ↔ o.RefersTo id := by
  constructor
  · intro h
    cases o with
    | closure made us =>
      simp only [references, List.mem_append, Option.mem_toList,
        List.mem_filterMap, id_eq, exists_eq_right] at h
      rcases h with rfl | hu
      · exact .function
      · exact .captured (Array.mem_def.2 hu)
    | upvalue u =>
      cases u with
      | onStack slot => simp [references] at h
      | closed v =>
        cases v with
        | object ref =>
          simp only [references, Value.reference?, Option.mem_toList] at h
          subst h
          exact .closed
        | _ => simp [references, Value.reference?] at h
    | _ => simp [references] at h
  · intro h
    cases h with
    | function => simp [references]
    | captured hu =>
      simp only [references, List.mem_append, List.mem_filterMap, id_eq, exists_eq_right]
      exact .inr (Array.mem_def.1 hu)
    | closed => simp [references, Value.reference?]

/-- A cell without its mark. -/
def Cell.unmark (c : Cell) : Cell :=
  { c with marked := false }

namespace Heap

/-- The object is on the heap, and a root or referred to by such an object. -/
inductive Live (h : Heap) (roots : List ObjectId) : ObjectId → Prop
  | root {id : ObjectId} {o : Object} : id ∈ roots → h.get? id = some o → Live h roots id
  | step {id id' : ObjectId} {o o' : Object} : Live h roots id → h.get? id = some o →
      o.RefersTo id' → h.get? id' = some o' → Live h roots id'

lemma live_iff {h : Heap} {roots : List ObjectId} {id : ObjectId} :
    h.Live roots id ↔ Reachable h roots id ∧ (h.get? id).isSome := by
  constructor
  · intro hlive
    induction hlive with
    | root hid hget => exact ⟨.root hid, by simp [hget]⟩
    | @step id id' o o' _ hget href hget' ih =>
      refine ⟨ih.1.step ?_, by simp [hget']⟩
      rw [referencesOf, hget]
      exact Object.mem_references_iff.2 href
  · rintro ⟨hreach, hsome⟩
    induction hreach with
    | root hid =>
      obtain ⟨o, hget⟩ := Option.isSome_iff_exists.1 hsome
      exact .root hid hget
    | @step id id' _ href ih =>
      obtain ⟨o', hget'⟩ := Option.isSome_iff_exists.1 hsome
      -- An object that is not on the heap has no references.
      cases hget : h.get? id with
      | none => simp [referencesOf, hget] at href
      | some o =>
        rw [referencesOf, hget] at href
        exact .step (ih (by simp [hget])) hget (Object.mem_references_iff.1 href) hget'

/-! ## Cells

A collection touches nothing of a cell but its mark. -/

/-- The cell of an object without its mark. -/
def cell? (h : Heap) (id : ObjectId) : Option Cell :=
  (h.cells[id]?).map Cell.unmark

lemma cell?_mark (h : Heap) (id x : ObjectId) : (h.mark id).cell? x = h.cell? x := by
  rcases mark_cases h id with ⟨heq, -⟩ | ⟨c, hcell, -, heq⟩
  · rw [heq]
  · rw [heq]
    simp only [cell?, Std.TreeMap.getElem?_insert, Std.compare_eq_iff_eq]
    by_cases hx : id = x
    · subst hx
      simp [hcell, Cell.unmark]
    · simp [hx]

lemma cell?_markAll (h : Heap) (ids : List ObjectId) (x : ObjectId) :
    (h.markAll ids).cell? x = h.cell? x := by
  induction ids generalizing h with
  | nil => rfl
  | cons id ids ih => exact (ih (h.mark id)).trans (cell?_mark h id x)

lemma cell?_traceReferences (bound : Nat) (h : Heap) (x : ObjectId) :
    (traceReferences bound h).cell? x = h.cell? x := by
  induction bound generalizing h with
  | zero => rfl
  | succ bound ih =>
    rw [traceReferences]
    split
    · rfl
    · rw [ih, cell?_markAll]
      rfl

/-- A heap on which nothing is marked has no marks to take away. -/
lemma AtRest.cell?_eq {h : Heap} (hr : h.AtRest) (id : ObjectId) : h.cell? id = h.cells[id]? := by
  rw [cell?]
  cases hcell : h.cells[id]? with
  | none => rfl
  | some c =>
    have hmarked := hr.unmarked hcell
    cases c
    simp_all [Cell.unmark]

/-- The cells that are left are those of the live objects, as they were. -/
lemma AtRest.cells_collect {h : Heap} (hr : h.AtRest) {roots : List ObjectId} {id : ObjectId}
    {c : Cell} : (h.collect roots).cells[id]? = some c ↔ h.cells[id]? = some c ∧ h.Live roots id := by
  obtain ⟨done, -, -, hmarked⟩ := hr.marked_iff roots
  have hcell : (traceReferences (h.markAll roots).cells.size (h.markAll roots)).cell? id =
      h.cells[id]? := by
    rw [cell?_traceReferences, cell?_markAll, hr.cell?_eq]
  rw [live_iff, ← hmarked id, isMarked, ← hcell, cell?]
  change ((traceReferences (h.markAll roots).cells.size (h.markAll roots)).cells.filterMap fun _ c =>
    if c.marked then some c.unmark else none)[id]? = some c ↔ _
  rw [Std.TreeMap.getElem?_filterMap']
  cases (traceReferences (h.markAll roots).cells.size (h.markAll roots)).cells[id]? with
  | none => simp
  | some c' => by_cases hmark : c'.marked <;> simp [hmark]

/-! ## Order -/

/-- A part of a map lists its entries in the same order. -/
lemma toList_sublist {α β : Type} [Ord α] [Std.TransOrd α] [Std.LawfulEqOrd α]
    {s t : Std.TreeMap α β} (h : ∀ (k : α) (v : β), s[k]? = some v → t[k]? = some v) :
    s.toList.Sublist t.toList := by
  let before : α × β → α × β → Prop := fun a b => compare a.1 b.1 = .lt
  have hne : ∀ {a b}, before a b → a ≠ b := by
    rintro a _ hab rfl
    simp [before] at hab
  have : Std.Antisymm before := ⟨fun _ _ hab hba => absurd hba (Std.OrientedCmp.not_lt_of_lt hab)⟩
  have hsorted : ∀ m : Std.TreeMap α β, m.toList.Pairwise before :=
    fun m => m.ordered_keys_toList
  refine List.sublist_of_subperm_of_pairwise (r := before) ?_ (hsorted s) (hsorted t)
  refine List.Nodup.subperm ((hsorted s).imp hne) ?_
  rintro ⟨k, v⟩ hmem
  rw [Std.TreeMap.mem_toList_iff_getElem?_eq_some] at hmem ⊢
  exact h k v hmem

lemma toList_eq {α β : Type} [Ord α] [Std.TransOrd α] [Std.LawfulEqOrd α]
    {s t : Std.TreeMap α β} (h : ∀ (k : α) (v : β), s[k]? = some v ↔ t[k]? = some v) :
    s.toList = t.toList :=
  (toList_sublist fun k v => (h k v).1).antisymm (toList_sublist fun k v => (h k v).2)

/-! ## Collecting again -/

section Again

variable {h : Heap} {roots : List ObjectId}

/-- What is live is so by objects that stay. -/
lemma AtRest.live_collect (hr : h.AtRest) {id : ObjectId} (hlive : h.Live roots id) :
    (h.collect roots).Live roots id := by
  have hkept : ∀ {id o}, h.Live roots id → h.get? id = some o →
      (h.collect roots).get? id = some o :=
    fun hlive hget => hr.get?_collect_eq_some.2 ⟨(live_iff.1 hlive).1, hget⟩
  induction hlive with
  | root hid hget => exact .root hid (hkept (.root hid hget) hget)
  | step hlive hget href hget' ih =>
    exact .step ih (hkept hlive hget) href (hkept (.step hlive hget href hget') hget')

lemma AtRest.cells_collect_collect (hr : h.AtRest) {id : ObjectId} {c : Cell} :
    ((h.collect roots).collect roots).cells[id]? = some c ↔
      (h.collect roots).cells[id]? = some c := by
  rw [(hr.collect roots).cells_collect, and_iff_left_iff_imp]
  intro hcell
  exact hr.live_collect (hr.cells_collect.1 hcell).2

lemma AtRest.strings_collect_iff (hr : h.AtRest) {t : Text} {id : ObjectId} :
    (h.collect roots).strings[t]? = some id ↔ h.strings[t]? = some id ∧ h.Live roots id := by
  rw [hr.strings_collect, live_iff]
  refine and_congr_right fun hlisted => ?_
  simp [hr.listed hlisted]

lemma AtRest.strings_collect_collect (hr : h.AtRest) {t : Text} {id : ObjectId} :
    ((h.collect roots).collect roots).strings[t]? = some id ↔
      (h.collect roots).strings[t]? = some id := by
  rw [(hr.collect roots).strings_collect_iff, and_iff_left_iff_imp]
  intro hlisted
  exact hr.live_collect (hr.strings_collect_iff.1 hlisted).2

lemma unmarkedBytes_eq_zero (hmarked : ∀ (id : ObjectId) (c : Cell), h.cells[id]? = some c → c.marked) :
    h.unmarkedBytes = 0 := by
  rw [unmarkedBytes, Std.TreeMap.foldl_eq_foldl_toList]
  have hall : ∀ p ∈ h.cells.toList, p.2.marked :=
    fun p hp => hmarked p.1 p.2 (Std.TreeMap.mem_toList_iff_getElem?_eq_some.1 hp)
  generalize h.cells.toList = ps at hall
  induction ps with
  | nil => rfl
  | cons p ps ih =>
    rw [List.forall_mem_cons] at hall
    rw [List.foldl_cons, if_pos hall.1]
    exact ih hall.2

/-- Where every object is live there is nothing to free. -/
lemma AtRest.stats_collect (hr : h.AtRest)
    (hlive : ∀ (id : ObjectId) (c : Cell), h.cells[id]? = some c → h.Live roots id) :
    (h.collect roots).stats.freed = h.stats.freed ∧
      (h.collect roots).stats.objects = h.stats.objects ∧ (h.collect roots).bytes = h.bytes := by
  obtain ⟨done, hm, -, hmarked⟩ := hr.marked_iff roots
  have hzero : (traceReferences (h.markAll roots).cells.size (h.markAll roots)).unmarkedBytes = 0 := by
    refine unmarkedBytes_eq_zero fun id c hcell => ?_
    have hsome : (h.get? id).isSome := by
      rw [← hm.get? id, get?, hcell]
      rfl
    obtain ⟨c₀, hcell₀⟩ : ∃ c₀, h.cells[id]? = some c₀ := by
      rwa [get?, Option.isSome_map, Option.isSome_iff_exists] at hsome
    have hmark := (hmarked id).2 (live_iff.1 (hlive id c₀ hcell₀))
    rwa [isMarked, hcell] at hmark
  have hsize : (h.collect roots).cells.size = h.cells.size := by
    have hcells : (h.collect roots).cells.toList = h.cells.toList :=
      toList_eq fun id c => by
        rw [hr.cells_collect, and_iff_left_iff_imp]
        exact hlive id c
    rw [← Std.TreeMap.length_toList, hcells, Std.TreeMap.length_toList]
  refine ⟨?_, ?_, ?_⟩
  · change (traceReferences _ _).stats.freed + (traceReferences _ _).unmarkedBytes = _
    rw [hzero, hm.books.stats, Nat.add_zero]
  · change (traceReferences _ _).stats.objects -
      ((traceReferences _ _).cells.size - (h.collect roots).cells.size) = _
    rw [hsize, hm.books.size, hm.books.stats, Nat.sub_self, Nat.sub_zero]
  · change (traceReferences _ _).bytes - (traceReferences _ _).unmarkedBytes = _
    rw [hzero, hm.books.bytes, Nat.sub_zero]

end Again

/-! ## The heap's operations -/

/-- One operation on a heap.  An object may be allocated whatever it refers to, a captured
variable may get any value, and a collection may have any roots. -/
inductive Operation : Heap → Heap → Prop
  | intern (h : Heap) (t : Text) : Operation h (h.intern t).2
  | allocate (h : Heap) (o : Object) : Operation h (h.allocate o).2
  | assign (h : Heap) {id : ObjectId} {u : Upvalue} (u' : Upvalue) :
      h.get? id = some (.upvalue u) → Operation h (h.update id (.upvalue u'))
  | setUpvalue (h : Heap) (id : ObjectId) (place : Nat) (u : Option ObjectId) :
      Operation h (h.setUpvalue id place u)
  | collect (h : Heap) (roots : List ObjectId) : Operation h (h.collect roots)
  | collectIfDue (h : Heap) (roots : List ObjectId) : Operation h (h.collectIfDue roots).2

lemma AtRest.operation {h h' : Heap} (hr : h.AtRest) (hop : Operation h h') : h'.AtRest := by
  cases hop with
  | intern t => exact hr.intern t
  | allocate o => exact hr.allocate o
  | assign u' hget => exact hr.update fun t => by simp [hget]
  | setUpvalue id place u =>
    rw [Heap.setUpvalue]
    split
    · rename_i hget
      exact hr.update fun t => by simp [hget]
    · exact hr
  | collect roots => exact hr.collect roots
  | collectIfDue roots =>
    rw [Heap.collectIfDue]
    split
    · exact hr.collect roots
    · exact hr

/-- Between two operations a heap is at rest. -/
lemma atRest_of_operations {config : HeapConfig} {h : Heap}
    (hops : Relation.ReflTransGen Operation (new config) h) : h.AtRest := by
  induction hops with
  | refl => exact (valid_new config).toAtRest
  | tail _ hop ih => exact ih.operation hop

/-- The second heap is what is live of the first. -/
structure LivePart (h : Heap) (roots : List ObjectId) (h' : Heap) : Prop where
  /-- The objects are in the order of their allocation, with all that is noted about them. -/
  ordered : h'.cells.toList.Sublist h.cells.toList
  cells : ∀ id c, (id, c) ∈ h'.cells.toList ↔ (id, c) ∈ h.cells.toList ∧ h.Live roots id
  unmarked : ∀ id c, (id, c) ∈ h'.cells.toList → c.marked = false
  /-- There is no object whose references are still to be followed. -/
  gray : h'.gray = []
  strings : ∀ (t : Text) (id : ObjectId), h'.strings[t]? = some id ↔
    h.strings[t]? = some id ∧ h.Live roots id

/-- A collection finds nothing to free. -/
structure Settled (h : Heap) (roots : List ObjectId) : Prop where
  cells : (h.collect roots).cells.toList = h.cells.toList
  strings : (h.collect roots).strings.toList = h.strings.toList
  freed : (h.collect roots).stats.freed = h.stats.freed
  objects : (h.collect roots).stats.objects = h.stats.objects
  bytes : (h.collect roots).bytes = h.bytes

/-- A collection is exact: it leaves what is live.  A second collection with the same roots changes
nothing. -/
theorem collect_exact {config : HeapConfig} {h : Heap}
    (hops : Relation.ReflTransGen Operation (new config) h) (roots : List ObjectId) :
    h.LivePart roots (h.collect roots) ∧ (h.collect roots).Settled roots := by
  have hr := atRest_of_operations hops
  have hr' := hr.collect roots
  obtain ⟨hfreed, hobjects, hbytes⟩ := hr'.stats_collect fun id c hcell =>
    hr.live_collect (hr.cells_collect.1 hcell).2
  constructor
  · refine ⟨?ordered, fun id c => ?cells, fun id c hmem => ?unmarked, hr'.gray,
      fun t id => hr.strings_collect_iff⟩
    case ordered => exact toList_sublist fun id c hcell => (hr.cells_collect.1 hcell).1
    case cells =>
      rw [Std.TreeMap.mem_toList_iff_getElem?_eq_some, Std.TreeMap.mem_toList_iff_getElem?_eq_some]
      exact hr.cells_collect
    case unmarked => exact hr'.unmarked (Std.TreeMap.mem_toList_iff_getElem?_eq_some.1 hmem)
  · exact ⟨toList_eq fun id c => hr.cells_collect_collect,
      toList_eq fun t id => hr.strings_collect_collect, hfreed, hobjects, hbytes⟩

/-- A closure of no function whose one captured variable holds the closure itself, between two
strings. -/
def knot : Heap :=
  let h := ((new .standard).intern "before").2
  let h := (h.allocate (.upvalue (.onStack 0))).2
  let h := (h.allocate (.newClosure none 2)).2
  let h := h.setUpvalue 2 0 (some 1)
  let h := h.update 1 (.upvalue (.closed (.object (some 2))))
  (h.intern "after").2

/-- The cycle stays while it is a root, and the strings go. -/
theorem collect_exact_knot : Relation.ReflTransGen Operation (new .standard) knot ∧
    knot.Live [2] 1 ∧ ¬ knot.Live [2] 3 ∧
    (knot.collect [2]).cells.toList.map Prod.fst = [1, 2] ∧
    ((knot.collect [2]).collect [2]).cells.toList = (knot.collect [2]).cells.toList := by
  have hops : Relation.ReflTransGen Operation (new .standard) knot :=
    ((((((Relation.ReflTransGen.refl.tail (.intern _ _)).tail (.allocate _ _)).tail
      (.allocate _ _)).tail (.setUpvalue _ _ _ _)).tail (.assign _ _ (by rfl))).tail (.intern _ _))
  obtain ⟨hpart, hsettled⟩ := collect_exact hops [2]
  have hall : knot.cells.toList.map Prod.fst = [0, 1, 2, 3] := by decide +kernel
  have hleft : (knot.collect [2]).cells.toList.map Prod.fst = [1, 2] := by decide +kernel
  refine ⟨hops, ?_, fun hlive => ?_, hleft, hsettled.cells⟩
  · obtain ⟨⟨_, c⟩, hc, rfl⟩ := List.mem_map.1 (hleft ▸ (by simp : 1 ∈ [1, 2]))
    exact ((hpart.cells 1 c).1 hc).2
  · obtain ⟨⟨_, c⟩, hc, rfl⟩ := List.mem_map.1 (hall ▸ (by simp : 3 ∈ [0, 1, 2, 3]))
    have hkept := List.mem_map_of_mem (f := Prod.fst) ((hpart.cells 3 c).2 ⟨hc, hlive⟩)
    rw [hleft] at hkept
    simp at hkept

end Heap

end Lox
