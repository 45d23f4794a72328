import Mathlib.Algebra.GroupWithZero.Nat
import Lox.Proofs.Interning

/-!
# Statistics are exact

A heap counts as it goes: an allocation adds to the books, and a sweep takes from them, for each
object that it frees, the size that was noted when the object was allocated.  `Heap.Books` says what
the books have to show of the heap as it is, and each of the heap's operations keeps that.

A sweep that frees one object after the other takes care never to subtract more than there is
(`Tally.free`).  The books being right, there is always enough, in whatever order the objects go, and
so this care is never needed (`statistics_exact`).
-/

namespace Lox

namespace Heap

/-! ## The books -/

/-- The sizes that were noted, in the order of the allocations. -/
def sizes (h : Heap) : List Nat :=
  h.cells.toList.map fun p => p.2.size

/-- What the books show is what there is on the heap. -/
structure Books (h : Heap) : Prop where
  /-- No object has changed its size. -/
  noted : ∀ {id : ObjectId} {c : Cell}, h.cells[id]? = some c → c.size = c.object.size
  bytes : h.bytes = h.sizes.sum
  allocated : h.stats.allocated = h.bytes + h.stats.freed
  objects : h.stats.objects = h.cells.size
  interned : h.stats.interned = h.strings.size

/-- The sizes depend on nothing but the sizes. -/
lemma sizes_eq {h h' : Heap}
    (hsize : ∀ id : ObjectId, (h'.cells[id]?).map Cell.size = (h.cells[id]?).map Cell.size) :
    h'.sizes = h.sizes := by
  have hmap : ∀ h : Heap, h.sizes = (h.cells.map fun _ c => c.size).toList.map Prod.snd := by
    intro h
    rw [sizes, Std.TreeMap.toList_map, List.map_map]
    rfl
  rw [hmap, hmap]
  refine congrArg _ (toList_eq fun id n => ?_)
  rw [Std.TreeMap.getElem?_map, Std.TreeMap.getElem?_map]
  exact Eq.congr_left (hsize id)

/-- The sizes as they are listed with the objects. -/
lemma Books.footprint {h : Heap} (hb : h.Books) :
    h.sizes = h.cells.toList.map fun p => p.2.object.size :=
  List.map_congr_left fun _ hp => hb.noted (Std.TreeMap.mem_toList_iff_getElem?_eq_some.1 hp)

lemma books_new (config : HeapConfig) : (new config).Books where
  noted := by simp [new]
  bytes := rfl
  allocated := rfl
  objects := rfl
  interned := rfl

namespace Books

variable {h h' : Heap} {id : ObjectId} {o o' : Object}

lemma allocate (hb : h.Books) (hr : h.AtRest) (o : Object) : (h.allocate o).2.Books := by
  have hfresh : h.cells[h.fresh]? = none := Option.map_eq_none_iff.1 hr.get?_fresh
  have hnew : h.cells.contains h.fresh = false := by
    rw [← Std.TreeMap.isSome_getElem?_eq_contains, hfresh]
    rfl
  have hsizes : (h.allocate o).2.sizes.Perm (o.size :: h.sizes) := by
    have hlist : (h.allocate o).2.cells.toList.Perm ((h.fresh, ⟨o, o.size, false⟩) :: h.cells.toList) := by
      refine (List.perm_ext_iff_of_nodup (nodup_toList _) ?_).2 ?_
      · refine List.nodup_cons.2 ⟨fun hmem => ?_, nodup_toList _⟩
        rw [Std.TreeMap.mem_toList_iff_getElem?_eq_some, hfresh] at hmem
        cases hmem
      · rintro ⟨id, c⟩
        simp only [List.mem_cons, Std.TreeMap.mem_toList_iff_getElem?_eq_some, Heap.allocate,
          Std.TreeMap.getElem?_insert, Std.compare_eq_iff_eq]
        by_cases hid : h.fresh = id
        · subst hid
          simp [hfresh, eq_comm]
        · simp [hid, Ne.symm hid]
    exact hlist.map _
  refine ⟨fun {id c} hcell => ?_, ?_, ?_, ?_, hb.interned⟩
  · rw [Heap.allocate, Std.TreeMap.getElem?_insert] at hcell
    split at hcell
    · cases hcell
      rfl
    · exact hb.noted hcell
  · rw [hsizes.sum_nat, List.sum_cons, ← hb.bytes, Nat.add_comm]
    rfl
  · show h.stats.allocated + o.size = h.bytes + o.size + h.stats.freed
    rw [hb.allocated, Nat.add_right_comm]
  · show h.stats.objects + 1 = (h.cells.insert h.fresh ⟨o, o.size, false⟩).size
    rw [Std.TreeMap.size_insert, hnew, hb.objects]
    rfl

lemma intern (hb : h.Books) (hr : h.AtRest) (t : Text) : (h.intern t).2.Books := by
  rw [Heap.intern]
  split
  · exact hb
  · have ha := hb.allocate hr (.string t)
    exact ⟨ha.noted, ha.bytes, ha.allocated, ha.objects, rfl⟩

/-- What changes no size leaves the books right. -/
lemma update (hb : h.Books) (hget : h.get? id = some o) (hsize : o'.size = o.size) :
    (h.update id o').Books := by
  have hcells : ∀ x, (h.update id o').cells[x]? =
      if id = x then (h.cells[id]?).map fun c => { c with object := o' } else h.cells[x]? := by
    intro x
    simp only [Heap.update, Std.TreeMap.getElem?_modify, Std.compare_eq_iff_eq]
  obtain ⟨c, hcell, hobject⟩ := get?_eq_some.1 hget
  refine ⟨fun {x d} hd => ?_, ?_, hb.allocated, ?_, hb.interned⟩
  · rw [hcells] at hd
    split at hd
    · rw [hcell] at hd
      cases hd
      exact (hb.noted hcell).trans (hobject ▸ hsize.symm)
    · exact hb.noted hd
  · rw [sizes_eq (h := h) fun x => ?_]
    · exact hb.bytes
    · rw [hcells]
      split
      · rename_i hx
        rw [← hx, hcell]
        rfl
      · rfl
  · show h.stats.objects = (h.cells.modify id _).size
    rw [Std.TreeMap.size_modify, hb.objects]

/-- Marks are not in the books. -/
lemma of_cells (hb : h.Books) (hcells : ∀ x, h'.cell? x = h.cell? x) (hsame : h.SameBooks h') :
    h'.Books := by
  refine ⟨fun {x c} hc => ?_, ?_, ?_, ?_, ?_⟩
  · have hx := hcells x
    rw [cell?, hc] at hx
    obtain ⟨d, hd, hcd⟩ := Option.map_eq_some_iff.1 hx.symm
    have hsize := hb.noted hd
    cases c
    cases d
    cases hcd
    exact hsize
  · have hsize : ∀ h : Heap, ∀ x, (h.cells[x]?).map Cell.size = (h.cell? x).map Cell.size := by
      intro h x
      rw [cell?, Option.map_map]
      rfl
    rw [sizes_eq (h := h) fun x => by rw [hsize, hsize, hcells], hsame.bytes, hb.bytes]
  · rw [hsame.stats, hsame.bytes, hb.allocated]
  · rw [hsame.stats, hsame.size, hb.objects]
  · rw [hsame.stats, hsame.strings, hb.interned]

lemma dropUnmarkedStrings (hb : h.Books) : h.dropUnmarkedStrings.Books :=
  ⟨hb.noted, hb.bytes, hb.allocated, hb.objects, rfl⟩

end Books

/-! ## Sweeping -/

/-- The bytes on a list of cells, of which some are marked. -/
lemma sum_marked (ps : List (ObjectId × Cell)) (n : Nat) :
    ps.foldl (fun n p => if p.2.marked then n else n + p.2.size) n +
      ((ps.filter (·.2.marked)).map fun p => p.2.size).sum = n + (ps.map fun p => p.2.size).sum := by
  induction ps generalizing n with
  | nil => rfl
  | cons p ps ih =>
    rw [List.foldl_cons, List.filter_cons, List.map_cons, List.sum_cons]
    cases p.2.marked with
    | true =>
      rw [if_pos rfl, if_pos rfl, List.map_cons, List.sum_cons]
      have hrest := ih n
      omega
    | false =>
      rw [if_neg Bool.false_ne_true, if_neg Bool.false_ne_true]
      have hrest := ih (n + p.2.size)
      omega

lemma toList_sweep (h : Heap) : h.sweep.cells.toList =
    (h.cells.toList.filter (·.2.marked)).map fun p => (p.1, p.2.unmark) := by
  rw [sweep, Std.TreeMap.toList_filterMap]
  generalize h.cells.toList = ps
  induction ps with
  | nil => rfl
  | cons p ps ih =>
    rw [List.filterMap_cons, List.filter_cons, ih]
    cases p.2.marked with
    | true => rfl
    | false => rfl

/-- What is freed and what is left is what there was. -/
lemma unmarkedBytes_add (h : Heap) : h.unmarkedBytes + h.sweep.sizes.sum = h.sizes.sum := by
  have hsum := sum_marked h.cells.toList 0
  rw [Nat.zero_add] at hsum
  rw [unmarkedBytes, Std.TreeMap.foldl_eq_foldl_toList, sizes, toList_sweep, List.map_map]
  exact hsum

lemma size_sweep_le (h : Heap) : h.sweep.cells.size ≤ h.cells.size := by
  rw [← Std.TreeMap.length_toList, toList_sweep, List.length_map, ← Std.TreeMap.length_toList]
  exact List.length_filter_le _ _

lemma Books.sweep {h : Heap} (hb : h.Books) : h.sweep.Books := by
  have hsum := h.unmarkedBytes_add
  rw [← hb.bytes] at hsum
  refine ⟨fun {id c} hcell => ?_, ?_, ?_, ?_, hb.interned⟩
  · rw [← Std.TreeMap.mem_toList_iff_getElem?_eq_some, toList_sweep, List.mem_map] at hcell
    obtain ⟨⟨id', c'⟩, hp, hpair⟩ := hcell
    cases hpair
    have hthere := Std.TreeMap.mem_toList_iff_getElem?_eq_some.1 (List.mem_filter.1 hp).1
    exact hb.noted (c := c') hthere
  · show h.bytes - h.unmarkedBytes = h.sweep.sizes.sum
    omega
  · show h.stats.allocated = h.bytes - h.unmarkedBytes + (h.stats.freed + h.unmarkedBytes)
    rw [hb.allocated]
    omega
  · show h.stats.objects - (h.cells.size - h.sweep.cells.size) = h.sweep.cells.size
    have hle := h.size_sweep_le
    rw [hb.objects]
    omega

lemma Books.collect {h : Heap} (hb : h.Books) (hr : h.AtRest) (roots : List ObjectId) :
    (h.collect roots).Books := by
  obtain ⟨done, hm, -, -⟩ := hr.marked_iff roots
  have hmarked := hb.of_cells (fun x => (cell?_traceReferences _ _ x).trans (cell?_markAll h roots x))
    hm.books
  have hswept := hmarked.dropUnmarkedStrings.sweep
  exact ⟨hswept.noted, hswept.bytes, hswept.allocated, hswept.objects, hswept.interned⟩

lemma size_setIfInBounds (f : Option ObjectId) (us : Array (Option ObjectId)) (place : Nat)
    (u : Option ObjectId) :
    (Object.closure f (us.setIfInBounds place u)).size = (Object.closure f us).size := by
  simp [Object.size]

/-- Every operation keeps the books right. -/
lemma Books.operation {h h' : Heap} (hb : h.Books) (hr : h.AtRest) (hop : Operation h h') :
    h'.Books := by
  cases hop with
  | intern t => exact hb.intern hr t
  | allocate o => exact hb.allocate hr o
  | assign u' hget => exact hb.update hget rfl
  | setUpvalue id place u =>
    rw [Heap.setUpvalue]
    split
    · rename_i hget
      exact hb.update hget (size_setIfInBounds _ _ _ _)
    · exact hb
  | collect roots => exact hb.collect hr roots
  | collectIfDue roots =>
    rw [Heap.collectIfDue]
    split
    · exact hb.collect hr roots
    · exact hb

/-! ## Histories -/

/-- A heap that operations have led to, with the heaps before it, the last one first. -/
inductive History (step : Heap → Heap → Prop) (config : HeapConfig) : Heap → List Heap → Prop
  | new : History step config (new config) []
  | next {h h' : Heap} {past : List Heap} : History step config h past → step h h' →
      History step config h' (h :: past)

namespace History

variable {step step' : Heap → Heap → Prop} {config : HeapConfig} {h : Heap} {past : List Heap}

lemma mono (hall : ∀ h h', step h h' → step' h h') (hpast : History step config h past) :
    History step' config h past := by
  induction hpast with
  | new => exact .new
  | next _ hstep ih => exact ih.next (hall _ _ hstep)

lemma operations (hpast : History step config h past) :
    Relation.ReflTransGen step (Heap.new config) h := by
  induction hpast with
  | new => exact .refl
  | next _ hstep ih => exact ih.tail hstep

end History

lemma books_of_history {config : HeapConfig} {h : Heap} {past : List Heap}
    (hpast : History Operation config h past) : h.Books := by
  induction hpast with
  | new => exact books_new config
  | next hpast hop ih => exact ih.operation (atRest_of_operations hpast.operations) hop

/-- A collection frees objects and leaves the peak alone. -/
lemma AtRest.objects_collect {h : Heap} (hr : h.AtRest) (roots : List ObjectId) :
    (h.collect roots).stats.peak = h.stats.peak ∧
      (h.collect roots).stats.objects ≤ h.stats.objects := by
  obtain ⟨done, hm, -, -⟩ := hr.marked_iff roots
  constructor
  · show (traceReferences _ _).stats.peak = h.stats.peak
    rw [hm.books.stats]
  · refine Nat.le_trans (Nat.sub_le _ _) ?_
    show (traceReferences _ _).stats.objects ≤ h.stats.objects
    rw [hm.books.stats]

/-- The peak rises with the number of objects, and nothing else changes it. -/
lemma Operation.peak {h h' : Heap} (hop : Operation h h') (hr : h.AtRest)
    (hle : h.stats.objects ≤ h.stats.peak) :
    h'.stats.peak = max h.stats.peak h'.stats.objects := by
  have hcollect : ∀ roots, (h.collect roots).stats.peak =
      max h.stats.peak (h.collect roots).stats.objects := by
    intro roots
    obtain ⟨hpeak, hobjects⟩ := hr.objects_collect roots
    rw [hpeak, Nat.max_eq_left (Nat.le_trans hobjects hle)]
  cases hop with
  | intern t =>
    rw [Heap.intern]
    split
    · exact (Nat.max_eq_left hle).symm
    · rfl
  | allocate o => rfl
  | assign u' hget => exact (Nat.max_eq_left hle).symm
  | setUpvalue id place u =>
    rw [Heap.setUpvalue]
    split
    · exact (Nat.max_eq_left hle).symm
    · exact (Nat.max_eq_left hle).symm
  | collect roots => exact hcollect roots
  | collectIfDue roots =>
    rw [Heap.collectIfDue]
    split
    · exact hcollect roots
    · exact (Nat.max_eq_left hle).symm

/-- The peak is the largest number of objects there has been. -/
lemma peak_of_history {config : HeapConfig} {h : Heap} {past : List Heap}
    (hpast : History Operation config h past) :
    (∀ x ∈ h :: past, x.stats.objects ≤ h.stats.peak) ∧
      ∃ x ∈ h :: past, x.stats.objects = h.stats.peak := by
  induction hpast with
  | new => exact ⟨by simp [Heap.new], by simp [Heap.new]⟩
  | @next h h' past hpast hop ih =>
    obtain ⟨hle, x, hx, hattained⟩ := ih
    have hpeak := hop.peak (atRest_of_operations hpast.operations) (hle h (List.mem_cons_self ..))
    refine ⟨List.forall_mem_cons.2 ⟨?_, fun y hy => ?_⟩, ?_⟩
    · rw [hpeak]
      exact Nat.le_max_right _ _
    · rw [hpeak]
      exact Nat.le_trans (hle y hy) (Nat.le_max_left _ _)
    · rcases Nat.le_total h'.stats.objects h.stats.peak with hlow | hhigh
      · exact ⟨x, List.mem_cons_of_mem _ hx, by rw [hattained, hpeak, Nat.max_eq_left hlow]⟩
      · exact ⟨h', List.mem_cons_self .., by rw [hpeak, Nat.max_eq_right hhigh]⟩

/-! ## One object after the other -/

/-- What a sweep counts. -/
structure Tally where
  bytes : Nat
  freed : Nat
  objects : Nat
  deriving DecidableEq, Repr

/-- What is counted when an object is freed.  Neither the bytes nor the objects go below zero. -/
def Tally.free (t : Tally) (c : Cell) : Tally :=
  { bytes := t.bytes - min t.bytes c.size
    freed := t.freed + c.size
    objects := if 0 < t.objects then t.objects - 1 else t.objects }

/-- What is counted when cells are freed one after the other. -/
def Tally.freeAll (t : Tally) (ps : List (ObjectId × Cell)) : Tally :=
  ps.foldl (fun t p => t.free p.2) t

/-- What the books of a heap show. -/
def tally (h : Heap) : Tally :=
  ⟨h.bytes, h.stats.freed, h.stats.objects⟩

/-- Where there is enough, all is subtracted. -/
lemma Tally.freeAll_eq {t : Tally} {ps : List (ObjectId × Cell)}
    (hbytes : (ps.map fun p => p.2.size).sum ≤ t.bytes) (hobjects : ps.length ≤ t.objects) :
    t.freeAll ps = ⟨t.bytes - (ps.map fun p => p.2.size).sum,
      t.freed + (ps.map fun p => p.2.size).sum, t.objects - ps.length⟩ := by
  induction ps generalizing t with
  | nil => rfl
  | cons p ps ih =>
    rw [List.map_cons, List.sum_cons] at hbytes ⊢
    rw [List.length_cons] at hobjects ⊢
    have hfree : t.free p.2 = ⟨t.bytes - p.2.size, t.freed + p.2.size, t.objects - 1⟩ := by
      rw [free, Nat.min_eq_right (by omega), if_pos (by omega)]
    have hrest := ih (t := t.free p.2) (by rw [hfree]; dsimp only; omega)
      (by rw [hfree]; dsimp only; omega)
    rw [freeAll, List.foldl_cons]
    refine hrest.trans ?_
    rw [hfree, Tally.mk.injEq]
    dsimp only
    omega

section Freeing

variable {h : Heap} {ps : List (ObjectId × Cell)}

/-- Different cells of a heap are not larger than the heap. -/
lemma Books.enough (hb : h.Books) (hsub : ps.Subperm h.cells.toList) :
    (ps.map fun p => p.2.size).sum ≤ h.tally.bytes ∧ ps.length ≤ h.tally.objects := by
  obtain ⟨rest, hperm⟩ : ∃ rest, h.cells.toList.Perm (ps ++ rest) := by
    obtain ⟨qs, hqs, hsublist⟩ := hsub
    obtain ⟨rest, hrest⟩ := hsublist.exists_perm_append
    exact ⟨rest, hrest.trans (hqs.append_right rest)⟩
  have hsizes : h.sizes.Perm ((ps ++ rest).map fun p => p.2.size) := hperm.map _
  constructor
  · show _ ≤ h.bytes
    rw [hb.bytes, hsizes.sum_nat, List.map_append, List.sum_append_nat]
    exact Nat.le_add_right _ _
  · show _ ≤ h.stats.objects
    rw [hb.objects, ← Std.TreeMap.length_toList, hperm.length_eq, List.length_append]
    exact Nat.le_add_right _ _

/-- While cells of a heap are freed, each of them finds enough to subtract. -/
lemma Books.unclamped (hb : h.Books) {before after : List (ObjectId × Cell)} {p : ObjectId × Cell}
    (hsub : (before ++ p :: after).Subperm h.cells.toList) :
    p.2.size ≤ (h.tally.freeAll before).bytes ∧ 0 < (h.tally.freeAll before).objects := by
  obtain ⟨hbytes, hobjects⟩ := hb.enough hsub
  rw [List.map_append, List.map_cons, List.sum_append_nat, List.sum_cons] at hbytes
  rw [List.length_append, List.length_cons] at hobjects
  rw [Tally.freeAll_eq (by omega) (by omega)]
  dsimp only
  omega

/-- The garbage, in any order. -/
lemma AtRest.garbage_perm (hr : h.AtRest) {roots : List ObjectId} (hnodup : ps.Nodup)
    (hmem : ∀ id c, (id, c) ∈ ps ↔ (id, c) ∈ h.cells.toList ∧ ¬ h.Live roots id) :
    (ps ++ (h.collect roots).cells.toList).Perm h.cells.toList := by
  have hkept : ∀ id c, (id, c) ∈ (h.collect roots).cells.toList ↔
      (id, c) ∈ h.cells.toList ∧ h.Live roots id := by
    intro id c
    rw [Std.TreeMap.mem_toList_iff_getElem?_eq_some, Std.TreeMap.mem_toList_iff_getElem?_eq_some]
    exact hr.cells_collect
  refine (List.perm_ext_iff_of_nodup ?_ (nodup_toList _)).2 ?_
  · refine List.nodup_append'.2 ⟨hnodup, nodup_toList _, ?_⟩
    rintro ⟨id, c⟩ hfreed hleft
    exact ((hmem id c).1 hfreed).2 ((hkept id c).1 hleft).2
  · rintro ⟨id, c⟩
    rw [List.mem_append, hmem, hkept, ← and_or_left, and_iff_left_iff_imp]
    exact fun _ => (Classical.em _).symm

/-- To free the garbage is to collect. -/
lemma Books.freeAll_garbage (hb : h.Books) (hr : h.AtRest) {roots : List ObjectId}
    (hperm : (ps ++ (h.collect roots).cells.toList).Perm h.cells.toList) :
    h.tally.freeAll ps = (h.collect roots).tally := by
  have hb' := hb.collect hr roots
  obtain ⟨hbytes, hobjects⟩ := hb.enough ((List.sublist_append_left _ _).subperm.trans hperm.subperm)
  have hsizes : h.bytes = (ps.map fun p => p.2.size).sum + (h.collect roots).bytes := by
    have hsplit : ((ps ++ (h.collect roots).cells.toList).map fun p => p.2.size).Perm h.sizes :=
      hperm.map _
    rw [hb.bytes, ← hsplit.sum_nat, List.map_append, List.sum_append_nat, hb'.bytes]
    rfl
  have hcount : h.stats.objects = ps.length + (h.collect roots).stats.objects := by
    rw [hb.objects, ← Std.TreeMap.length_toList, ← hperm.length_eq, List.length_append,
      Std.TreeMap.length_toList, hb'.objects]
  have hallocated : (h.collect roots).stats.allocated = h.stats.allocated := by
    obtain ⟨done, hm, -, -⟩ := hr.marked_iff roots
    show (traceReferences _ _).stats.allocated = h.stats.allocated
    rw [hm.books.stats]
  have hfreed : (h.collect roots).stats.freed = h.stats.freed + (ps.map fun p => p.2.size).sum := by
    have hbefore := hb.allocated
    have hafter := hb'.allocated
    omega
  rw [Tally.freeAll_eq hbytes hobjects, tally, tally, Tally.mk.injEq]
  refine ⟨?_, hfreed.symm, ?_⟩
  · rw [hsizes, Nat.add_sub_cancel_left]
  · rw [hcount, Nat.add_sub_cancel_left]

end Freeing

/-! ## Main result -/

/-- What is counted is what there is, on a heap that was these others before. -/
structure Accounted (config : HeapConfig) (h : Heap) (past : List Heap) : Prop where
  /-- The bytes are those of the objects on the heap. -/
  bytes : h.bytes = (h.cells.toList.map fun p => p.2.object.size).sum
  freed_le : h.stats.freed ≤ h.stats.allocated
  /-- They are what was allocated and not freed. -/
  difference : h.bytes = h.stats.allocated - h.stats.freed
  objects : h.stats.objects = h.cells.size
  /-- The peak is the largest count there has been. -/
  peak_upper : ∀ x ∈ h :: past, x.stats.objects ≤ h.stats.peak
  peak_attained : ∃ x ∈ h :: past, x.stats.objects = h.stats.peak
  table : h.stats.interned = h.strings.size
  /-- The strings are counted unless one was put on the heap past the table. -/
  strings : History Tabled config h past → h.stats.interned = h.stringList.length
  /-- Whichever objects are freed, and in whatever order, for each there is as much to subtract as it
  takes. -/
  unclamped : ∀ before p after, (before ++ p :: after).Nodup → before ++ p :: after ⊆ h.cells.toList →
    p.2.size ≤ (h.tally.freeAll before).bytes ∧ 0 < (h.tally.freeAll before).objects
  /-- To free the garbage in any order is what a collection does. -/
  garbage : ∀ (roots : List ObjectId) (ps : List (ObjectId × Cell)), ps.Nodup →
    (∀ id c, (id, c) ∈ ps ↔ (id, c) ∈ h.cells.toList ∧ ¬ h.Live roots id) →
    h.tally.freeAll ps = (h.collect roots).tally

/-- **Statistics are exact**, whatever was done to the heap. -/
theorem statistics_exact {config : HeapConfig} {h : Heap} {past : List Heap}
    (hpast : History Operation config h past) : Accounted config h past := by
  have hr := atRest_of_operations hpast.operations
  have hb := books_of_history hpast
  have hallocated := hb.allocated
  obtain ⟨hle, hattained⟩ := peak_of_history hpast
  refine ⟨?bytes, by omega, by omega, hb.objects, hle, hattained, hb.interned, fun htabled => ?strings,
    fun before p after hnodup hsub => ?unclamped, fun roots ps hnodup hmem => ?garbage⟩
  case bytes => rw [hb.bytes, hb.footprint]
  case strings =>
    have hv := valid_of_tabled htabled.operations
    rw [hb.interned, ← hv.interned_heap.entries.length_eq, Std.TreeMap.length_toList]
  case unclamped => exact hb.unclamped (hnodup.subperm hsub)
  case garbage => exact hb.freeAll_garbage hr (hr.garbage_perm hnodup hmem)

/-- A string that stays and a captured variable that goes. -/
theorem statistics_exact_collected :
    let h₁ := ((new .standard).intern "kept").2
    let h₂ := (h₁.allocate (.upvalue (.onStack 0))).2
    let h₃ := h₂.collect [0]
    History Tabled .standard h₃ [h₂, h₁, new .standard] ∧
      h₃.bytes = 79 ∧ h₃.stats.allocated - h₃.stats.freed = 79 ∧ h₃.cells.size = 1 ∧
      (∃ x ∈ [h₃, h₂, h₁, new .standard], x.stats.objects = h₃.stats.peak) ∧ h₃.stats.peak = 2 ∧
      h₃.stringList.length = 1 := by
  intro h₁ h₂ h₃
  have hnoString : ∀ t, h₂ ≠ (h₁.allocate (.string t)).2 := by
    intro t heq
    have hget : h₂.get? 1 = some (.upvalue (.onStack 0)) := by rfl
    rw [heq, get?_allocate] at hget
    cases hget
  have hpast : History Tabled .standard h₃ [h₂, h₁, new .standard] :=
    ((History.new.next (tabled_intern _ _)).next ⟨.allocate _ _, hnoString⟩).next
      ((Operation.collect _ _).tabled rfl)
  have haccounted := statistics_exact (hpast.mono fun _ _ hstep => hstep.1)
  have hbytes : h₃.bytes = 79 := by decide +kernel
  have hcount : h₃.stats.objects = 1 := by decide +kernel
  have hinterned : h₃.stats.interned = 1 := by decide +kernel
  exact ⟨hpast, hbytes, haccounted.difference ▸ hbytes, haccounted.objects ▸ hcount,
    haccounted.peak_attained, by decide +kernel, haccounted.strings hpast ▸ hinterned⟩

/-- A string that is put on a new heap past the table is not counted. -/
theorem statistics_of_string_past_table :
    let h := ((new .standard).allocate (.string "a")).2
    History Operation .standard h [new .standard] ∧ h.stringList.length = 1 ∧
      h.strings.size = 0 ∧ h.stats.interned = 0 :=
  ⟨History.new.next (.allocate _ _), by decide +kernel, by decide +kernel, by decide +kernel⟩

end Heap

end Lox
