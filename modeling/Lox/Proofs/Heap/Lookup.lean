import Mathlib.Tactic.Common
import Lox.Heap.Collect

/-!
# What is on the heap

Each operation on the heap is described by what it does to `Heap.get?`: an allocation adds an
object under a new identity, an update changes one object in place, and interning does nothing or
allocates.

`Heap.AtRest` is what every operation keeps between collections: identities are below the next
one, nothing is marked, and the table of strings lists strings on the heap.  `Heap.Valid` adds
that it lists all of them, which holds where strings are made by interning only, and makes the
equality of strings an equality of identities.
-/

namespace Lox.Heap

/-! ## Allocating and updating -/

lemma get?_eq_some {h : Heap} {id : ObjectId} {o : Object} :
    h.get? id = some o ↔ ∃ c, h.cells[id]? = some c ∧ c.object = o := by
  simp [get?]

@[simp] lemma get?_allocate (h : Heap) (o : Object) (id : ObjectId) :
    (h.allocate o).2.get? id = if id = h.fresh then some o else h.get? id := by
  simp only [get?, allocate, Std.TreeMap.getElem?_insert, Std.compare_eq_iff_eq]
  by_cases heq : id = h.fresh
  · simp [heq]
  · simp [heq, Ne.symm heq]

@[simp] lemma fst_allocate (h : Heap) (o : Object) : (h.allocate o).1 = h.fresh := rfl

@[simp] lemma fresh_allocate (h : Heap) (o : Object) : (h.allocate o).2.fresh = h.fresh + 1 := rfl

@[simp] lemma strings_allocate (h : Heap) (o : Object) :
    (h.allocate o).2.strings = h.strings := rfl

@[simp] lemma get?_update (h : Heap) (id : ObjectId) (o : Object) (id' : ObjectId) :
    (h.update id o).get? id' = if id' = id then (h.get? id).map fun _ => o else h.get? id' := by
  simp only [get?, update, Std.TreeMap.getElem?_modify, Std.compare_eq_iff_eq]
  by_cases heq : id' = id
  · subst heq
    simp [Function.comp_def]
  · simp [heq, Ne.symm heq]

@[simp] lemma fresh_update (h : Heap) (id : ObjectId) (o : Object) :
    (h.update id o).fresh = h.fresh := rfl

@[simp] lemma strings_update (h : Heap) (id : ObjectId) (o : Object) :
    (h.update id o).strings = h.strings := rfl

@[simp] lemma get?_closeUpvalue (h : Heap) (id : ObjectId) (v : Value) (id' : ObjectId) :
    (h.closeUpvalue id v).get? id' =
      if id' = id then (h.get? id).map fun _ => .upvalue (.closed v) else h.get? id' :=
  get?_update h id _ id'

/-- A closure gets one of its captured variables; nothing else changes. -/
lemma get?_setUpvalue (h : Heap) (id : ObjectId) (place : Nat) (u : Option ObjectId)
    (id' : ObjectId) :
    (h.setUpvalue id place u).get? id' =
      if id' = id then (h.get? id).map fun
        | .closure f ups => .closure f (ups.setIfInBounds place u)
        | o => o
      else h.get? id' := by
  rw [setUpvalue]
  split
  · rename_i f ups hget
    rw [get?_update, hget]
    rfl
  · rename_i hother
    by_cases heq : id' = id
    · subst heq
      cases hget : h.get? id' with
      | none => simp
      | some o =>
        cases o with
        | closure f ups => exact absurd hget (hother f ups)
        | _ => simp
    · simp [heq]

lemma fresh_setUpvalue (h : Heap) (id : ObjectId) (place : Nat) (u : Option ObjectId) :
    (h.setUpvalue id place u).fresh = h.fresh := by
  rw [setUpvalue]
  split <;> rfl

/-! ## Heaps at rest -/

/-- What holds of a heap between collections. -/
structure AtRest (h : Heap) : Prop where
  below : ∀ {id : ObjectId} {o : Object}, h.get? id = some o → id < h.fresh
  unmarked : ∀ {id : ObjectId} {c : Cell}, h.cells[id]? = some c → c.marked = false
  gray : h.gray = []
  listed : ∀ {t : Text} {id : ObjectId}, h.strings[t]? = some id → h.get? id = some (.string t)

/-- A heap at rest whose strings are all in the table. -/
structure Valid (h : Heap) : Prop extends AtRest h where
  tabled : ∀ {t : Text} {id : ObjectId}, h.get? id = some (.string t) → h.strings[t]? = some id

lemma Valid.interned {h : Heap} (hv : h.Valid) {t : Text} {id : ObjectId} :
    h.strings[t]? = some id ↔ h.get? id = some (.string t) :=
  ⟨hv.listed, hv.tabled⟩

lemma valid_new (config : HeapConfig) : (Heap.new config).Valid where
  below := by simp [Heap.new, get?]
  unmarked := by simp [Heap.new]
  gray := rfl
  listed := by simp [Heap.new]
  tabled := by simp [Heap.new, get?]

/-- Interning allocates at most one string. -/
lemma Valid.intern_eq {h : Heap} (t : Text) :
    (∃ id, h.strings[t]? = some id ∧ h.intern t = (id, h)) ∨
      (h.strings[t]? = none ∧ (h.intern t).1 = h.fresh ∧
        (h.intern t).2.fresh = h.fresh + 1 ∧
        (h.intern t).2.strings = h.strings.insert t h.fresh ∧
        (h.intern t).2.cells = (h.allocate (.string t)).2.cells ∧
        (h.intern t).2.gray = h.gray) := by
  rw [intern]
  split
  · rename_i id hid
    exact .inl ⟨id, hid, rfl⟩
  · rename_i hnone
    exact .inr ⟨hnone, rfl, rfl, rfl, rfl, rfl⟩

namespace AtRest

/-- The next identity is free. -/
lemma get?_fresh {h : Heap} (hr : h.AtRest) : h.get? h.fresh = none := by
  cases hget : h.get? h.fresh with
  | none => rfl
  | some o => exact absurd (hr.below hget) (Nat.lt_irrefl _)

lemma allocate {h : Heap} (hr : h.AtRest) (o : Object) : (h.allocate o).2.AtRest where
  below := by
    intro id o' hget
    rw [get?_allocate] at hget
    split at hget
    · simp_all
    · exact Nat.lt_succ_of_lt (hr.below hget)
  unmarked := by
    intro id c hcell
    simp only [Heap.allocate, Std.TreeMap.getElem?_insert] at hcell
    split at hcell
    · cases hcell
      rfl
    · exact hr.unmarked hcell
  gray := hr.gray
  listed := by
    intro t id hlisted
    have hget := hr.listed hlisted
    rwa [get?_allocate, if_neg (Nat.ne_of_lt (hr.below hget))]

lemma intern {h : Heap} (hr : h.AtRest) (t : Text) : (h.intern t).2.AtRest := by
  rcases Valid.intern_eq (h := h) t with ⟨id, -, heq⟩ | ⟨-, -, hfresh, hstrings, hcells, hgray⟩
  · rw [heq]
    exact hr
  · have hallocated := hr.allocate (.string t)
    have hget : ∀ id, (h.intern t).2.get? id = (h.allocate (.string t)).2.get? id := by
      intro id
      rw [get?, get?, hcells]
    refine ⟨fun hid => ?_, fun hcell => ?_, hgray ▸ hr.gray, fun {t' id} hlisted => ?_⟩
    · rw [hfresh]
      exact hallocated.below (hget _ ▸ hid)
    · rw [hcells] at hcell
      exact hallocated.unmarked hcell
    · rw [hget]
      rw [hstrings, Std.TreeMap.getElem?_insert] at hlisted
      split at hlisted
      · rename_i heq
        rw [Std.compare_eq_iff_eq] at heq
        cases hlisted
        simp [heq]
      · exact hallocated.listed hlisted

/-- Objects that are not strings may change in place. -/
lemma update {h : Heap} (hr : h.AtRest) {id : ObjectId} {o : Object}
    (hold : ∀ t, h.get? id ≠ some (.string t)) : (h.update id o).AtRest where
  below := by
    intro id' o' hget
    rw [get?_update] at hget
    rw [fresh_update]
    split at hget
    · rename_i heq
      obtain ⟨o'', hget', -⟩ := Option.map_eq_some_iff.1 hget
      exact heq ▸ hr.below hget'
    · exact hr.below hget
  unmarked := by
    intro id' c hcell
    simp only [Heap.update, Std.TreeMap.getElem?_modify] at hcell
    split at hcell
    · obtain ⟨c', hcell', rfl⟩ := Option.map_eq_some_iff.1 hcell
      have hmarked := hr.unmarked hcell'
      exact hmarked
    · exact hr.unmarked hcell
  gray := hr.gray
  listed := by
    intro t id' hlisted
    have hget := hr.listed hlisted
    rw [get?_update, if_neg]
    · exact hget
    · rintro rfl
      exact hold t hget

end AtRest

/-! ## Valid heaps -/

namespace Valid

lemma allocate {h : Heap} (hv : h.Valid) {o : Object} (ho : ∀ t, o ≠ .string t) :
    (h.allocate o).2.Valid where
  toAtRest := hv.toAtRest.allocate o
  tabled := by
    intro t id hget
    rw [get?_allocate] at hget
    split at hget
    · cases hget
      exact absurd rfl (ho t)
    · exact hv.tabled hget

/-- The string that interning gives. -/
lemma get?_intern {h : Heap} (hv : h.Valid) (t : Text) :
    (h.intern t).2.get? (h.intern t).1 = some (.string t) := by
  rw [Heap.intern]
  split
  · rename_i id hid
    exact hv.interned.1 hid
  · change (h.allocate _).2.get? h.fresh = _
    simp

lemma intern {h : Heap} (hv : h.Valid) (t : Text) : (h.intern t).2.Valid where
  toAtRest := hv.toAtRest.intern t
  tabled := by
    intro t' id hget
    rcases intern_eq (h := h) t with ⟨_, -, heq⟩ | ⟨hnone, -, -, hstrings, hcells, -⟩
    · rw [heq] at hget ⊢
      exact hv.tabled hget
    · rw [get?, hcells] at hget
      change (h.allocate _).2.get? id = _ at hget
      rw [get?_allocate] at hget
      rw [hstrings, Std.TreeMap.getElem?_insert]
      split at hget
      · rename_i heq
        cases hget
        simp [heq]
      · -- The text was not in the table, so it is not that of an older string.
        have htabled := hv.tabled hget
        rw [if_neg]
        · exact htabled
        · rintro heq
          rw [Std.compare_eq_iff_eq] at heq
          rw [← heq, hnone] at htabled
          cases htabled

/-- Interning leaves the objects as they are. -/
lemma get?_intern_of_some {h : Heap} (hv : h.Valid) {t : Text} {id : ObjectId} {o : Object}
    (hget : h.get? id = some o) : (h.intern t).2.get? id = some o := by
  rcases intern_eq (h := h) t with ⟨_, -, heq⟩ | ⟨-, -, -, -, hcells, -⟩
  · rw [heq]
    exact hget
  · have hallocated : (h.allocate (.string t)).2.get? id = some o := by
      rw [get?_allocate, if_neg (Nat.ne_of_lt (hv.below hget)), hget]
    rwa [Heap.get?, hcells]

/-- There is one string with a text. -/
lemma string_unique {h : Heap} (hv : h.Valid) {t : Text} {id id' : ObjectId}
    (hget : h.get? id = some (.string t)) (hget' : h.get? id' = some (.string t)) : id = id' := by
  rw [← hv.interned] at hget hget'
  rw [hget, Option.some.injEq] at hget'
  exact hget'

/-- Objects that are not strings may change in place. -/
lemma update {h : Heap} (hv : h.Valid) {id : ObjectId} {o : Object}
    (hold : ∀ t, h.get? id ≠ some (.string t)) (ho : ∀ t, o ≠ .string t) :
    (h.update id o).Valid where
  toAtRest := hv.toAtRest.update hold
  tabled := by
    intro t id' hget
    rw [get?_update] at hget
    split at hget
    · obtain ⟨_, -, hsame⟩ := Option.map_eq_some_iff.1 hget
      exact absurd hsame (ho t)
    · exact hv.tabled hget

end Valid

end Lox.Heap
