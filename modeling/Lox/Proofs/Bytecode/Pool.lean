import Mathlib.Tactic.Common
import Lox.Bytecode.Pool

/-!
# Pools

Adding an item to a pool keeps the items there are, and the place it gives is the place of the
item.  That place is looked up in the index, so the index has to be right (`Pool.Indexed`).  An
index that is also complete keeps the items apart (`Pool.Distinct`).
-/

namespace Lox.Pool

variable {α : Type} [Ord α]

/-- Adding to a pool keeps the items there are. -/
lemma items_add (p : Pool α) (a : α) : p.items.toList <+: (p.add a).2.items.toList := by
  rw [add]
  split
  · exact List.prefix_refl _
  · simp [push]

/-- Items keep their places when others are added behind them. -/
lemma get?_of_prefix {p q : Pool α} (h : p.items.toList <+: q.items.toList) {k : Nat} {a : α}
    (ha : p.get? k = some a) : q.get? k = some a := by
  unfold get? at ha ⊢
  rw [← Array.getElem?_toList] at ha ⊢
  obtain ⟨rest, hrest⟩ := h
  rw [← hrest, List.getElem?_append_left (List.getElem?_eq_some_iff.1 ha).1]
  exact ha

/-- Every item of the index is where the index says. -/
def Indexed (p : Pool α) : Prop :=
  ∀ a i, p.index[a]? = some i → p.get? i = some a

variable [Std.TransOrd α]

lemma indexed_empty : (empty : Pool α).Indexed := by
  intro a i h
  simp [empty] at h

variable [Std.LawfulEqOrd α]

lemma Indexed.push {p : Pool α} (h : p.Indexed) (a : α) : (p.push a).Indexed := by
  intro b i hb
  simp only [Pool.push, Std.TreeMap.getElem?_insertIfNew] at hb
  simp only [get?, Pool.push, Array.getElem?_push]
  split at hb
  · rename_i hnew
    cases hb
    simp [Std.compare_eq_iff_eq.1 hnew.1]
  · have hold := h b i hb
    have hne : i ≠ p.items.size := by
      rintro rfl
      simp [get?] at hold
    simpa [hne, get?] using hold

lemma Indexed.add {p : Pool α} (h : p.Indexed) (a : α) : (p.add a).2.Indexed := by
  rw [Pool.add]
  split
  · exact h
  · exact h.push a

omit [Std.TransOrd α] [Std.LawfulEqOrd α] in
/-- An added item is at its place. -/
lemma get?_add {p : Pool α} (h : p.Indexed) (a : α) : (p.add a).2.get? (p.add a).1 = some a := by
  rw [add]
  split
  · rename_i place hplace
    exact h a place hplace
  · simp [get?, push]

omit [Std.TransOrd α] [Std.LawfulEqOrd α] in
lemma add_lt {p : Pool α} (h : p.Indexed) (a : α) : (p.add a).1 < (p.add a).2.size := by
  have hget := get?_add h a
  rw [get?] at hget
  exact (Array.getElem?_eq_some_iff.1 hget).1

/-! ## Distinct items -/

/-- No item is there twice, and the index has them all. -/
structure Distinct (p : Pool α) : Prop where
  nodup : p.items.toList.Nodup
  complete : ∀ a ∈ p.items, a ∈ p.index

omit [Std.TransOrd α] [Std.LawfulEqOrd α] in
lemma distinct_empty : (empty : Pool α).Distinct where
  nodup := by simp [empty]
  complete := by simp [empty]

lemma Distinct.add {p : Pool α} (h : p.Distinct) (a : α) : (p.add a).2.Distinct := by
  rw [Pool.add]
  split
  · exact h
  · rename_i hnone
    have hnew : a ∉ p.items := by
      intro ha
      have hindex := Std.TreeMap.mem_iff_isSome_getElem?.1 (h.complete a ha)
      simp [hnone] at hindex
    constructor
    · have hdisjoint : ∀ b ∈ p.items.toList, b ≠ a := by
        rintro b hb rfl
        exact hnew (Array.mem_toList_iff.1 hb)
      simpa [push, List.nodup_append] using ⟨h.nodup, by simpa using hdisjoint⟩
    · intro b hb
      simp only [push, Array.mem_push] at hb
      simp only [push, Std.TreeMap.mem_insertIfNew, Std.compare_eq_iff_eq]
      rcases hb with hb | rfl
      · exact .inr (h.complete b hb)
      · exact .inl rfl

end Lox.Pool
