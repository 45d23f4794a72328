import Mathlib.Data.UInt
import Mathlib.Order.MinMax
import Lox.Proofs.Heap.Exactness

/-!
# A collection buys room

A collection sets when the next one is due: above a multiple of the bytes that are left, or above the
threshold if that is more.  So after a collection the heap has room, and none is due again before
something is allocated (`Heap.collect_buys_room`).

The multiple is a machine word, though, and wraps at `2 ^ 64`.  A large growth can make it less than the
bytes that it is a multiple of, and then a collection is due again at once (`Heap.collect_buys_no_room`).
-/

namespace Lox

/-- So many bytes are no more than the threshold, or the multiple of them at which the next collection
is due does not wrap. -/
def HeapConfig.Schedules (config : HeapConfig) (bytes : Nat) : Prop :=
  bytes ≤ config.threshold.toNat ∨ bytes * max 1 config.growth.toNat < 2 ^ 64

lemma HeapConfig.Schedules.mono {config : HeapConfig} {n k : Nat} (h : config.Schedules n)
    (hle : k ≤ n) : config.Schedules k :=
  h.imp (Nat.le_trans hle) (Nat.lt_of_le_of_lt (Nat.mul_le_mul_right _ hle))

namespace Heap

variable {config : HeapConfig} {h h' : Heap} {roots : List ObjectId}

/-! ## The configuration -/

lemma growth_new (config : HeapConfig) :
    (new config).config.growth.toNat = max 1 config.growth.toNat := by
  show (if config.growth = 0 then (1 : UInt64) else config.growth).toNat = _
  by_cases hzero : config.growth = 0
  · rw [if_pos hzero, hzero]
    rfl
  · have hpos : 0 < config.growth.toNat := by
      rw [Nat.pos_iff_ne_zero]
      exact fun hnat => hzero (UInt64.toNat_inj.1 hnat)
    rw [if_neg hzero, Nat.max_eq_right hpos]

lemma config_mark (h : Heap) (id : ObjectId) : (h.mark id).config = h.config := by
  rcases mark_cases h id with ⟨heq, -⟩ | ⟨c, -, -, heq⟩
  · rw [heq]
  · rw [heq]

lemma config_markAll (h : Heap) (ids : List ObjectId) : (h.markAll ids).config = h.config := by
  induction ids generalizing h with
  | nil => rfl
  | cons id ids ih => exact (ih (h.mark id)).trans (config_mark h id)

lemma config_traceReferences (bound : Nat) (h : Heap) :
    (traceReferences bound h).config = h.config := by
  induction bound generalizing h with
  | zero => rfl
  | succ bound ih =>
    rw [traceReferences]
    split
    · rfl
    · exact (ih _).trans (config_markAll _ _)

lemma config_collect (h : Heap) (roots : List ObjectId) : (h.collect roots).config = h.config :=
  (config_traceReferences _ _).trans (config_markAll h roots)

/-- No operation changes the configuration. -/
lemma Operation.config_eq (hop : Operation h h') : h'.config = h.config := by
  cases hop with
  | intern t =>
    rw [Heap.intern]
    split
    · rfl
    · rfl
  | allocate o => rfl
  | assign u' hget => rfl
  | setUpvalue id place u =>
    rw [Heap.setUpvalue]
    split
    · rfl
    · rfl
  | collect roots => exact config_collect h roots
  | collectIfDue roots =>
    rw [Heap.collectIfDue]
    split
    · exact config_collect h roots
    · rfl

lemma config_of_operations (hops : Relation.ReflTransGen Operation (new config) h) :
    h.config = (new config).config := by
  induction hops with
  | refl => rfl
  | tail _ hop ih => exact hop.config_eq.trans ih

/-! ## What a collection schedules -/

lemma AtRest.bytes_collect_le (hr : h.AtRest) (roots : List ObjectId) :
    (h.collect roots).bytes ≤ h.bytes := by
  obtain ⟨done, hm, -, -⟩ := hr.marked_iff roots
  rw [← hm.books.bytes]
  exact Nat.sub_le _ _

/-- The next collection is due at a multiple of what is left, as a machine word. -/
lemma toNat_dueAt_collect (hconfig : h.config = (new config).config) (roots : List ObjectId) :
    (h.collect roots).dueAt.toNat = max config.threshold.toNat
      ((h.collect roots).bytes * max 1 config.growth.toNat % 2 ^ 64) := by
  have hdue : (h.collect roots).dueAt = max (h.collect roots).config.threshold
    ((h.collect roots).bytes.toUInt64 * (h.collect roots).config.growth) := rfl
  have hmax : ∀ a b : UInt64, (max a b).toNat = max a.toNat b.toNat := by
    intro a b
    rw [UInt64.max_def, Nat.max_def, apply_ite UInt64.toNat]
    simp only [UInt64.le_iff_toNat_le]
  have hbytes : (h.collect roots).bytes.toUInt64.toNat = (h.collect roots).bytes % 2 ^ 64 :=
    UInt64.toNat_ofNat'
  rw [hdue, config_collect, hconfig, hmax, UInt64.toNat_mul, growth_new, hbytes, Nat.mod_mul_mod]
  rfl

lemma isDue_eq_false (hstress : h.config.stress = false) :
    h.isDue = false ↔ h.bytes ≤ h.dueAt.toNat := by
  rw [isDue, hstress, Bool.false_or, decide_eq_false_iff_not, Nat.not_lt]

/-- To collect if need be is to do nothing where there is no need. -/
lemma collectIfDue_eq_self (hstress : h.config.stress = false) (roots : List ObjectId) :
    h.collectIfDue roots = (false, h) ↔ h.bytes ≤ h.dueAt.toNat := by
  rw [← isDue_eq_false hstress, collectIfDue]
  cases h.isDue with
  | true => simp
  | false => simp

/-! ## Until something is allocated -/

/-- An operation that allocates nothing: no new identity is given out. -/
def Frugal (h h' : Heap) : Prop :=
  Operation h h' ∧ h'.fresh = h.fresh

/-- The heap has room, and will have after its next collection. -/
structure Roomy (config : HeapConfig) (h : Heap) : Prop where
  config_eq : h.config = (new config).config
  schedules : config.Schedules h.bytes
  room : h.bytes ≤ h.dueAt.toNat

lemma roomy_collect (hconfig : h.config = (new config).config)
    (hschedules : config.Schedules (h.collect roots).bytes) : Roomy config (h.collect roots) := by
  refine ⟨(config_collect h roots).trans hconfig, hschedules, ?_⟩
  rw [toNat_dueAt_collect hconfig roots]
  rcases hschedules with hbelow | hfits
  · exact Nat.le_trans hbelow (Nat.le_max_left _ _)
  · rw [Nat.mod_eq_of_lt hfits]
    refine Nat.le_trans ?_ (Nat.le_max_right _ _)
    exact Nat.le_mul_of_pos_right _ (Nat.le_max_left 1 _)

/-- What allocates nothing leaves room. -/
lemma Roomy.frugal (hroomy : Roomy config h) (hr : h.AtRest) (hstep : Frugal h h') :
    Roomy config h' := by
  obtain ⟨hop, hfresh⟩ := hstep
  have hcollect : ∀ roots, Roomy config (h.collect roots) := fun roots =>
    roomy_collect hroomy.config_eq (hroomy.schedules.mono (hr.bytes_collect_le roots))
  cases hop with
  | intern t =>
    rcases Valid.intern_eq (h := h) t with ⟨id, -, heq⟩ | ⟨-, -, hnext, -⟩
    · rw [heq]
      exact hroomy
    · rw [hnext] at hfresh
      exact absurd hfresh (Nat.succ_ne_self _)
  | allocate o => exact absurd hfresh (Nat.succ_ne_self _)
  | assign u' hget => exact ⟨hroomy.config_eq, hroomy.schedules, hroomy.room⟩
  | setUpvalue id place u =>
    rw [Heap.setUpvalue]
    split
    · exact ⟨hroomy.config_eq, hroomy.schedules, hroomy.room⟩
    · exact hroomy
  | collect roots => exact hcollect roots
  | collectIfDue roots =>
    rw [Heap.collectIfDue]
    split
    · exact hcollect roots
    · exact hroomy

/-- There is room as long as nothing is allocated. -/
lemma Roomy.frugal_run (hroomy : Roomy config h) (hr : h.AtRest)
    (hsteps : Relation.ReflTransGen Frugal h h') : Roomy config h' ∧ h'.AtRest := by
  induction hsteps with
  | refl => exact ⟨hroomy, hr⟩
  | tail _ hstep ih => exact ⟨ih.1.frugal ih.2 hstep, ih.2.operation hstep.1⟩

/-! ## Main result -/

/-- **A collection buys room.**  Without stress, right after a collection the bytes that are left are
no more than those above which the next one is due, and so none is due, unless they are more than the
threshold and their multiple wraps and comes out smaller.

If they are no more than the threshold, or their multiple does not wrap, there is room until something
is allocated, whatever else is done and however often it is collected. -/
theorem collect_buys_room (hstress : config.stress = false)
    (hops : Relation.ReflTransGen Operation (new config) h) (roots : List ObjectId) :
    let left := (h.collect roots).bytes
    (left ≤ (h.collect roots).dueAt.toNat ↔ left ≤ config.threshold.toNat ∨
      left ≤ left * max 1 config.growth.toNat % 2 ^ 64) ∧
    (∀ roots', (h.collect roots).collectIfDue roots' = (false, h.collect roots) ↔
      left ≤ (h.collect roots).dueAt.toNat) ∧
    (left ≤ config.threshold.toNat ∨ left * max 1 config.growth.toNat < 2 ^ 64 →
      ∀ h', Relation.ReflTransGen Frugal (h.collect roots) h' →
        h'.bytes ≤ h'.dueAt.toNat ∧ ∀ roots', h'.collectIfDue roots' = (false, h')) := by
  intro left
  have hconfig := config_of_operations hops
  have hr := atRest_of_operations hops
  have hcalm : ∀ {x : Heap}, x.config = (new config).config → x.config.stress = false :=
    fun hx => (congrArg HeapConfig.stress hx).trans hstress
  refine ⟨?exactly, fun roots' => ?due, fun hschedules h' hsteps => ?room⟩
  case exactly => rw [toNat_dueAt_collect hconfig roots, le_max_iff]
  case due => exact collectIfDue_eq_self (hcalm ((config_collect h roots).trans hconfig)) roots'
  case room =>
    obtain ⟨hroomy, -⟩ := (roomy_collect hconfig hschedules).frugal_run (hr.collect roots) hsteps
    have hidle := collectIfDue_eq_self (hcalm hroomy.config_eq)
    exact ⟨hroomy.room, fun roots' => (hidle roots').2 hroomy.room⟩

/-- A string that is larger than the threshold stays and is interned again, and there is room. -/
theorem collect_buys_room_interned :
    let config : HeapConfig := ⟨16, 2, false⟩
    let h := ((new config).intern "kept").2
    let h' := ((h.collect [0]).intern "kept").2
    Relation.ReflTransGen Operation (new config) h ∧
      Relation.ReflTransGen Frugal (h.collect [0]) h' ∧ h'.bytes = 79 ∧ h'.dueAt = 158 ∧
      h'.bytes ≤ h'.dueAt.toNat ∧ h'.collectIfDue [] = (false, h') := by
  intro config h h'
  have hops : Relation.ReflTransGen Operation (new config) h := .single (.intern _ _)
  have hsteps : Relation.ReflTransGen Frugal (h.collect [0]) h' :=
    .single ⟨.intern _ _, by decide +kernel⟩
  obtain ⟨-, -, hroom⟩ := collect_buys_room rfl hops [0]
  obtain ⟨hle, hidle⟩ := hroom (.inr (by decide +kernel)) h' hsteps
  exact ⟨hops, hsteps, by decide +kernel, by decide +kernel, hle, hidle []⟩

/-- The multiple can wrap.  With a growth of `2 ^ 61` and 72 bytes left, the next collection is due above
`72 * 2 ^ 61 = 9 * 2 ^ 64` bytes, that is, above none. -/
theorem collect_buys_no_room :
    let config : HeapConfig := ⟨0, 2 ^ 61, false⟩
    let h := ((new config).allocate (.upvalue (.onStack 0))).2
    Relation.ReflTransGen Operation (new config) h ∧ (h.collect [0]).bytes = 72 ∧
      (h.collect [0]).dueAt = 0 ∧ ((h.collect [0]).collectIfDue [0]).1 = true := by
  intro config h
  exact ⟨.single (.allocate _ _), by decide +kernel, by decide +kernel, by decide +kernel⟩

end Heap

end Lox
