import Mathlib.Tactic.Common
import Lox.Proofs.Heap.Renaming
import Lox.Machine.Run

/-!
# Machines that differ by a renaming

`Machine.Renamed ρ m m'` says that two machines are in the same state, except that an object has
one identity in the first and another in the second, as `ρ` relates them, and that their heaps may
hold other objects besides.  Their heaps may also have different thresholds and statistics, so that
a collection may be due in one of them and not in the other.

`Machine.Corresponds C S ρ m m'` says the same up to a comparison.  Code is the same if it counts as
the same.  Values in the slots below `C.low` are not compared, and calls whose slots begin there may
even be at different places of different code, if `S` pairs these (`Machine.renamed_iff`).

The relation is symmetric (`Corresponds.flip`).  A collection in the first machine keeps it
(`Corresponds.collect`), because everything that the relation speaks of is reachable from the roots.
By symmetry a collection in the second machine keeps it as well.
-/

namespace Lox

/-! ## Lists with the same structure -/

section Lists

variable {α β : Type} {R : α → β → Prop} {l : List α} {l' : List β}

/-- Related lists are cut at the same place. -/
lemma forall₂_span {p : α → Bool} {q : β → Bool} (h : List.Forall₂ R l l')
    (hpq : ∀ a b, R a b → p a = q b) :
    List.Forall₂ R (l.takeWhile p) (l'.takeWhile q) ∧
      List.Forall₂ R (l.dropWhile p) (l'.dropWhile q) := by
  induction h with
  | nil => exact ⟨.nil, .nil⟩
  | @cons a b l l' hab htail ih =>
    rw [List.takeWhile_cons, List.takeWhile_cons, List.dropWhile_cons, List.dropWhile_cons,
      ← hpq a b hab]
    cases p a with
    | true => exact ⟨.cons hab ih.1, ih.2⟩
    | false => exact ⟨.nil, .cons hab htail⟩

lemma forall₂_getElem? (h : List.Forall₂ R l l') (i : Nat) :
    (l[i]? = none ∧ l'[i]? = none) ∨ ∃ a b, l[i]? = some a ∧ l'[i]? = some b ∧ R a b := by
  induction h generalizing i with
  | nil => exact .inl ⟨rfl, rfl⟩
  | @cons a b l l' hab _ ih =>
    cases i with
    | zero => exact .inr ⟨a, b, rfl, rfl, hab⟩
    | succ i => exact ih i

lemma forall₂_replicate {a : α} {b : β} (hab : R a b) (n : Nat) :
    List.Forall₂ R (List.replicate n a) (List.replicate n b) := by
  induction n with
  | zero => exact .nil
  | succ n ih => exact .cons hab ih

/-- Related elements are all that two related lists have. -/
lemma forall₂_restrict {S : α → β → Prop} (h : List.Forall₂ R l l')
    (hRS : ∀ a ∈ l, ∀ b, R a b → S a b) : List.Forall₂ S l l' := by
  induction h with
  | nil => exact .nil
  | @cons a b l l' hab _ ih =>
    exact .cons (hRS a (by simp) b hab) (ih fun a ha => hRS a (by simp [ha]))

lemma forall₂_mem_right (h : List.Forall₂ R l l') {b : β} (hb : b ∈ l') : ∃ a ∈ l, R a b := by
  induction h with
  | nil => cases hb
  | @cons a b' l l' hab _ ih =>
    rcases List.mem_cons.1 hb with rfl | hb
    · exact ⟨a, by simp, hab⟩
    · obtain ⟨a', ha', hR⟩ := ih hb
      exact ⟨a', by simp [ha'], hR⟩

end Lists

/-! ## Calls, captured variables, globals -/

/-- The same call up to the identity of its closure. -/
structure Frame.Renamed (ρ : Renaming) (f f' : Frame) : Prop where
  closure : ρ f.closure f'.closure
  name : f'.name = f.name
  chunk : f'.chunk = f.chunk
  ip : f'.ip = f.ip
  base : f'.base = f.base

/-- Which places in code may be paired, each a chunk and an offset. -/
abbrev Pairing := Chunk → Nat → Chunk → Nat → Prop

/-- The pairing seen from the other side. -/
def Pairing.flip (S : Pairing) : Pairing :=
  fun w' o' w o => S w o w' o'

/-- Two calls stand at the same place of code that counts as the same, or at places that are
paired. -/
structure Frame.Placed (C : Comparison) (S : Pairing) (f f' : Frame) : Prop where
  base : f'.base = f.base
  above : C.low ≤ f.base → C.Code f.chunk f'.chunk ∧ f'.ip = f.ip ∧ f'.name = f.name
  below : f.base < C.low → S f.chunk f.ip f'.chunk f'.ip

/-- The same call up to the identity of its closure and up to its code. -/
structure Frame.Corresponds (C : Comparison) (S : Pairing) (ρ : Renaming) (f f' : Frame) : Prop
    extends Placed C S f f' where
  closure : C.low ≤ f.base → ρ f.closure f'.closure

lemma Frame.renamed_iff {S : Pairing} {ρ : Renaming} {f f' : Frame} :
    f.Renamed ρ f' ↔ f.Corresponds .same S ρ f' := by
  constructor
  · rintro ⟨hclosure, hname, hchunk, hip, hbase⟩
    exact ⟨⟨hbase, fun _ => ⟨hchunk.symm, hip, hname⟩, fun h => absurd h (Nat.not_lt_zero _)⟩,
      fun _ => hclosure⟩
  · rintro ⟨⟨hbase, habove, -⟩, hclosure⟩
    obtain ⟨hchunk, hip, hname⟩ := habove (Nat.zero_le _)
    exact ⟨hclosure (Nat.zero_le _), hname, Eq.symm hchunk, hip, hbase⟩

namespace Frame.Corresponds

variable {C : Comparison} {S : Pairing} {ρ σ : Renaming} {f f' : Frame}

lemma mono (h : f.Corresponds C S ρ f') (hle : ρ.Le σ) : f.Corresponds C S σ f' :=
  { h with closure := fun hlow => hle _ _ (h.closure hlow) }

lemma flip (h : f.Corresponds C S ρ f') : f'.Corresponds C S.flip ρ.flip f where
  base := h.base.symm
  above := by
    rw [h.base]
    intro hlow
    obtain ⟨hchunk, hip, hname⟩ := h.above hlow
    exact ⟨C.symm hchunk, hip.symm, hname.symm⟩
  below := by
    rw [h.base]
    exact h.below
  closure := by
    rw [h.base]
    exact h.closure

end Frame.Corresponds

/-- The same slot, and corresponding upvalues. -/
structure OpenUpvalue.Renamed (ρ : Renaming) (u u' : OpenUpvalue) : Prop where
  slot : u'.slot = u.slot
  id : ρ u.id u'.id

/-- Corresponding names have corresponding values. -/
structure GlobalsRenamed (ρ : Renaming) (g g' : Std.TreeMap ObjectId Value) : Prop where
  left : ∀ {i : ObjectId} {v : Value}, g[i]? = some v →
    ∃ j v', ρ i j ∧ g'[j]? = some v' ∧ v.Renamed ρ v'
  right : ∀ {j : ObjectId} {v' : Value}, g'[j]? = some v' →
    ∃ i v, ρ i j ∧ g[i]? = some v ∧ v.Renamed ρ v'

namespace GlobalsRenamed

variable {ρ σ : Renaming} {g g' : Std.TreeMap ObjectId Value}

lemma mono (h : GlobalsRenamed ρ g g') (hle : ρ.Le σ) : GlobalsRenamed σ g g' where
  left := by
    intro i v hv
    obtain ⟨j, v', hij, hv', hren⟩ := h.left hv
    exact ⟨j, v', hle i j hij, hv', hren.mono hle⟩
  right := by
    intro j v' hv'
    obtain ⟨i, v, hij, hv, hren⟩ := h.right hv'
    exact ⟨i, v, hle i j hij, hv, hren.mono hle⟩

lemma flip (h : GlobalsRenamed ρ g g') : GlobalsRenamed ρ.flip g' g where
  left := by
    intro j v' hv'
    obtain ⟨i, v, hij, hv, hren⟩ := h.right hv'
    exact ⟨i, v, hij, hv, hren.flip⟩
  right := by
    intro i v hv
    obtain ⟨j, v', hij, hv', hren⟩ := h.left hv
    exact ⟨j, v', hij, hv', hren.flip⟩

lemma restrict {P : ObjectId → Prop} (h : GlobalsRenamed ρ g g')
    (hP : ∀ {i : ObjectId} {v : Value}, g[i]? = some v → P i ∧ ∀ k ∈ v.reference?, P k) :
    GlobalsRenamed (ρ.restrict P) g g' where
  left := by
    intro i v hv
    obtain ⟨j, v', hij, hv', hren⟩ := h.left hv
    exact ⟨j, v', ⟨hij, (hP hv).1⟩, hv', hren.restrict (hP hv).2⟩
  right := by
    intro j v' hv'
    obtain ⟨i, v, hij, hv, hren⟩ := h.right hv'
    exact ⟨i, v, ⟨hij, (hP hv).1⟩, hv, hren.restrict (hP hv).2⟩

/-- Corresponding names are both defined or both not. -/
lemma getElem? {C : Comparison} {h h' : Heap} {i j : ObjectId} (hg : GlobalsRenamed ρ g g')
    (hr : h.Corresponds C ρ h')
    (hij : ρ i j) :
    (g[i]? = none ∧ g'[j]? = none) ∨
      ∃ v v', g[i]? = some v ∧ g'[j]? = some v' ∧ v.Renamed ρ v' := by
  cases hv : g[i]? with
  | some v =>
    obtain ⟨j', v', hij', hv', hren⟩ := hg.left hv
    obtain rfl := hr.functional hij hij'
    exact .inr ⟨v, v', rfl, hv', hren⟩
  | none =>
    cases hv' : g'[j]? with
    | none => exact .inl ⟨rfl, rfl⟩
    | some v' =>
      obtain ⟨i', v, hij', hv'', -⟩ := hg.right hv'
      obtain rfl := hr.injective hij hij'
      rw [hv] at hv''
      cases hv''

lemma insert {C : Comparison} {h h' : Heap} {i j : ObjectId} {v v' : Value}
    (hg : GlobalsRenamed ρ g g') (hr : h.Corresponds C ρ h') (hij : ρ i j) (hren : v.Renamed ρ v') :
    GlobalsRenamed ρ (g.insert i v) (g'.insert j v') where
  left := by
    intro k w hw
    rw [Std.TreeMap.getElem?_insert] at hw
    split at hw
    · rename_i hik
      rw [Std.compare_eq_iff_eq] at hik
      subst hik
      cases hw
      exact ⟨j, v', hij, by simp, hren⟩
    · rename_i hne
      rw [Std.compare_eq_iff_eq] at hne
      obtain ⟨l, w', hkl, hw', hwren⟩ := hg.left hw
      refine ⟨l, w', hkl, ?_, hwren⟩
      have hjl : j ≠ l := by
        rintro rfl
        exact hne (hr.injective hij hkl)
      rw [Std.TreeMap.getElem?_insert, if_neg (by rwa [Std.compare_eq_iff_eq]), hw']
  right := by
    intro l w' hw'
    rw [Std.TreeMap.getElem?_insert] at hw'
    split at hw'
    · rename_i hjl
      rw [Std.compare_eq_iff_eq] at hjl
      subst hjl
      cases hw'
      exact ⟨i, v, hij, by simp, hren⟩
    · rename_i hne
      rw [Std.compare_eq_iff_eq] at hne
      obtain ⟨k, w, hkl, hw, hwren⟩ := hg.right hw'
      refine ⟨k, w, hkl, ?_, hwren⟩
      have hik : i ≠ k := by
        rintro rfl
        exact hne (hr.functional hij hkl)
      rw [Std.TreeMap.getElem?_insert, if_neg (by rwa [Std.compare_eq_iff_eq]), hw]

end GlobalsRenamed

/-! ## Machines -/

/-- The same state up to identities, and up to what the heaps hold besides. -/
structure Machine.Renamed (ρ : Renaming) (m m' : Machine) : Prop where
  config : m'.config = { m.config with heap := m'.config.heap }
  heap : m.heap.Renamed ρ m'.heap
  stack : List.Forall₂ (Value.Renamed ρ) m.stack.toList m'.stack.toList
  frames : List.Forall₂ (Frame.Renamed ρ) m.frames.toList m'.frames.toList
  opened : List.Forall₂ (OpenUpvalue.Renamed ρ) m.openUpvalues m'.openUpvalues
  upvalues : ∀ u ∈ m.openUpvalues, ∃ x, m.heap.get? u.id = some (.upvalue x)
  globals : GlobalsRenamed ρ m.globals m'.globals
  printed : m'.printed = m.printed
  traced : m'.traced = m.traced
  clock : m'.clock = m.clock

/-- The same state up to identities and up to a comparison, and up to what the heaps hold besides. -/
structure Machine.Corresponds (C : Comparison) (S : Pairing) (ρ : Renaming) (m m' : Machine) : Prop where
  config : m'.config = { m.config with heap := m'.config.heap }
  heap : m.heap.Corresponds C ρ m'.heap
  size : m'.stack.size = m.stack.size
  slots : ∀ i, C.low ≤ i → Option.Rel (Value.Renamed ρ) m.stack[i]? m'.stack[i]?
  frames : List.Forall₂ (Frame.Corresponds C S ρ) m.frames.toList m'.frames.toList
  opened : List.Forall₂ (OpenUpvalue.Renamed ρ) m.openUpvalues m'.openUpvalues
  upvalues : ∀ u ∈ m.openUpvalues, C.low ≤ u.slot ∧ ∃ x, m.heap.get? u.id = some (.upvalue x)
  globals : GlobalsRenamed ρ m.globals m'.globals
  printed : m'.printed = m.printed
  traced : C.low = 0 → m'.traced = m.traced
  clock : m'.clock = m.clock

/-- Lists are related if their elements are, one by one. -/
lemma forall₂_iff_getElem? {α β : Type} {R : α → β → Prop} {l : List α} {l' : List β} :
    List.Forall₂ R l l' ↔ ∀ i : Nat, Option.Rel R l[i]? l'[i]? := by
  constructor
  · intro h i
    rcases forall₂_getElem? h i with ⟨hnone, hnone'⟩ | ⟨a, b, ha, hb, hab⟩
    · rw [hnone, hnone']
      exact .none
    · rw [ha, hb]
      exact .some hab
  · intro h
    induction l generalizing l' with
    | nil =>
      cases l' with
      | nil => exact .nil
      | cons b l' => exact nomatch h 0
    | cons a l ih =>
      cases l' with
      | nil => exact nomatch h 0
      | cons b l' =>
        have hhead := h 0
        rw [List.getElem?_cons_zero, List.getElem?_cons_zero] at hhead
        cases hhead with
        | some hab => exact .cons hab (ih fun i => h (i + 1))

lemma Machine.renamed_iff {S : Pairing} {ρ : Renaming} {m m' : Machine} :
    m.Renamed ρ m' ↔ m.Corresponds .same S ρ m' := by
  have hslots : List.Forall₂ (Value.Renamed ρ) m.stack.toList m'.stack.toList ↔
      ∀ i, Comparison.same.low ≤ i → Option.Rel (Value.Renamed ρ) m.stack[i]? m'.stack[i]? := by
    rw [forall₂_iff_getElem?]
    simp only [Array.getElem?_toList]
    exact ⟨fun h i _ => h i, fun h i => h i (Nat.zero_le i)⟩
  have hframes : List.Forall₂ (Frame.Renamed ρ) m.frames.toList m'.frames.toList ↔
      List.Forall₂ (Frame.Corresponds .same S ρ) m.frames.toList m'.frames.toList :=
    ⟨fun h => h.imp fun _ _ => Frame.renamed_iff.1, fun h => h.imp fun _ _ => Frame.renamed_iff.2⟩
  constructor
  · intro h
    exact ⟨h.config, Heap.renamed_iff.1 h.heap, h.stack.length_eq.symm, hslots.1 h.stack,
      hframes.1 h.frames, h.opened, fun u hu => ⟨Nat.zero_le _, h.upvalues u hu⟩, h.globals, h.printed,
      fun _ => h.traced, h.clock⟩
  · intro h
    exact ⟨h.config, Heap.renamed_iff.2 h.heap, hslots.2 h.slots, hframes.2 h.frames, h.opened,
      fun u hu => (h.upvalues u hu).2, h.globals, h.printed, h.traced rfl, h.clock⟩

namespace Machine.Corresponds

variable {C : Comparison} {S : Pairing} {ρ σ : Renaming} {m m' : Machine}

lemma maxStack (hr : m.Corresponds C S ρ m') : m'.config.maxStack = m.config.maxStack := by
  rw [hr.config]

lemma maxCalls (hr : m.Corresponds C S ρ m') : m'.config.maxCalls = m.config.maxCalls := by
  rw [hr.config]

lemma trace (hr : m.Corresponds C S ρ m') : m'.config.trace = m.config.trace := by
  rw [hr.config]

lemma frames_size (hr : m.Corresponds C S ρ m') : m'.frames.size = m.frames.size :=
  hr.frames.length_eq.symm

lemma flip (hr : m.Corresponds C S ρ m') : m'.Corresponds C S.flip ρ.flip m where
  config := by rw [hr.config]
  heap := hr.heap.flip
  size := hr.size.symm
  slots := fun i hi => optionRel_symm (hr.slots i hi) fun _ _ h => h.flip
  frames := hr.frames.flip.imp fun _ _ h => h.flip
  opened := hr.opened.flip.imp fun _ _ h => ⟨h.slot.symm, h.id⟩
  upvalues := by
    intro u' hu'
    obtain ⟨u, hu, hren⟩ := forall₂_mem_right hr.opened hu'
    obtain ⟨hlow, x, hx⟩ := hr.upvalues u hu
    obtain ⟨o, o', ho, ho', hobject⟩ := hr.heap.objects hren.id
    rw [hx, Option.some.injEq] at ho
    obtain ⟨x', rfl⟩ := hobject.isUpvalue ⟨x, ho.symm⟩
    exact ⟨hren.slot ▸ hlow, x', ho'⟩
  globals := hr.globals.flip
  printed := hr.printed.symm
  traced := fun hlow => (hr.traced hlow).symm
  clock := hr.clock.symm

/-- Both heaps have grown. -/
lemma of_heap {h h' : Heap} (hr : m.Corresponds C S ρ m') (hle : ρ.Le σ) (hheap : h.Corresponds C σ h')
    (hkept : ∀ u ∈ m.openUpvalues, ∃ x, h.get? u.id = some (.upvalue x)) :
    Machine.Corresponds C S σ { m with heap := h } { m' with heap := h' } where
  config := hr.config
  heap := hheap
  size := hr.size
  slots := fun i hi => optionRel_mono (hr.slots i hi) fun _ _ h => h.mono hle
  frames := hr.frames.imp fun _ _ h => h.mono hle
  opened := hr.opened.imp fun _ _ h => ⟨h.slot, hle _ _ h.id⟩
  upvalues := fun u hu => ⟨(hr.upvalues u hu).1, hkept u hu⟩
  globals := hr.globals.mono hle
  printed := hr.printed
  traced := hr.traced
  clock := hr.clock

lemma intern (hr : m.Corresponds C S ρ m') (t : Text) :
    Machine.Corresponds C S (ρ.add (m.heap.intern t).1 (m'.heap.intern t).1)
      { m with heap := (m.heap.intern t).2 } { m' with heap := (m'.heap.intern t).2 } := by
  refine hr.of_heap (ρ.le_add _ _) (hr.heap.intern t) fun u hu => ?_
  obtain ⟨-, x, hx⟩ := hr.upvalues u hu
  exact ⟨x, hr.heap.valid.get?_intern_of_some hx⟩

lemma allocate (hr : m.Corresponds C S ρ m') {o o' : Object} (hren : o.Corresponds C ρ o')
    (hstring : ∀ t, o ≠ .string t) :
    Machine.Corresponds C S (ρ.add m.heap.fresh m'.heap.fresh)
      { m with heap := (m.heap.allocate o).2 } { m' with heap := (m'.heap.allocate o').2 } := by
  refine hr.of_heap (ρ.le_add _ _) (hr.heap.allocate hren hstring) fun u hu => ?_
  obtain ⟨-, x, hx⟩ := hr.upvalues u hu
  refine ⟨x, ?_⟩
  rw [Heap.get?_allocate, if_neg (Nat.ne_of_lt (hr.heap.valid.below hx)), hx]

/-! ### Collections -/

/-- A collection in the first machine.  What it frees, the renaming need not speak of. -/
lemma collect (hr : m.Corresponds C S ρ m') : ∃ σ, m.collect.Corresponds C S σ m' := by
  have hroot : ∀ {i : ObjectId}, i ∈ m.roots → Heap.Reachable m.heap m.roots i := .root
  have hstack : ∀ {i : Nat} {v : Value}, m.stack[i]? = some v → ∀ k ∈ v.reference?, k ∈ m.roots := by
    intro i v hv k hk
    simp only [roots, List.mem_append, List.mem_filterMap]
    exact .inl (.inl (.inl ⟨v, Array.mem_toList_iff.2 (Array.mem_of_getElem? hv), hk⟩))
  have hframes : ∀ f ∈ m.frames.toList, f.closure ∈ m.roots := by
    intro f hf
    simp only [roots, List.mem_append, List.mem_map]
    exact .inl (.inl (.inr ⟨f, hf, rfl⟩))
  have hopened : ∀ u ∈ m.openUpvalues, u.id ∈ m.roots := by
    intro u hu
    simp only [roots, List.mem_append, List.mem_map]
    exact .inl (.inr ⟨u, hu, rfl⟩)
  have hglobals : ∀ {i : ObjectId} {v : Value}, m.globals[i]? = some v →
      i ∈ m.roots ∧ ∀ k ∈ v.reference?, k ∈ m.roots := by
    intro i v hv
    have hmem : (i, v) ∈ m.globals.toList := Std.TreeMap.mem_toList_iff_getElem?_eq_some.2 hv
    refine ⟨List.mem_append_right _ (List.mem_flatMap.2 ⟨(i, v), hmem, by simp⟩), fun k hk => ?_⟩
    refine List.mem_append_right _ (List.mem_flatMap.2 ⟨(i, v), hmem, ?_⟩)
    exact List.mem_cons_of_mem _ (Option.mem_toList.2 hk)
  refine ⟨ρ.restrict (Heap.Reachable m.heap m.roots), ?_⟩
  exact
    { hr with
      heap := hr.heap.collect m.roots
      slots := fun i hi => optionRel_restrict (hr.slots i hi) fun _ hv _ h =>
        h.restrict fun k hk => hroot (hstack hv k hk)
      frames := forall₂_restrict hr.frames fun f hf _ h =>
        { h with closure := fun hlow => ⟨h.closure hlow, hroot (hframes f hf)⟩ }
      opened := forall₂_restrict hr.opened fun u hu _ h =>
        ⟨h.slot, h.id, hroot (hopened u hu)⟩
      upvalues := by
        intro u hu
        obtain ⟨hlow, x, hx⟩ := hr.upvalues u hu
        exact ⟨hlow, x, hr.heap.valid.get?_collect_eq_some.2 ⟨hroot (hopened u hu), hx⟩⟩
      globals := hr.globals.restrict fun hv =>
        ⟨hroot (hglobals hv).1, fun k hk => hroot ((hglobals hv).2 k hk)⟩ }

lemma collect_right (hr : m.Corresponds C S ρ m') : ∃ σ, m.Corresponds C S σ m'.collect := by
  obtain ⟨σ, hσ⟩ := hr.flip.collect
  exact ⟨σ.flip, hσ.flip⟩

/-- A collection in the first machine, if its heap finds it due. -/
lemma collectIfDue_left (hr : m.Corresponds C S ρ m') : ∃ σ, m.collectIfDue.Corresponds C S σ m' := by
  rw [Machine.collectIfDue]
  split
  · exact hr.collect
  · exact ⟨ρ, hr⟩

/-- Each machine collects if its own heap finds it due. -/
lemma collectIfDue (hr : m.Corresponds C S ρ m') :
    ∃ σ, m.collectIfDue.Corresponds C S σ m'.collectIfDue := by
  obtain ⟨σ, hσ⟩ := hr.collectIfDue_left
  rw [Machine.collectIfDue.eq_1 m']
  split
  · exact hσ.collect_right
  · exact ⟨σ, hσ⟩

end Machine.Corresponds

end Lox
