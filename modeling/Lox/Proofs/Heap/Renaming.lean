import Mathlib.Data.List.Forall2
import Lox.Proofs.Bytecode.Likeness
import Lox.Proofs.Heap.Collection

/-!
# Heaps that differ by a renaming

Two runs of one program allocate the same objects but may give them different identities, because
one of them may have to allocate a string anew that the other still has.  A `Renaming` relates the
identities of the one to those of the other.  `Heap.Renamed` says that related objects are the
same except for the identities in them.

`Heap.Corresponds` is more general: it also leaves open which code counts as the same, and which slots
of the stack a captured variable may be in (`Comparison`).  The lemmas are about this relation, and
`Heap.renamed_iff` says that it has the other as a case.

What the language can see of a value does not change under a renaming: its printed form, its type
name, its truth, and whether it is equal to another value.  Allocations in both heaps extend the
renaming by one pair.  Interning does so too, and this is where the string table matters: the pair
may have been there before, or only one heap may have had the string.  A collection in one of the
heaps restricts the renaming to what is reachable.
-/

namespace Lox

/-- Which identity in one heap corresponds to which in another. -/
abbrev Renaming := ObjectId → ObjectId → Prop

namespace Renaming

/-- The second renaming has all pairs of the first. -/
def Le (ρ σ : Renaming) : Prop :=
  ∀ i j, ρ i j → σ i j

lemma Le.refl (ρ : Renaming) : ρ.Le ρ := fun _ _ h => h

lemma Le.trans {ρ σ τ : Renaming} (h : ρ.Le σ) (h' : σ.Le τ) : ρ.Le τ :=
  fun i j hij => h' i j (h i j hij)

/-- One more pair. -/
def add (ρ : Renaming) (i j : ObjectId) : Renaming :=
  fun a b => ρ a b ∨ (a = i ∧ b = j)

lemma le_add (ρ : Renaming) (i j : ObjectId) : ρ.Le (ρ.add i j) := fun _ _ => .inl

lemma add_self (ρ : Renaming) (i j : ObjectId) : ρ.add i j i j := .inr ⟨rfl, rfl⟩

/-- The pairs whose first identity satisfies `P`. -/
def restrict (ρ : Renaming) (P : ObjectId → Prop) : Renaming :=
  fun i j => ρ i j ∧ P i

/-- The renaming from the second heap to the first. -/
def flip (ρ : Renaming) : Renaming :=
  fun j i => ρ i j

end Renaming

/-- Related lists stay related when related elements are put at one place of both. -/
lemma forall₂_set {α β : Type} {R : α → β → Prop} {l : List α} {l' : List β} {a : α} {b : β}
    (h : List.Forall₂ R l l') (hab : R a b) (i : Nat) :
    List.Forall₂ R (l.set i a) (l'.set i b) := by
  induction h generalizing i with
  | nil => exact .nil
  | cons hhead htail ih =>
    cases i with
    | zero => exact .cons hab htail
    | succ i => exact .cons hhead (ih i)

/-! ## References -/

/-- Both are unset, or both are set and correspond. -/
inductive ReferenceRenamed (ρ : Renaming) : Option ObjectId → Option ObjectId → Prop
  | none : ReferenceRenamed ρ none none
  | some {i j : ObjectId} : ρ i j → ReferenceRenamed ρ (some i) (some j)

namespace ReferenceRenamed

variable {ρ σ : Renaming} {r s : Option ObjectId}

lemma mono (h : ReferenceRenamed ρ r s) (hle : ρ.Le σ) : ReferenceRenamed σ r s := by
  cases h with
  | none => exact .none
  | some hij => exact .some (hle _ _ hij)

lemma flip (h : ReferenceRenamed ρ r s) : ReferenceRenamed ρ.flip s r := by
  cases h with
  | none => exact .none
  | some hij => exact .some hij

lemma restrict {P : ObjectId → Prop} (h : ReferenceRenamed ρ r s) (hP : ∀ i ∈ r, P i) :
    ReferenceRenamed (ρ.restrict P) r s := by
  cases h with
  | none => exact .none
  | some hij => exact .some ⟨hij, hP _ rfl⟩

end ReferenceRenamed

/-! ## Values and objects -/

/-- The same value up to identities. -/
inductive Value.Renamed (ρ : Renaming) : Value → Value → Prop
  | nil : Renamed ρ .nil .nil
  | bool (b : Bool) : Renamed ρ (.bool b) (.bool b)
  | number (x : Float) : Renamed ρ (.number x) (.number x)
  | object {r s : Option ObjectId} : ReferenceRenamed ρ r s → Renamed ρ (.object r) (.object s)

namespace Value.Renamed

variable {ρ σ : Renaming} {v w : Value}

lemma mono (h : v.Renamed ρ w) (hle : ρ.Le σ) : v.Renamed σ w := by
  cases h with
  | nil => exact .nil
  | bool b => exact .bool b
  | number x => exact .number x
  | object h => exact .object (h.mono hle)

lemma flip (h : v.Renamed ρ w) : w.Renamed ρ.flip v := by
  cases h with
  | nil => exact .nil
  | bool b => exact .bool b
  | number x => exact .number x
  | object h => exact .object h.flip

lemma restrict {P : ObjectId → Prop} (h : v.Renamed ρ w) (hP : ∀ i ∈ v.reference?, P i) :
    v.Renamed (ρ.restrict P) w := by
  cases h with
  | nil => exact .nil
  | bool b => exact .bool b
  | number x => exact .number x
  | object h => exact .object (h.restrict hP)

lemma reference? (h : v.Renamed ρ w) : ReferenceRenamed ρ v.reference? w.reference? := by
  cases h with
  | nil => exact .none
  | bool b => exact .none
  | number x => exact .none
  | object h => exact h

lemma isFalsey_eq (h : v.Renamed ρ w) : v.isFalsey = w.isFalsey := by
  cases h <;> rfl

end Value.Renamed

/-- The same object up to the identities it refers to. -/
inductive Object.Renamed (ρ : Renaming) : Object → Object → Prop
  | string (t : Text) : Renamed ρ (.string t) (.string t)
  | function (f : FunctionObject) : Renamed ρ (.function f) (.function f)
  | native (n : NativeObject) : Renamed ρ (.native n) (.native n)
  | closure {made made' : Option ObjectId} {us us' : Array (Option ObjectId)} :
      ReferenceRenamed ρ made made' →
      List.Forall₂ (ReferenceRenamed ρ) us.toList us'.toList →
      Renamed ρ (.closure made us) (.closure made' us')
  | onStack (slot : Nat) : Renamed ρ (.upvalue (.onStack slot)) (.upvalue (.onStack slot))
  | closed {v v' : Value} : v.Renamed ρ v' →
      Renamed ρ (.upvalue (.closed v)) (.upvalue (.closed v'))

/-- How the machines of two runs are compared: which code counts as the same, and from which slot on
the values on the stack are to be the same. -/
structure Comparison extends Likeness where
  low : Nat

/-- The same code, and the same values in all slots. -/
def Comparison.same : Comparison :=
  { Likeness.same with low := 0 }

/-- The same object up to the identities it refers to, and with code that counts as the same. -/
inductive Object.Corresponds (C : Comparison) (ρ : Renaming) : Object → Object → Prop
  | string (t : Text) : Corresponds C ρ (.string t) (.string t)
  | function {f f' : FunctionObject} : f.Like C.Code f' →
      Corresponds C ρ (.function f) (.function f')
  | native (n : NativeObject) : Corresponds C ρ (.native n) (.native n)
  | closure {made made' : Option ObjectId} {us us' : Array (Option ObjectId)} :
      ReferenceRenamed ρ made made' →
      List.Forall₂ (ReferenceRenamed ρ) us.toList us'.toList →
      Corresponds C ρ (.closure made us) (.closure made' us')
  | onStack {slot : Nat} : C.low ≤ slot →
      Corresponds C ρ (.upvalue (.onStack slot)) (.upvalue (.onStack slot))
  | closed {v v' : Value} : v.Renamed ρ v' →
      Corresponds C ρ (.upvalue (.closed v)) (.upvalue (.closed v'))

lemma Object.renamed_iff {ρ : Renaming} {o o' : Object} : o.Renamed ρ o' ↔ o.Corresponds .same ρ o' := by
  constructor
  · rintro (t | f | n | ⟨hmade, hus⟩ | slot | hv)
    · exact .string t
    · exact .function (FunctionObject.like_eq.2 rfl)
    · exact .native n
    · exact .closure hmade hus
    · exact .onStack (Nat.zero_le slot)
    · exact .closed hv
  · rintro (t | hf | n | ⟨hmade, hus⟩ | hslot | hv)
    · exact .string t
    · rw [FunctionObject.like_eq.1 hf]
      exact .function _
    · exact .native n
    · exact .closure hmade hus
    · exact .onStack _
    · exact .closed hv

namespace Object.Corresponds

variable {C : Comparison} {ρ σ : Renaming} {o o' : Object}

lemma mono (h : o.Corresponds C ρ o') (hle : ρ.Le σ) : o.Corresponds C σ o' := by
  cases h with
  | string t => exact .string t
  | function hf => exact .function hf
  | native n => exact .native n
  | closure hmade hus => exact .closure (hmade.mono hle) (hus.imp fun _ _ h => h.mono hle)
  | onStack hslot => exact .onStack hslot
  | closed hv => exact .closed (hv.mono hle)

lemma flip (h : o.Corresponds C ρ o') : o'.Corresponds C ρ.flip o := by
  cases h with
  | string t => exact .string t
  | function hf => exact .function (hf.symm C.symm)
  | native n => exact .native n
  | closure hmade hus => exact .closure hmade.flip (hus.flip.imp fun _ _ h => h.flip)
  | onStack hslot => exact .onStack hslot
  | closed hv => exact .closed hv.flip

lemma restrict {P : ObjectId → Prop} (h : o.Corresponds C ρ o') (hP : ∀ i ∈ o.references, P i) :
    o.Corresponds C (ρ.restrict P) o' := by
  cases h with
  | string t => exact .string t
  | function hf => exact .function hf
  | native n => exact .native n
  | @closure made made' us us' hmade hus =>
    simp only [references, List.mem_append, Option.mem_toList, List.mem_filterMap, id] at hP
    refine .closure (hmade.restrict fun i hi => hP i (.inl hi)) ?_
    have hall : ∀ u ∈ us.toList, ∀ i ∈ u, P i := fun u hu i hi => hP i (.inr ⟨u, hu, hi⟩)
    generalize us.toList = l, us'.toList = l' at hus hall
    induction hus with
    | nil => exact .nil
    | cons hu _ ih =>
      obtain ⟨hhead, htail⟩ := List.forall_mem_cons.1 hall
      exact .cons (hu.restrict hhead) (ih htail)
  | onStack hslot => exact .onStack hslot
  | closed hv =>
    exact .closed (hv.restrict fun i hi => hP i (by simpa [references] using hi))

lemma kind_eq (h : o.Corresponds C ρ o') : o.kind = o'.kind := by
  cases h <;> rfl

lemma eq_string (h : o.Corresponds C ρ o') {t : Text} : o = .string t ↔ o' = .string t := by
  cases h <;> simp

lemma isUpvalue (h : o.Corresponds C ρ o') : (∃ u, o = .upvalue u) → ∃ u, o' = .upvalue u := by
  rintro ⟨u, rfl⟩
  cases h with
  | onStack hslot => exact ⟨_, rfl⟩
  | closed hv => exact ⟨_, rfl⟩

end Object.Corresponds

/-! ## Heaps -/

/-- The related objects of two heaps are the same up to identities. -/
structure Heap.Renamed (ρ : Renaming) (h h' : Heap) : Prop where
  objects : ∀ {i j : ObjectId}, ρ i j →
    ∃ o o', h.get? i = some o ∧ h'.get? j = some o' ∧ o.Renamed ρ o'
  functional : ∀ {i j j' : ObjectId}, ρ i j → ρ i j' → j = j'
  injective : ∀ {i i' j : ObjectId}, ρ i j → ρ i' j → i = i'
  valid : h.Valid
  valid' : h'.Valid

/-- The related objects of two heaps correspond. -/
structure Heap.Corresponds (C : Comparison) (ρ : Renaming) (h h' : Heap) : Prop where
  objects : ∀ {i j : ObjectId}, ρ i j →
    ∃ o o', h.get? i = some o ∧ h'.get? j = some o' ∧ o.Corresponds C ρ o'
  functional : ∀ {i j j' : ObjectId}, ρ i j → ρ i j' → j = j'
  injective : ∀ {i i' j : ObjectId}, ρ i j → ρ i' j → i = i'
  valid : h.Valid
  valid' : h'.Valid

lemma Heap.renamed_iff {ρ : Renaming} {h h' : Heap} : h.Renamed ρ h' ↔ h.Corresponds .same ρ h' := by
  constructor
  · rintro ⟨hobjects, hfunctional, hinjective, hvalid, hvalid'⟩
    refine ⟨fun hij => ?_, hfunctional, hinjective, hvalid, hvalid'⟩
    obtain ⟨o, o', ho, ho', hren⟩ := hobjects hij
    exact ⟨o, o', ho, ho', Object.renamed_iff.1 hren⟩
  · rintro ⟨hobjects, hfunctional, hinjective, hvalid, hvalid'⟩
    refine ⟨fun hij => ?_, hfunctional, hinjective, hvalid, hvalid'⟩
    obtain ⟨o, o', ho, ho', hren⟩ := hobjects hij
    exact ⟨o, o', ho, ho', Object.renamed_iff.2 hren⟩

namespace Heap.Corresponds

variable {C : Comparison} {ρ : Renaming} {h h' : Heap} {v v' w w' : Value}

lemma flip (hr : h.Corresponds C ρ h') : h'.Corresponds C ρ.flip h where
  objects := by
    intro j i hij
    obtain ⟨o, o', ho, ho', hren⟩ := hr.objects hij
    exact ⟨o', o, ho', ho, hren.flip⟩
  functional := fun hij hij' => hr.injective hij hij'
  injective := fun hij hij' => hr.functional hij hij'
  valid := hr.valid'
  valid' := hr.valid

/-! ### What the language sees -/

/-- Related references lead to related objects, or to none. -/
lemma get? (hr : h.Corresponds C ρ h') {r r' : Option ObjectId} (href : ReferenceRenamed ρ r r') :
    (r.bind h.get? = none ∧ r'.bind h'.get? = none) ∨
      ∃ o o', r.bind h.get? = some o ∧ r'.bind h'.get? = some o' ∧ o.Corresponds C ρ o' := by
  cases href with
  | none => exact .inl ⟨rfl, rfl⟩
  | some hij => exact .inr (hr.objects hij)

/-- Related closures have been made from functions that count as the same. -/
lemma function? (hr : h.Corresponds C ρ h') {r r' : Option ObjectId}
    (href : ReferenceRenamed ρ r r') :
    Option.Rel (FunctionObject.Like C.Code) (h.function? r) (h'.function? r') := by
  rw [Heap.function?, Heap.function?]
  rcases hr.get? href with ⟨hnone, hnone'⟩ | ⟨o, o', ho, ho', hren⟩
  · rw [hnone, hnone']
    exact .none
  · rw [ho, ho']
    cases hren with
    | function hf => exact .some hf
    | _ => exact .none

lemma string?_eq (hr : h.Corresponds C ρ h') (hv : v.Renamed ρ v') : h.string? v = h'.string? v' := by
  rw [string?, string?, deref?, deref?]
  rcases hr.get? hv.reference? with ⟨hnone, hnone'⟩ | ⟨o, o', ho, ho', hren⟩
  · rw [hnone, hnone']
  · rw [ho, ho']
    cases hren <;> rfl

lemma objectText_eq (hr : h.Corresponds C ρ h') {o o' : Object} (hren : o.Corresponds C ρ o') :
    h.objectText o = h'.objectText o' := by
  have htext : ∀ {f f' : FunctionObject}, f.Like C.Code f' → f.toText = f'.toText := by
    intro f f' hf
    rw [FunctionObject.toText, FunctionObject.toText, hf.name]
  cases hren with
  | function hf => exact htext hf
  | closure hmade hus =>
    have hf := hr.function? hmade
    rw [objectText, objectText]
    generalize h.function? _ = a, h'.function? _ = b at hf
    cases hf with
    | none => rfl
    | some hf => exact htext hf
  | _ => rfl

lemma valueText_eq (hr : h.Corresponds C ρ h') (hv : v.Renamed ρ v') :
    h.valueText v = h'.valueText v' := by
  cases hv with
  | nil => rfl
  | bool b => rfl
  | number x => rfl
  | @object r r' href =>
    simp only [valueText, deref?, Value.reference?]
    rcases hr.get? href with ⟨hnone, hnone'⟩ | ⟨o, o', ho, ho', hren⟩
    · rw [hnone, hnone']
    · rw [ho, ho']
      exact hr.objectText_eq hren

lemma typeName_eq (hr : h.Corresponds C ρ h') (hv : v.Renamed ρ v') :
    h.typeName v = h'.typeName v' := by
  cases hv with
  | nil => rfl
  | bool b => rfl
  | number x => rfl
  | @object r r' href =>
    simp only [typeName, deref?, Value.reference?]
    rcases hr.get? href with ⟨hnone, hnone'⟩ | ⟨o, o', ho, ho', hren⟩
    · rw [hnone, hnone']
    · rw [ho, ho']
      exact congrArg ObjectKind.typeName hren.kind_eq

/-- Equality is an equality of identities, which a renaming respects because it is one to one. -/
lemma equals_eq (hr : h.Corresponds C ρ h') (hv : v.Renamed ρ v') (hw : w.Renamed ρ w') :
    v.equals w = v'.equals w' := by
  cases hv with
  | nil => cases hw <;> rfl
  | bool b => cases hw <;> rfl
  | number x => cases hw <;> rfl
  | object hv =>
    cases hw with
    | nil => rfl
    | bool b => rfl
    | number x => rfl
    | object hw =>
      cases hv with
      | none => cases hw <;> rfl
      | @some i j hij =>
        cases hw with
        | none => rfl
        | @some i' j' hij' =>
          have hiff : i = i' ↔ j = j' := by
            constructor
            · rintro rfl
              exact hr.functional hij hij'
            · rintro rfl
              exact hr.injective hij hij'
          simp only [Value.equals, beq_eq_decide, Option.some.injEq, hiff]

/-! ### What the machine does to both heaps -/

/-- Objects were added to both heaps, and two of them correspond from now on. -/
lemma add {k k' : Heap} {i j : ObjectId} {o o' : Object} (hr : h.Corresponds C ρ h') (hk : k.Valid)
    (hk' : k'.Valid) (hkept : ∀ {id : ObjectId} {o : Object}, h.get? id = some o → k.get? id = some o)
    (hkept' : ∀ {id : ObjectId} {o : Object}, h'.get? id = some o → k'.get? id = some o)
    (ho : k.get? i = some o) (ho' : k'.get? j = some o') (hren : o.Corresponds C (ρ.add i j) o')
    (hi : ∀ j', ρ i j' → j' = j) (hj : ∀ i', ρ i' j → i' = i) : k.Corresponds C (ρ.add i j) k' where
  objects := by
    rintro a b (hab | ⟨rfl, rfl⟩)
    · obtain ⟨p, p', hp, hp', hpren⟩ := hr.objects hab
      exact ⟨p, p', hkept hp, hkept' hp', hpren.mono (ρ.le_add i j)⟩
    · exact ⟨o, o', ho, ho', hren⟩
  functional := by
    rintro a b b' (hab | ⟨rfl, rfl⟩) (hab' | ⟨ha, rfl⟩)
    · exact hr.functional hab hab'
    · subst ha
      exact hi b hab
    · exact (hi b' hab').symm
    · rfl
  injective := by
    rintro a a' b (hab | ⟨rfl, rfl⟩) (hab' | ⟨rfl, hb⟩)
    · exact hr.injective hab hab'
    · subst hb
      exact hj a hab
    · exact (hj a' hab').symm
    · rfl
  valid := hk
  valid' := hk'

lemma allocate (hr : h.Corresponds C ρ h') {o o' : Object} (hren : o.Corresponds C ρ o')
    (hstring : ∀ t, o ≠ .string t) :
    (h.allocate o).2.Corresponds C (ρ.add h.fresh h'.fresh) (h'.allocate o').2 := by
  have hstring' : ∀ t, o' ≠ .string t := fun t ht => hstring t (hren.eq_string.2 ht)
  have ho : (h.allocate o).2.get? h.fresh = some o := by simp
  have ho' : (h'.allocate o').2.get? h'.fresh = some o' := by simp
  refine hr.add (hr.valid.allocate hstring) (hr.valid'.allocate hstring') (fun {id p} hp => ?_)
    (fun {id p} hp => ?_) ho ho' (hren.mono (ρ.le_add _ _)) (fun j hj => ?_) fun i hi => ?_
  · rw [get?_allocate, if_neg (Nat.ne_of_lt (hr.valid.below hp)), hp]
  · rw [get?_allocate, if_neg (Nat.ne_of_lt (hr.valid'.below hp)), hp]
  · obtain ⟨p, -, hp, -⟩ := hr.objects hj
    rw [hr.valid.get?_fresh] at hp
    cases hp
  · obtain ⟨-, p, -, hp, -⟩ := hr.objects hi
    rw [hr.valid'.get?_fresh] at hp
    cases hp

/-- The one string with a text in the one heap corresponds to the one in the other, wherever it
was there before. -/
lemma intern (hr : h.Corresponds C ρ h') (t : Text) :
    (h.intern t).2.Corresponds C (ρ.add (h.intern t).1 (h'.intern t).1) (h'.intern t).2 := by
  have hvalid := hr.valid.intern t
  have hvalid' := hr.valid'.intern t
  have hget := hr.valid.get?_intern t
  have hget' := hr.valid'.get?_intern t
  refine hr.add hvalid hvalid' hr.valid.get?_intern_of_some hr.valid'.get?_intern_of_some hget hget'
    (.string t) (fun j hj => ?_) fun i hi => ?_
  · obtain ⟨o, o', ho, ho', hren⟩ := hr.objects hj
    rw [hr.valid.get?_intern_of_some ho, Option.some.injEq, hren.eq_string] at hget
    subst hget
    exact hvalid'.string_unique (hr.valid'.get?_intern_of_some ho') hget'
  · obtain ⟨o, o', ho, ho', hren⟩ := hr.objects hi
    rw [hr.valid'.get?_intern_of_some ho', Option.some.injEq, ← hren.eq_string] at hget'
    subst hget'
    exact hvalid.string_unique (hr.valid.get?_intern_of_some ho) hget

/-- Corresponding objects, which are not strings, are replaced. -/
lemma update (hr : h.Corresponds C ρ h') {i j : ObjectId} (hij : ρ i j) {o o' : Object}
    (hren : o.Corresponds C ρ o') (hold : ∀ t, h.get? i ≠ some (.string t))
    (hstring : ∀ t, o ≠ .string t) : (h.update i o).Corresponds C ρ (h'.update j o') where
  objects := by
    intro a b hab
    obtain ⟨p, p', hp, hp', hpren⟩ := hr.objects hab
    rw [get?_update, get?_update]
    by_cases ha : a = i
    · subst ha
      obtain rfl := hr.functional hab hij
      exact ⟨o, o', by simp [hp], by simp [hp'], hren⟩
    · have hb : b ≠ j := by
        rintro rfl
        exact ha (hr.injective hab hij)
      exact ⟨p, p', by simp [ha, hp], by simp [hb, hp'], hpren⟩
  functional := hr.functional
  injective := hr.injective
  valid := hr.valid.update hold hstring
  valid' := by
    obtain ⟨p, p', hp, hp', hpren⟩ := hr.objects hij
    refine hr.valid'.update (fun t ht => hold t ?_) fun t ht => hstring t (hren.eq_string.2 ht)
    rw [hp', Option.some.injEq, ← hpren.eq_string] at ht
    rw [hp, ht]

/-- A captured variable gets a value of its own in both heaps. -/
lemma closeUpvalue (hr : h.Corresponds C ρ h') {i j : ObjectId} (hij : ρ i j)
    (hupvalue : ∃ u, h.get? i = some (.upvalue u)) (hv : v.Renamed ρ v') :
    (h.closeUpvalue i v).Corresponds C ρ (h'.closeUpvalue j v') := by
  obtain ⟨u, hu⟩ := hupvalue
  exact hr.update hij (.closed hv) (by simp [hu]) (by simp)

lemma setUpvalue (hr : h.Corresponds C ρ h') {i j : ObjectId} (hij : ρ i j) (place : Nat)
    {u u' : Option ObjectId} (hu : ReferenceRenamed ρ u u') :
    (h.setUpvalue i place u).Corresponds C ρ (h'.setUpvalue j place u') := by
  obtain ⟨o, o', ho, ho', hren⟩ := hr.objects hij
  rw [Heap.setUpvalue, Heap.setUpvalue, ho, ho']
  cases hren with
  | closure hmade hus =>
    refine hr.update hij (.closure hmade ?_) (by simp [ho]) (by simp)
    rw [Array.toList_setIfInBounds, Array.toList_setIfInBounds]
    exact forall₂_set hus hu place
  | _ => exact hr

/-- A collection in the first heap keeps what is reachable there, and forgets the rest of the
renaming. -/
lemma collect (hr : h.Corresponds C ρ h') (roots : List ObjectId) :
    (h.collect roots).Corresponds C (ρ.restrict (Reachable h roots)) h' where
  objects := by
    rintro i j ⟨hij, hreach⟩
    obtain ⟨o, o', ho, ho', hren⟩ := hr.objects hij
    refine ⟨o, o', hr.valid.get?_collect_eq_some.2 ⟨hreach, ho⟩, ho', hren.restrict fun k hk => ?_⟩
    refine hreach.step ?_
    rw [referencesOf, ho]
    exact hk
  functional := fun hij hij' => hr.functional hij.1 hij'.1
  injective := fun hij hij' => hr.injective hij.1 hij'.1
  valid := hr.valid.collect roots
  valid' := hr.valid'

end Heap.Corresponds

end Lox
