import Lox.Machine.State
import Lox.Proofs.Heap.Collection
import Lox.Proofs.Semantics.Evaluation

/-!
# What values mean

A value on a heap means a `Datum`: a string value means its text, and any other object its
identity, its printed form and its type name.  Everything that the language can see of values it
can see of what they mean; for equality this is where interning matters (`Valid.equals_datum`).

The globals of a machine are keyed by the identities of their interned names.  What they mean is
a function of names, `Heap.environment`.

Neither changes when a string is interned or a collection takes place.  For this, no identity may
be in use that was not given out yet, or the next allocation might give it a meaning:
`Machine.Grounded`.
-/

namespace Lox

namespace Heap

variable {h h' : Heap} {v w : Value} {t : Text}

/-! ## Values -/

/-- What a value means. -/
def datum (h : Heap) (v : Value) : Datum :=
  match v with
  | .nil => .nil
  | .bool b => .bool b
  | .number x => .number x
  | .object ref =>
    match h.string? v with
    | some t => .string t
    | none => .object ref (h.valueText v) (h.typeName v)

/-- The text of a string value. -/
lemma string?_eq_some {ref : Option ObjectId} :
    h.string? (.object ref) = some t ↔ ref.bind h.get? = some (.string t) := by
  rw [string?, deref?, Value.reference?]
  cases ref.bind h.get? with
  | none => simp
  | some o => cases o <;> simp

lemma datum_eq_string (h : Heap) (v : Value) (t : Text) :
    h.datum v = .string t ↔ h.string? v = some t := by
  cases v with
  | object ref =>
    rw [datum]
    cases h.string? (.object ref) <;> simp
  | _ => simp [datum, string?, deref?, Value.reference?]

lemma datum_eq_number (h : Heap) (v : Value) (x : Float) :
    h.datum v = .number x ↔ v = .number x := by
  cases v with
  | object ref =>
    rw [datum]
    cases h.string? (.object ref) <;> simp
  | _ => simp [datum]

lemma datum_string {id : ObjectId} (hid : h.get? id = some (.string t)) :
    h.datum (.object (some id)) = .string t := by
  rw [datum_eq_string, string?_eq_some]
  exact hid

@[simp] lemma isFalsey_datum (h : Heap) (v : Value) : (h.datum v).isFalsey = v.isFalsey := by
  cases v with
  | object ref =>
    rw [datum]
    cases h.string? (.object ref) <;> rfl
  | _ => rfl

@[simp] lemma text_datum (h : Heap) (v : Value) : (h.datum v).text = h.valueText v := by
  cases v with
  | object ref =>
    rw [datum]
    cases hs : h.string? (.object ref) with
    | none => rfl
    | some t =>
      rw [string?_eq_some] at hs
      simp only [valueText, deref?, Value.reference?, hs]
      rfl
  | _ => rfl

@[simp] lemma typeName_datum (h : Heap) (v : Value) : (h.datum v).typeName = h.typeName v := by
  cases v with
  | object ref =>
    rw [datum]
    cases hs : h.string? (.object ref) with
    | none => rfl
    | some t =>
      rw [string?_eq_some] at hs
      simp only [typeName, deref?, Value.reference?, hs]
      rfl
  | _ => rfl

/-- Equal texts are one object, so equality is an equality of meanings. -/
lemma Valid.equals_datum (hv : h.Valid) (v w : Value) :
    (h.datum v).equals (h.datum w) = v.equals w := by
  cases v with
  | object r =>
    cases w with
    | object s =>
      simp only [datum]
      cases hr : h.string? (.object r) with
      | none =>
        cases hs : h.string? (.object s) with
        | none => rfl
        | some t =>
          have hne : r ≠ s := by
            rintro rfl
            rw [hr] at hs
            cases hs
          simp [Datum.equals, Value.equals, hne]
      | some t =>
        cases hs : h.string? (.object s) with
        | none =>
          have hne : r ≠ s := by
            rintro rfl
            rw [hr] at hs
            cases hs
          simp [Datum.equals, Value.equals, hne]
        | some t' =>
          rw [string?_eq_some, Option.bind_eq_some_iff] at hr hs
          obtain ⟨i, rfl, hi⟩ := hr
          obtain ⟨j, rfl, hj⟩ := hs
          have hiff : t = t' ↔ i = j := by
            constructor
            · rintro rfl
              exact hv.string_unique hi hj
            · rintro rfl
              rw [hi] at hj
              simpa using hj
          simp only [Datum.equals, Value.equals, beq_eq_decide, Option.some.injEq, hiff]
    | _ => simp only [datum]; cases h.string? (.object r) <;> rfl
  | _ =>
    cases w with
    | object s => simp only [datum]; cases h.string? (.object s) <;> rfl
    | _ => rfl

/-! ## Meanings that stay -/

/-- The same object in both heaps, or an upvalue in both. -/
def Alike (h h' : Heap) (i : ObjectId) : Prop :=
  h'.get? i = h.get? i ∨
    (∃ u, h.get? i = some (.upvalue u)) ∧ ∃ u, h'.get? i = some (.upvalue u)

lemma Alike.function?_eq {i : ObjectId} (halike : h.Alike h' i) :
    h'.function? (some i) = h.function? (some i) := by
  simp only [function?, Option.bind_some]
  rcases halike with heq | ⟨⟨u, hu⟩, u', hu'⟩
  · rw [heq]
  · rw [hu, hu']

/-- Whatever a value means depends on the object it refers to, and for a closure on the function
it was made from. -/
lemma datum_eq_of_alike (halike : ∀ i ∈ v.reference?, h.Alike h' i)
    (hmade : ∀ i ∈ v.reference?, ∀ made us, h.get? i = some (.closure (some made) us) →
      h.Alike h' made) : h'.datum v = h.datum v := by
  cases v with
  | object ref =>
    cases ref with
    | none => rfl
    | some i =>
      simp only [datum, string?, valueText, typeName, deref?, Value.reference?, Option.bind_some]
      rcases halike i rfl with heq | ⟨⟨u, hu⟩, u', hu'⟩
      · rw [heq]
        cases hget : h.get? i with
        | none => rfl
        | some o =>
          cases o with
          | closure made us =>
            cases made with
            | none => rfl
            | some made => simp only [objectText, (hmade i rfl made us hget).function?_eq]
          | _ => rfl
      · rw [hu, hu']
        rfl
  | _ => rfl

/-- The identity in a value was given out at some time. -/
def Issued (h : Heap) (v : Value) : Prop :=
  ∀ i ∈ v.reference?, i < h.fresh

/-- A heap on which closures are made from functions whose identities were given out. -/
structure Grounded (h : Heap) : Prop where
  valid : h.Valid
  closures : ∀ {id made : ObjectId} {us : Array (Option ObjectId)},
    h.get? id = some (.closure (some made) us) → made < h.fresh

/-- What was given out before stays as it is. -/
lemma Grounded.datum_eq (hg : h.Grounded) (hv : h.Issued v)
    (halike : ∀ i < h.fresh, h.Alike h' i) : h'.datum v = h.datum v :=
  datum_eq_of_alike (fun i hi => halike i (hv i hi)) fun _ _ _ _ hget =>
    halike _ (hg.closures hget)

lemma Issued.mono (hv : h.Issued v) (hfresh : h.fresh ≤ h'.fresh) : h'.Issued v :=
  fun i hi => Nat.lt_of_lt_of_le (hv i hi) hfresh

lemma issued_of_reference?_eq_none (h : Heap) (hv : v.reference? = none) : h.Issued v := by
  simp [Issued, hv]

lemma fresh_le_intern (h : Heap) (t : Text) : h.fresh ≤ (h.intern t).2.fresh := by
  rcases Valid.intern_eq (h := h) t with ⟨_, -, heq⟩ | ⟨-, -, hfresh, -⟩
  · exact Nat.le_of_eq (by rw [heq])
  · rw [hfresh]
    exact Nat.le_succ _

lemma get?_intern_of_lt {i : ObjectId} (hi : i < h.fresh) : (h.intern t).2.get? i = h.get? i := by
  rcases Valid.intern_eq (h := h) t with ⟨_, -, heq⟩ | ⟨-, -, -, -, hcells, -⟩
  · rw [heq]
  · have hallocated := get?_allocate h (.string t) i
    rw [if_neg (Nat.ne_of_lt hi)] at hallocated
    rw [← hallocated, get?, get?, hcells]

/-- The string that interning gives is given out. -/
lemma Valid.issued_intern (hv : h.Valid) (t : Text) :
    (h.intern t).2.Issued (.object (some (h.intern t).1)) := by
  intro i hi
  simp only [Value.reference?, Option.mem_def, Option.some.injEq] at hi
  subst hi
  exact (hv.intern t).below (hv.get?_intern t)

lemma Grounded.intern (hg : h.Grounded) (t : Text) : (h.intern t).2.Grounded where
  valid := hg.valid.intern t
  closures := by
    intro id made us hget
    have hlt : id < h.fresh := by
      rcases Valid.intern_eq (h := h) t with ⟨_, -, heq⟩ | ⟨-, hid, hfresh, -⟩
      · rw [heq] at hget
        exact hg.valid.below hget
      · have hbelow := (hg.valid.intern t).below hget
        have hne : id ≠ h.fresh := by
          rintro rfl
          rw [← hid, hg.valid.get?_intern t] at hget
          cases hget
        rw [hfresh] at hbelow
        exact Nat.lt_of_le_of_ne (Nat.le_of_lt_succ hbelow) hne
    rw [get?_intern_of_lt hlt] at hget
    exact Nat.lt_of_lt_of_le (hg.closures hget) (h.fresh_le_intern t)

lemma Grounded.datum_intern (hg : h.Grounded) (hv : h.Issued v) :
    (h.intern t).2.datum v = h.datum v :=
  hg.datum_eq hv fun _ hi => .inl (get?_intern_of_lt hi)

lemma Grounded.allocate (hg : h.Grounded) {o : Object} (hstring : ∀ t, o ≠ .string t)
    (hmade : ∀ {made us}, o = .closure (some made) us → made < h.fresh) :
    (h.allocate o).2.Grounded where
  valid := hg.valid.allocate hstring
  closures := by
    intro id made us hget
    rw [get?_allocate] at hget
    rw [fresh_allocate]
    split at hget
    · exact Nat.lt_succ_of_lt (hmade (Option.some.inj hget))
    · exact Nat.lt_succ_of_lt (hg.closures hget)

lemma alike_allocate (h : Heap) (o : Object) {i : ObjectId} (hi : i < h.fresh) :
    h.Alike (h.allocate o).2 i := by
  left
  rw [get?_allocate, if_neg (Nat.ne_of_lt hi)]

/-- Upvalues that leave the stack stay upvalues. -/
lemma alike_closeUpvalue {id : ObjectId} (hid : ∃ u, h.get? id = some (.upvalue u)) (v : Value)
    (i : ObjectId) : h.Alike (h.closeUpvalue id v) i := by
  by_cases hi : i = id
  · subst hi
    obtain ⟨u, hu⟩ := hid
    exact .inr ⟨⟨u, hu⟩, _, by rw [get?_closeUpvalue, if_pos rfl, hu]; rfl⟩
  · exact .inl (by rw [get?_closeUpvalue, if_neg hi])

lemma Grounded.closeUpvalue (hg : h.Grounded) {id : ObjectId}
    (hid : ∃ u, h.get? id = some (.upvalue u)) (v : Value) : (h.closeUpvalue id v).Grounded where
  valid := by
    obtain ⟨u, hu⟩ := hid
    exact hg.valid.update (by simp [hu]) (by simp)
  closures := by
    intro id' made us hget
    rw [get?_closeUpvalue] at hget
    split at hget
    · obtain ⟨u, hu⟩ := hid
      rw [hu] at hget
      cases hget
    · exact hg.closures hget

lemma Grounded.collect (hg : h.Grounded) (roots : List ObjectId) : (h.collect roots).Grounded where
  valid := hg.valid.collect roots
  closures := by
    intro id made us hget
    rw [hg.valid.fresh_collect]
    exact hg.closures (hg.valid.get?_collect_eq_some.1 hget).2

/-- A collection does not change what its roots mean. -/
lemma Valid.datum_collect (hv : h.Valid) {roots : List ObjectId}
    (hroots : ∀ i ∈ v.reference?, i ∈ roots) : (h.collect roots).datum v = h.datum v := by
  have hreach : ∀ i ∈ v.reference?, Reachable h roots i := fun i hi => .root (hroots i hi)
  refine datum_eq_of_alike (fun i hi => .inl ((hv.get?_collect roots i).1 (hreach i hi)))
    fun i hi made us hget => .inl ((hv.get?_collect roots made).1 ((hreach i hi).step ?_))
  simp [referencesOf, hget, Object.references]

/-! ## Globals -/

/-- What the globals mean: the value of a name, if the name is defined. -/
def environment (h : Heap) (globals : Std.TreeMap ObjectId Value) (name : Text) : Option Datum :=
  (h.strings[name]?).bind fun id => (globals[id]?).map h.datum

/-- Names and values of globals were given out. -/
def IssuedGlobals (h : Heap) (globals : Std.TreeMap ObjectId Value) : Prop :=
  ∀ {id : ObjectId} {v : Value}, globals[id]? = some v → id < h.fresh ∧ h.Issued v

variable {globals : Std.TreeMap ObjectId Value} {name : Text}

lemma IssuedGlobals.mono (hi : h.IssuedGlobals globals) (hfresh : h.fresh ≤ h'.fresh) :
    h'.IssuedGlobals globals := by
  intro id v hget
  obtain ⟨hid, hv⟩ := hi hget
  exact ⟨Nat.lt_of_lt_of_le hid hfresh, hv.mono hfresh⟩

/-- Objects may be added and upvalues may change as long as the strings stay. -/
lemma Grounded.environment_eq (hg : h.Grounded) (hi : h.IssuedGlobals globals)
    (hstrings : h'.strings = h.strings) (halike : ∀ i < h.fresh, h.Alike h' i) :
    h'.environment globals = h.environment globals := by
  funext name
  rw [environment, environment, hstrings]
  cases h.strings[name]? with
  | none => rfl
  | some id =>
    simp only [Option.bind_some]
    cases hget : globals[id]? with
    | none => rfl
    | some v => rw [Option.map_some, Option.map_some, hg.datum_eq (hi hget).2 halike]

lemma Grounded.environment_intern (hg : h.Grounded) (hi : h.IssuedGlobals globals) (t : Text) :
    (h.intern t).2.environment globals = h.environment globals := by
  rcases Valid.intern_eq (h := h) t with ⟨_, -, heq⟩ | ⟨hnone, -, -, hstrings, -, -⟩
  · rw [heq]
  funext name
  rw [environment, environment, hstrings, Std.TreeMap.getElem?_insert]
  split
  · -- The new identity names no global.
    rename_i hname
    rw [Std.compare_eq_iff_eq] at hname
    subst hname
    rw [hnone, Option.bind_some, Option.bind_none]
    cases hget : globals[h.fresh]? with
    | none => rfl
    | some v => exact absurd (hi hget).1 (Nat.lt_irrefl _)
  · cases h.strings[name]? with
    | none => rfl
    | some id =>
      simp only [Option.bind_some]
      cases hget : globals[id]? with
      | none => rfl
      | some v => rw [Option.map_some, Option.map_some, hg.datum_intern (hi hget).2]

/-- The global of an interned name. -/
lemma Valid.environment_name (hv : h.Valid) {id : ObjectId} (hid : h.get? id = some (.string name)) :
    h.environment globals name = (globals[id]?).map h.datum := by
  rw [environment, hv.interned.2 hid, Option.bind_some]

lemma Valid.environment_insert (hv : h.Valid) {id : ObjectId}
    (hid : h.get? id = some (.string name)) (v : Value) :
    h.environment (globals.insert id v) =
      Function.update (h.environment globals) name (some (h.datum v)) := by
  funext other
  by_cases hname : other = name
  · subst hname
    rw [Function.update_self, hv.environment_name hid]
    simp
  · rw [Function.update_of_ne hname, environment, environment]
    cases hother : h.strings[other]? with
    | none => rfl
    | some id' =>
      have hne : id ≠ id' := by
        rintro rfl
        rw [hv.interned, hid] at hother
        exact hname (by simpa using hother.symm)
      rw [Option.bind_some, Option.bind_some, Std.TreeMap.getElem?_insert,
        if_neg (by rwa [Std.compare_eq_iff_eq])]

lemma IssuedGlobals.insert (hi : h.IssuedGlobals globals) {id : ObjectId} (hid : id < h.fresh)
    (hv : h.Issued v) : h.IssuedGlobals (globals.insert id v) := by
  intro id' w hget
  rw [Std.TreeMap.getElem?_insert] at hget
  split at hget
  · rename_i heq
    rw [Std.compare_eq_iff_eq] at heq
    cases hget
    exact ⟨heq ▸ hid, hv⟩
  · exact hi hget

/-- A collection does not change what the globals mean if their names and values are roots. -/
lemma Valid.environment_collect (hv : h.Valid) {roots : List ObjectId}
    (hroots : ∀ {id : ObjectId} {v : Value}, globals[id]? = some v →
      id ∈ roots ∧ ∀ i ∈ v.reference?, i ∈ roots) :
    (h.collect roots).environment globals = h.environment globals := by
  funext name
  rw [environment, environment]
  cases hname : h.strings[name]? with
  | none =>
    have hnone : (h.collect roots).strings[name]? = none := by
      cases hkept : (h.collect roots).strings[name]? with
      | none => rfl
      | some id =>
        rw [((hv.strings_collect roots name id).1 hkept).1] at hname
        cases hname
    rw [hnone]
    rfl
  | some id =>
    cases hget : globals[id]? with
    | none =>
      cases hkept : (h.collect roots).strings[name]? with
      | none => simp [hget]
      | some id' =>
        rw [((hv.strings_collect roots name id').1 hkept).1, Option.some.injEq] at hname
        simp [hname, hget]
    | some v =>
      obtain ⟨hid, hv'⟩ := hroots hget
      rw [(hv.strings_collect roots name id).2 ⟨hname, .root hid⟩]
      simp [hget, hv.datum_collect hv']

end Heap

namespace Machine

/-! ## Machines -/

/-- What the globals of a machine mean. -/
def environment (m : Machine) : Text → Option Datum :=
  m.heap.environment m.globals

/-- No identity is in use that was not given out, and captured variables on the stack are
captured variables. -/
structure Grounded (m : Machine) : Prop where
  heap : m.heap.Grounded
  opened : ∀ u ∈ m.openUpvalues, ∃ x, m.heap.get? u.id = some (.upvalue x)
  globals : m.heap.IssuedGlobals m.globals

/-- The names and values of globals are roots. -/
lemma mem_roots_of_global {m : Machine} {id : ObjectId} {v : Value} (h : m.globals[id]? = some v) :
    id ∈ m.roots ∧ ∀ i ∈ v.reference?, i ∈ m.roots := by
  have hmem : (id, v) ∈ m.globals.toList := by
    rwa [Std.TreeMap.mem_toList_iff_getElem?_eq_some]
  have hroots : ∀ i, i = id ∨ i ∈ v.reference? → i ∈ m.roots := by
    intro i hi
    simp only [roots, List.mem_append, List.mem_flatMap]
    exact .inr ⟨(id, v), hmem, by simpa using hi⟩
  exact ⟨hroots id (.inl rfl), fun i hi => hroots i (.inr hi)⟩

lemma mem_roots_of_stack {m : Machine} {v : Value} (h : v ∈ m.stack) :
    ∀ i ∈ v.reference?, i ∈ m.roots := by
  intro i hi
  simp only [roots, List.mem_append, List.mem_filterMap]
  exact .inl (.inl (.inl ⟨v, h.val, hi⟩))

lemma Grounded.environment_collect {m : Machine} (h : m.Grounded) :
    m.collect.environment = m.environment :=
  h.heap.valid.environment_collect mem_roots_of_global

end Machine

end Lox
