import Lox.Proofs.Heap.Exactness
import Lox.Proofs.Host

/-!
# Strings are interned

Two strings are equal to the language if they are the same object, and that makes sense only as long
as no two objects are strings with the same text.  The table of strings has to know each of them for
that, through all collections, which drop from it what they free.

`Heap.Interned` is what there is to know about the strings of a heap.  It holds after any of the
heap's operations in any order, and after anything that a host has its machine do
(`strings_interned`).
-/

namespace Lox

namespace Heap

/-- An operation other than to put a string past the table. -/
def Tabled (h h' : Heap) : Prop :=
  Operation h h' ∧ ∀ t, h' ≠ (h.allocate (.string t)).2

/-- What gives out no identity allocates no string. -/
lemma Operation.tabled {h h' : Heap} (hop : Operation h h') (hfresh : h'.fresh = h.fresh) :
    h.Tabled h' := by
  refine ⟨hop, fun t heq => ?_⟩
  rw [heq, fresh_allocate] at hfresh
  exact Nat.succ_ne_self _ hfresh

/-- Interning puts strings into the table. -/
lemma tabled_intern (h : Heap) (t : Text) : h.Tabled (h.intern t).2 := by
  rcases Valid.intern_eq (h := h) t with ⟨id, -, heq⟩ | ⟨hnone, -, -, hstrings, -, -⟩
  · exact (Operation.intern h t).tabled (by rw [heq])
  · refine ⟨.intern h t, fun t' heq => ?_⟩
    rw [heq, strings_allocate] at hstrings
    rw [hstrings, Std.TreeMap.getElem?_insert_self] at hnone
    cases hnone

/-- The strings that are on the heap, in the order of their allocation. -/
def stringList (h : Heap) : List (Text × ObjectId) :=
  h.cells.toList.filterMap fun (id, c) =>
    match c.object with
    | .string t => some (t, id)
    | _ => none

/-- No two strings are the same, and the table has one entry for each. -/
structure Interned (h : Heap) : Prop where
  unique : ∀ {t : Text} {id id' : ObjectId}, h.get? id = some (.string t) →
    h.get? id' = some (.string t) → id = id'
  /-- The table leads from a text to the string with this text. -/
  table : ∀ (t : Text) (id : ObjectId), h.strings[t]? = some id ↔ h.get? id = some (.string t)
  entries : h.strings.toList.Perm h.stringList
  /-- Interning the text of a string gives this string, and changes nothing. -/
  found : ∀ {t : Text} {id : ObjectId}, h.get? id = some (.string t) → h.intern t = (id, h)
  /-- Interning any other text adds a string to the heap. -/
  made : ∀ {t : Text}, (∀ id, h.get? id ≠ some (.string t)) →
    (h.intern t).1 = h.fresh ∧ h.get? h.fresh = none ∧
      ∀ id, (h.intern t).2.get? id = if id = h.fresh then some (.string t) else h.get? id
  /-- Strings are equal if their texts are. -/
  equals : ∀ {v w : Value} {s t : Text}, h.string? v = some s → h.string? w = some t →
    v.equals w = decide (s = t)

lemma exists_of_string? {h : Heap} {v : Value} {t : Text} (hv : h.string? v = some t) :
    ∃ id, v = .object (some id) ∧ h.get? id = some (.string t) := by
  unfold string? at hv
  split at hv
  · rename_i s hderef
    cases hv
    obtain ⟨id, hid, hget⟩ := Option.bind_eq_some_iff.1 hderef
    cases v with
    | object ref => exact ⟨id, congrArg Value.object hid, hget⟩
    | _ => cases hid
  · cases hv

lemma mem_stringList {h : Heap} {t : Text} {id : ObjectId} :
    (t, id) ∈ h.stringList ↔ h.get? id = some (.string t) := by
  unfold stringList
  rw [List.mem_filterMap, get?_eq_some]
  constructor
  · rintro ⟨⟨id', c⟩, hmem, hstring⟩
    rw [Std.TreeMap.mem_toList_iff_getElem?_eq_some] at hmem
    dsimp only at hstring
    split at hstring
    · rename_i s hobject
      cases hstring
      exact ⟨c, hmem, hobject⟩
    · cases hstring
  · rintro ⟨c, hcell, hobject⟩
    refine ⟨(id, c), Std.TreeMap.mem_toList_iff_getElem?_eq_some.2 hcell, ?_⟩
    dsimp only
    rw [hobject]

lemma nodup_toList {α β : Type} [Ord α] [Std.TransOrd α] [Std.LawfulEqOrd α]
    (m : Std.TreeMap α β) : m.toList.Nodup := by
  refine m.ordered_keys_toList.imp ?_
  rintro a _ hlt rfl
  simp at hlt

/-- Each object is listed once. -/
lemma nodup_stringList (h : Heap) : h.stringList.Nodup := by
  have hordered := h.cells.ordered_keys_toList
  refine hordered.filterMap _ ?_
  rintro ⟨id, c⟩ ⟨id', c'⟩ hlt p hp p' hp' rfl
  dsimp only at hlt hp hp'
  split at hp
  · split at hp'
    · cases hp
      cases hp'
      simp at hlt
    · cases hp'
  · cases hp

lemma Valid.interned_heap {h : Heap} (hv : h.Valid) : h.Interned where
  unique := hv.string_unique
  table := fun _ _ => hv.interned
  entries := by
    refine (List.perm_ext_iff_of_nodup (nodup_toList h.strings) h.nodup_stringList).2 ?_
    rintro ⟨t, id⟩
    rw [Std.TreeMap.mem_toList_iff_getElem?_eq_some, hv.interned, mem_stringList]
  found := by
    intro t id hget
    unfold Heap.intern
    rw [hv.tabled hget]
  made := by
    intro t hnew
    have hnone : h.strings[t]? = none := by
      rw [Option.eq_none_iff_forall_ne_some]
      exact fun id hid => hnew id (hv.listed hid)
    unfold Heap.intern
    rw [hnone]
    exact ⟨rfl, hv.get?_fresh, fun id => get?_allocate h _ id⟩
  equals := by
    intro v w s t hs ht
    obtain ⟨id, rfl, hid⟩ := exists_of_string? hs
    obtain ⟨id', rfl, hid'⟩ := exists_of_string? ht
    by_cases heq : s = t
    · subst heq
      simp [Value.equals, hv.string_unique hid hid']
    · have hne : id ≠ id' := by
        rintro rfl
        rw [hid] at hid'
        cases hid'
        exact heq rfl
      simp [Value.equals, heq, hne]

lemma Valid.tabled_operation {h h' : Heap} (hv : h.Valid) (hop : h.Tabled h') : h'.Valid := by
  obtain ⟨hop, hstring⟩ := hop
  cases hop with
  | intern t => exact hv.intern t
  | allocate o =>
    refine hv.allocate ?_
    rintro t rfl
    exact hstring t rfl
  | assign u' hget => exact hv.update (by simp [hget]) (by simp)
  | setUpvalue id place u =>
    rw [Heap.setUpvalue]
    split
    · rename_i hget
      exact hv.update (by simp [hget]) (by simp)
    · exact hv
  | collect roots => exact hv.collect roots
  | collectIfDue roots =>
    rw [Heap.collectIfDue]
    split
    · exact hv.collect roots
    · exact hv

lemma valid_of_tabled {config : HeapConfig} {h : Heap}
    (hops : Relation.ReflTransGen Tabled (new config) h) : h.Valid := by
  induction hops with
  | refl => exact valid_new config
  | tail _ hop ih => exact ih.tabled_operation hop

end Heap

/-- Strings are interned, whatever was done to the heap, and whatever a host has had its machine do. -/
theorem strings_interned :
    (∀ (config : HeapConfig) (h : Heap),
      Relation.ReflTransGen Heap.Tabled (Heap.new config) h → h.Interned) ∧
    ∀ (told : Nat → Array Value → Machine → List (Text × Value)) (config : MachineConfig)
      (acts : List HostAction), ((Vm.new config).after acts).Reported told →
      ((Vm.new config).after acts).machine.heap.Interned := by
  constructor
  · intro config h hops
    exact (Heap.valid_of_tabled hops).interned_heap
  · intro told config acts hreported
    exact (Vm.represents_after hreported (Vm.represents_new config)).heap.interned_heap

/-- A string that was freed and is made again, and one that a program and the host make in three
ways. -/
theorem strings_interned_again :
    let h := (Heap.new .standard).intern "a" |>.2.collect [] |>.intern "a" |>.2
    let told : Nat → Array Value → Machine → List (Text × Value) := fun _ _ _ => []
    let vm := (Vm.new .standard).after [.defineNative ⟨"gc", 0, Native.collect⟩,
      .defineNative ⟨"join", -1, Native.join⟩, .run 100 ⟨false,
        "var s = \"num\" + \"ber\"; gc(); var t = typeof 1; var u = join(\"number\");",
        fun _ => true, 1⟩, .collect]
    (Relation.ReflTransGen Heap.Tabled (Heap.new .standard) h ∧ h.Interned) ∧
    vm.Reported told ∧ vm.machine.heap.Interned ∧
      ((vm.getGlobal "s").1.bind vm.machine.heap.string?) = some "number" ∧
      (vm.getGlobal "t").1 = (vm.getGlobal "s").1 ∧ (vm.getGlobal "u").1 = (vm.getGlobal "s").1 := by
  intro h told vm
  have hops : Relation.ReflTransGen Heap.Tabled (Heap.new .standard) h :=
    ((Relation.ReflTransGen.refl.tail (Heap.tabled_intern _ "a")).tail
      ((Heap.Operation.collect _ []).tabled rfl)).tail (Heap.tabled_intern _ "a")
  have hreported : vm.Reported told := by
    intro k native hnative
    have hnatives : vm.natives = #[Native.clock, Native.collect, Native.join] :=
      Vm.natives_after _ _
    rw [hnatives] at hnative
    match k with
    | 0 =>
      cases hnative
      exact fun args m => .refl m
    | 1 =>
      cases hnative
      exact fun args m => .tail (.refl m) (.collect m)
    | 2 =>
      cases hnative
      exact fun args m => .tail (.refl m) (.intern m (Native.joinText m.heap args))
    | k + 3 => simp at hnative
  exact ⟨⟨hops, strings_interned.1 .standard h hops⟩, hreported,
    strings_interned.2 told .standard _ hreported, by decide +kernel, by decide +kernel,
    by decide +kernel⟩

/-- Strings that are put on the heap past the table are none of its entries, and two of the same text
are different to the language. -/
theorem strings_past_table :
    let h := ((Heap.new .standard).allocate (.string "a")).2.allocate (.string "a") |>.2
    Relation.ReflTransGen Heap.Operation (Heap.new .standard) h ∧
      h.get? 0 = some (.string "a") ∧ h.get? 1 = some (.string "a") ∧ h.strings.toList = [] ∧
      (Value.object (some 0)).equals (.object (some 1)) = false ∧ ¬ h.Interned := by
  intro h
  have hfirst : h.get? 0 = some (.string "a") := by rfl
  have hsecond : h.get? 1 = some (.string "a") := by rfl
  refine ⟨(Relation.ReflTransGen.refl.tail (.allocate _ _)).tail (.allocate _ _), hfirst, hsecond,
    by decide +kernel, by decide +kernel, fun hinterned => ?_⟩
  exact absurd (hinterned.unique hfirst hsecond) (by decide)

end Lox
