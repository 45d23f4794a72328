import Lox.Proofs.Machine.Boundary

/-!
# Globals

The machine keeps its globals by the identities of their names, while a program speaks of the names
themselves.  `global?` is the value of a name.  Only two instructions can change it, a definition and
an assignment to a global that is defined, and `assignment?` tells of a machine at a boundary whether
one of them comes next.  No other instruction and no collection gives any name another value
(`KeepsGlobals`), although a name that is not that of a global may lose its string and get a new one.

So the globals at a boundary of a script are those to begin with, overridden one after another by
what has been defined and assigned until then (`Sound.interpret_globals`).
-/

namespace Lox

namespace Machine

/-- The value of the global with a name, if it is defined. -/
def global? (m : Machine) (name : Text) : Option Value :=
  (m.heap.strings[name]?).bind fun id => m.globals[id]?

/-- All globals have names that are on the heap. -/
def Named (m : Machine) : Prop :=
  ∀ id v, m.globals[id]? = some v → ∃ name, m.heap.get? id = some (.string name)

/-- The global that the next instruction defines or assigns to, with its new value. -/
def assignment? (m : Machine) : Option (Text × Value) := do
  let frame ← m.frames.back?
  let i ← (frame.chunk.decode frame.ip).toOption
  let name ← frame.chunk.strings.get? i.operand
  let v ← m.stack.back?
  if i.opcode = .defineGlobal ∨ i.opcode = .setGlobal ∧ (m.global? name).isSome then
    some (name, v)
  else
    none

/-- The globals after a definition or an assignment. -/
def assigned (globals : Text → Option Value) (a : Text × Value) : Text → Option Value :=
  Function.update globals a.1 (some a.2)

/-- The heap is valid, and what the machine lists as captured variables are such. -/
structure Intact (m : Machine) : Prop where
  heap : m.heap.Valid
  opened : ∀ u ∈ m.openUpvalues, m.heap.HasUpvalue u.id

lemma Sound.intact {m : Machine} (h : m.Sound) : m.Intact :=
  ⟨h.heap, fun u hu => ⟨_, h.opened u hu⟩⟩

/-! ## Keeping names and globals -/

/-- Whatever is a global's name keeps its string, and stays a global's name. -/
def KeepsNames (m m' : Machine) : Prop :=
  m.heap.Valid → m'.heap.Valid ∧ ∀ id ∈ m.globals, id ∈ m'.globals ∧
    ∀ name, m.heap.get? id = some (.string name) → m'.heap.get? id = some (.string name)

/-- The globals and their names stay. -/
def KeepsGlobals (m m' : Machine) : Prop :=
  m'.globals = m.globals ∧ m.KeepsNames m'

section Keeping

variable {m m' m'' : Machine}

lemma global?_eq_some (hv : m.heap.Valid) {name : Text} {v : Value} :
    m.global? name = some v ↔
      ∃ id, m.heap.get? id = some (.string name) ∧ m.globals[id]? = some v := by
  unfold global?
  rw [Option.bind_eq_some_iff]
  simp only [hv.interned]

lemma mem_globals {id : ObjectId} {v : Value} (hid : m.globals[id]? = some v) : id ∈ m.globals := by
  rw [Std.TreeMap.mem_iff_isSome_getElem?, hid]
  rfl

lemma KeepsGlobals.named (h : m.KeepsGlobals m') (hv : m.heap.Valid) (hm : m.Named) :
    m'.Named := by
  intro id v hid
  rw [h.1] at hid
  obtain ⟨name, hname⟩ := hm id v hid
  exact ⟨name, ((h.2 hv).2 id (mem_globals hid)).2 name hname⟩

/-- Every name has the value it had. -/
lemma KeepsGlobals.global?_eq (h : m.KeepsGlobals m') (hv : m.heap.Valid) (hm : m.Named) :
    m'.global? = m.global? := by
  obtain ⟨hglobals, hnames⟩ := h
  obtain ⟨hv', hkept⟩ := hnames hv
  funext name
  apply Option.ext
  intro v
  rw [global?_eq_some hv, global?_eq_some hv', hglobals]
  constructor
  · rintro ⟨id, hget, hid⟩
    -- The string was there before, because this is the name of a global.
    obtain ⟨name', hname'⟩ := hm id v hid
    have hsame := (hkept id (mem_globals hid)).2 name' hname'
    rw [hget] at hsame
    cases hsame
    exact ⟨id, hname', hid⟩
  · rintro ⟨id, hget, hid⟩
    exact ⟨id, (hkept id (mem_globals hid)).2 name hget, hid⟩

lemma KeepsNames.trans (h : m.KeepsNames m') (h' : m'.KeepsNames m'') : m.KeepsNames m'' := by
  intro hv
  obtain ⟨hv', hkept⟩ := h hv
  obtain ⟨hv'', hkept'⟩ := h' hv'
  refine ⟨hv'', fun id hid => ?_⟩
  obtain ⟨hid', hname⟩ := hkept id hid
  obtain ⟨hid'', hname'⟩ := hkept' id hid'
  exact ⟨hid'', fun name hget => hname' name (hname name hget)⟩

/-- The heap may change as long as strings stay. -/
lemma KeepsNames.of_strings (hglobals : m'.globals = m.globals)
    (hvalid : m.heap.Valid → m'.heap.Valid)
    (hstrings : m.heap.Valid → ∀ id ∈ m.globals, ∀ name, m.heap.get? id = some (.string name) →
      m'.heap.get? id = some (.string name)) : m.KeepsNames m' :=
  fun hv => ⟨hvalid hv, fun id hid => ⟨hglobals ▸ hid, hstrings hv id hid⟩⟩

lemma KeepsNames.of_heap (hglobals : m'.globals = m.globals) (hheap : m'.heap = m.heap) :
    m.KeepsNames m' :=
  .of_strings hglobals (fun hv => hheap ▸ hv) fun _ _ _ _ hget => hheap ▸ hget

/-- Nothing that instructions do to values and objects takes a string from the heap. -/
lemma blind_keepsNames : Blind KeepsNames where
  refl m := .of_heap rfl rfl
  trans := .trans
  stack m s := .of_heap rfl rfl
  printed m ts := .of_heap rfl rfl
  intern m t := .of_strings rfl (fun hv => hv.intern t) fun hv _ _ _ hget =>
    hv.get?_intern_of_some hget
  allocate m o ho := by
    refine .of_strings rfl (fun hv => hv.allocate ho) fun hv id _ name hget => ?_
    show (m.heap.allocate o).2.get? id = _
    rw [Heap.get?_allocate, if_neg (Nat.ne_of_lt (hv.below hget)), hget]
  setUpvalue m closure place u := by
    refine .of_strings rfl (fun hv => ?_) fun _ id _ name hget => ?_
    · show (m.heap.setUpvalue closure place u).Valid
      unfold Heap.setUpvalue
      split
      · rename_i made us hclosure
        exact hv.update (by simp [hclosure]) (by simp)
      · exact hv
    · show (m.heap.setUpvalue closure place u).get? id = _
      rw [Heap.get?_setUpvalue]
      split
      · rename_i heq
        rw [← heq, hget]
        rfl
      · exact hget
  assign m i x v hx := by
    refine .of_strings rfl (fun hv => hv.update (by simp [hx]) (by simp)) fun _ id _ name hget => ?_
    show (m.heap.closeUpvalue i v).get? id = _
    rw [Heap.get?_closeUpvalue, if_neg, hget]
    rintro rfl
    rw [hx] at hget
    cases hget

lemma blind_keepsGlobals : Blind KeepsGlobals where
  refl m := ⟨rfl, blind_keepsNames.refl m⟩
  trans h h' := ⟨h'.1.trans h.1, h.2.trans h'.2⟩
  stack m s := ⟨rfl, blind_keepsNames.stack m s⟩
  printed m ts := ⟨rfl, blind_keepsNames.printed m ts⟩
  intern m t := ⟨rfl, blind_keepsNames.intern m t⟩
  allocate m o ho := ⟨rfl, blind_keepsNames.allocate m o ho⟩
  setUpvalue m closure place u := ⟨rfl, blind_keepsNames.setUpvalue m closure place u⟩
  assign m i x v hx := ⟨rfl, blind_keepsNames.assign m i x v hx⟩

lemma KeepsGlobals.of_heap (hglobals : m'.globals = m.globals) (hheap : m'.heap = m.heap) :
    m.KeepsGlobals m' :=
  ⟨hglobals, .of_heap hglobals hheap⟩

/-- Captured variables that leave the stack are no strings. -/
lemma Intact.keepsGlobals_closeUpvalues (h : m.Intact) (last : Nat) :
    m.KeepsGlobals (m.closeUpvalues last) := by
  have hclosing : ∀ u ∈ m.openUpvalues.takeWhile fun u => decide (last ≤ u.slot),
      m.heap.HasUpvalue u.id :=
    fun u hu => h.opened u ((List.takeWhile_sublist _).subset hu)
  obtain ⟨hvalid, -, hsame, -⟩ := h.heap.closeAll hclosing fun u => m.stack.getD u.slot .nil
  rw [Machine.closeUpvalues, List.span_eq_takeWhile_dropWhile]
  refine ⟨rfl, .of_strings rfl (fun _ => hvalid) fun _ id _ name hget => ?_⟩
  dsimp only
  rw [hsame id, hget]
  intro hid
  obtain ⟨u, hu, rfl⟩ := List.mem_map.1 hid
  obtain ⟨x, hx⟩ := hclosing u hu
  rw [hx] at hget
  cases hget

lemma Sound.keepsGlobals_closeUpvalues (h : m.Sound) (last : Nat) :
    m.KeepsGlobals (m.closeUpvalues last) :=
  h.intact.keepsGlobals_closeUpvalues last

/-- The names of globals are among the roots of a collection. -/
lemma keepsGlobals_collect (m : Machine) : m.KeepsGlobals m.collect := by
  refine ⟨rfl, .of_strings rfl (fun hv => hv.collect m.roots) fun hv id hid name hget => ?_⟩
  obtain ⟨v, hv'⟩ := Option.isSome_iff_exists.1 (Std.TreeMap.mem_iff_isSome_getElem?.1 hid)
  have hroot : id ∈ m.roots := by
    apply List.mem_append_right
    have hmem : (id, v) ∈ m.globals.toList := Std.TreeMap.mem_toList_iff_getElem?_eq_some.2 hv'
    exact List.mem_flatMap.2 ⟨(id, v), hmem, List.mem_cons_self⟩
  exact hv.get?_collect_eq_some.2 ⟨.root hroot, hget⟩

lemma keepsGlobals_entered (m : Machine) (traced : Array Text) (ip : Nat) :
    m.KeepsGlobals (m.entered traced ip) := by
  have hcollected : m.KeepsGlobals m.collectIfDue := by
    unfold collectIfDue
    split
    · exact keepsGlobals_collect m
    · exact blind_keepsGlobals.refl m
  exact blind_keepsGlobals.trans hcollected (.of_heap rfl rfl)

end Keeping

/-! ## Host functions -/

lemma HostStep.keepsNames {m m' : Machine} (hstep : HostStep m m') : m.KeepsNames m' := by
  cases hstep with
  | intern t => exact blind_keepsNames.intern m t
  | native o => exact blind_keepsNames.allocate m _ (by simp)
  | setGlobal name v =>
    intro hv
    refine ⟨hv, fun id hid => ⟨?_, fun _ hget => hget⟩⟩
    rw [Std.TreeMap.mem_insert]
    exact .inr hid
  | setSlot | print | setClock => exact .of_heap rfl rfl
  | collect => exact (keepsGlobals_collect m).2

end Machine

/-- A host function that leaves the globals as they are. -/
def Native.Discreet (native : Native) : Prop :=
  ∀ args, Machine.Within (fun m m' => m'.globals = m.globals) (native args)

lemma Native.Lawful.keepsGlobals {native : Native} (h : native.Lawful) (hdiscreet : native.Discreet)
    (args : Array Value) : Machine.Within Machine.KeepsGlobals (native args) := by
  have hnames : Machine.Within Machine.KeepsNames (native args) := by
    apply h.within
    intro m m' hhost
    induction hhost with
    | refl => exact Machine.blind_keepsNames.refl m
    | tail _ hstep ih => exact ih.trans hstep.keepsNames
  intro m
  have hglobals := hdiscreet args m
  have hnames := hnames m
  cases hrun : native args m with
  | ok v m' =>
    rw [hrun] at hglobals hnames
    exact ⟨hglobals, hnames⟩
  | error e m' =>
    rw [hrun] at hglobals hnames
    exact ⟨hglobals, hnames⟩

namespace Machine

/-! ## Instructions -/

section Instructions

variable {m m' : Machine} {frame : Frame} {waiting : Array Frame} {k n : Nat} {a below : Shape}
  {natives : Natives} {i : Instruction} {name : Text} {v : Value}

lemma Sound.keepsGlobals_returned (h : m.Sound) (base : Nat) :
    m.KeepsGlobals (m.returned base) := by
  have hpopped : Machine.Sound { m with stack := m.stack.pop } := h.of_eq rfl rfl
  have hclosed := blind_keepsGlobals.trans (blind_keepsGlobals.stack m m.stack.pop)
    (hpopped.keepsGlobals_closeUpvalues base)
  unfold returned
  dsimp only
  generalize Machine.closeUpvalues { m with stack := m.stack.pop } base = closed at hclosed ⊢
  exact blind_keepsGlobals.trans hclosed (.of_heap rfl rfl)

lemma Executing.size_pos {x : Bool} (h : m.Executing frame waiting k n (x :: a) below) :
    0 < m.stack.size := by
  rw [h.size, List.cons_append]
  exact Nat.succ_pos _

/-- Only a definition and an assignment change globals. -/
lemma Executing.keepsGlobals (hnatives : ∀ native ∈ natives, native.Lawful ∧ native.Discreet)
    (h : m.Executing frame waiting k n a below)
    (hallows : i.Allows frame.chunk k frame.ip (frame.chunk.Runs k n) a)
    (hdefine : i.opcode ≠ .defineGlobal) (hset : i.opcode ≠ .setGlobal) :
    (∀ m', execute natives frame i m = .ok () m' → m.KeepsGlobals m') ∧
      ∀ e m', execute natives frame i m = .error e m' → m.KeepsGlobals m' := by
  obtain ⟨op, operand⟩ := i
  by_cases hcall : op = .call
  · subst hcall
    rcases call_cases frame operand m with ⟨e, herror⟩ | ⟨callee, -, hok⟩ | ⟨o, hnative⟩
    · rw [herror]
      refine ⟨fun m' hrun => ?_, fun e m' hrun => ?_⟩
      · cases hrun
      · cases hrun
        exact blind_keepsGlobals.refl m
    · rw [hok]
      refine ⟨fun m' hrun => ?_, fun e m' hrun => ?_⟩
      · cases hrun
        exact .of_heap rfl rfl
      · cases hrun
    · have hwithin : Within KeepsGlobals (callNative natives o operand) := by
        refine within_callNative blind_keepsGlobals.toMild (fun native hmem args => ?_) o operand
        exact (hnatives native hmem).1.keepsGlobals (hnatives native hmem).2 args
      rw [hnative]
      exact ⟨fun _ => hwithin.ok, fun _ _ => hwithin.error⟩
  by_cases hclose : op = .closeUpvalue
  · subst hclose
    obtain ⟨x, b, rfl, -⟩ := hallows
    refine ⟨fun m' hrun => ?_, fun e m' hrun => ?_⟩
    · rw [closeUpvalue_apply frame operand h.size_pos] at hrun
      cases hrun
      have hclosed := h.sound.keepsGlobals_closeUpvalues (m.stack.size - 1)
      exact blind_keepsGlobals.trans hclosed (blind_keepsGlobals.stack _ m.stack.pop)
    · rw [closeUpvalue_apply frame operand h.size_pos] at hrun
      cases hrun
  by_cases hret : op = .ret
  · subst hret
    obtain ⟨b, rfl⟩ := hallows
    have hreturned := h.sound.keepsGlobals_returned frame.base
    rw [show execute natives frame ⟨.ret, operand⟩ m = doReturn frame m from rfl,
      doReturn_apply frame h.size_pos]
    by_cases hlast : m.frames.pop.isEmpty
    · rw [if_pos hlast]
      refine ⟨fun m' hrun => ?_, fun e m' hrun => ?_⟩
      · cases hrun
        exact hreturned
      · cases hrun
    · have hpush := within_push blind_keepsGlobals.toMild (m.stack.back h.size_pos)
      rw [if_neg hlast]
      exact ⟨fun _ hrun => blind_keepsGlobals.trans hreturned (hpush.ok hrun),
        fun _ _ hrun => blind_keepsGlobals.trans hreturned (hpush.error hrun)⟩
  have hwithin : Within KeepsGlobals (execute natives frame ⟨op, operand⟩) := by
    apply within_execute blind_keepsGlobals frame hcall
    · simp [hdefine, hset]
    · exact fun _ _ _ => .of_heap rfl rfl
    · exact fun _ _ _ => .of_heap rfl rfl
    · simp [hclose, hret]
  exact ⟨fun _ => hwithin.ok, fun _ _ => hwithin.error⟩

/-- A name that is interned is that of a global, or of none, as before. -/
lemma globals_intern (hv : m.heap.Valid) (hm : m.Named) :
    m.globals[(m.heap.intern name).1]? = m.global? name := by
  rw [← (blind_keepsGlobals.intern m name).global?_eq hv hm]
  unfold global?
  rw [(hv.intern name).tabled (hv.get?_intern name)]
  rfl

/-- A definition gives a value to a name, and to no other. -/
lemma global?_insert (hv : m.heap.Valid) (hm : m.Named) (hheap : m'.heap = (m.heap.intern name).2)
    (hglobals : m'.globals = m.globals.insert (m.heap.intern name).1 v) :
    m'.Named ∧ m'.global? = assigned m.global? (name, v) := by
  have hkeeps := blind_keepsGlobals.intern m name
  have hget := hv.get?_intern name
  constructor
  · intro id w hid
    rw [hglobals, Std.TreeMap.getElem?_insert] at hid
    rw [hheap]
    split at hid
    · rename_i heq
      rw [Std.compare_eq_iff_eq] at heq
      exact ⟨name, heq ▸ hget⟩
    · exact hkeeps.named hv hm id w hid
  · funext name'
    rw [assigned, ← hkeeps.global?_eq hv hm, global?, hheap, hglobals]
    by_cases heq : name' = name
    · subst heq
      rw [Function.update_self, (hv.intern name').tabled hget, Option.bind_some,
        Std.TreeMap.getElem?_insert_self]
    · rw [Function.update_of_ne heq, global?]
      cases hid : (m.heap.intern name).2.strings[name']? with
      | none => rfl
      | some id =>
        have hother : (m.heap.intern name).1 ≠ id := by
          rintro rfl
          have hget' := (hv.intern name).listed hid
          rw [hget] at hget'
          cases hget'
          exact heq rfl
        rw [Option.bind_some, Option.bind_some, Std.TreeMap.getElem?_insert, if_neg]
        rwa [Std.compare_eq_iff_eq]

lemma peek_back (hv : m.stack.back? = some v) : peek 0 m = .ok v m := by
  have hpos : 0 < m.stack.size := by
    rw [Nat.pos_iff_ne_zero]
    intro hzero
    rw [Array.size_eq_zero_iff.1 hzero] at hv
    cases hv
  rw [peek_apply, if_pos hpos, Array.getD_eq_getD_getElem?, Nat.sub_zero, ← Array.back?_eq_getElem?, hv]
  rfl

lemma execute_defineGlobal (operand : Nat) (hname : frame.chunk.strings.get? operand = some name)
    (hv : m.stack.back? = some v) :
    execute natives frame ⟨.defineGlobal, operand⟩ m = .ok () { m with
      heap := (m.heap.intern name).2
      globals := m.globals.insert (m.heap.intern name).1 v
      stack := m.stack.pop } := by
  unfold execute
  dsimp only
  rw [bind_apply, readString_apply, hname]
  dsimp only
  unfold defineGlobal
  rw [bind_apply, intern_apply]
  dsimp only
  rw [bind_apply, peek_back (m := { m with heap := (m.heap.intern name).2 }) hv]
  dsimp only
  rw [bind_apply, modify_apply]
  dsimp only
  rw [bind_apply, pop_apply, hv]
  rfl

/-- An assignment to a global that is not defined fails before anything is assigned. -/
lemma execute_setGlobal (operand : Nat) (hname : frame.chunk.strings.get? operand = some name)
    (hv : m.stack.back? = some v) :
    execute natives frame ⟨.setGlobal, operand⟩ m =
      if (m.globals[(m.heap.intern name).1]?).isSome then .ok () { m with
        heap := (m.heap.intern name).2
        globals := m.globals.insert (m.heap.intern name).1 v }
      else .error (.runtime (.undefinedVariable name)) { m with heap := (m.heap.intern name).2 } := by
  unfold execute
  dsimp only
  rw [bind_apply, readString_apply, hname]
  dsimp only
  unfold setGlobal
  rw [bind_apply, intern_apply]
  dsimp only
  rw [bind_apply, get_apply, Std.TreeMap.isSome_getElem?_eq_contains]
  dsimp only
  split
  · rw [bind_apply, peek_back (m := { m with heap := (m.heap.intern name).2 }) hv]
    rfl
  · rfl

/-- A definition or an assignment that completes gives the value on top of the stack to the name in
the code.  Only an assignment to a global that is not defined fails. -/
lemma Executing.assigns (natives : Natives) (h : m.Executing frame waiting k n a below) (hm : m.Named)
    (hallows : i.Allows frame.chunk k frame.ip (frame.chunk.Runs k n) a)
    (hi : i.opcode = .defineGlobal ∨ i.opcode = .setGlobal) :
    ∃ name v, frame.chunk.strings.get? i.operand = some name ∧ m.stack.back? = some v ∧
      (∀ m', execute natives frame i m = .ok () m' →
        (i.opcode = .defineGlobal ∨ i.opcode = .setGlobal ∧ (m.global? name).isSome) ∧
          m'.Named ∧ m'.global? = assigned m.global? (name, v)) ∧
      ∀ e m', execute natives frame i m = .error e m' →
        ¬ (i.opcode = .defineGlobal ∨ i.opcode = .setGlobal ∧ (m.global? name).isSome) ∧
          m.KeepsGlobals m' := by
  obtain ⟨op, operand⟩ := i
  have hv := h.sound.heap
  have hshape : operand < frame.chunk.strings.size ∧ a ≠ [] := by
    rcases hi with hdefine | hset
    · cases hdefine
      obtain ⟨hlt, b, rfl, -⟩ := hallows
      exact ⟨hlt, List.cons_ne_nil _ _⟩
    · cases hset
      exact ⟨hallows.1, hallows.2.1⟩
  obtain ⟨v, htop⟩ : ∃ v, m.stack.back? = some v := by
    have hpos : 0 < m.stack.size := by
      have ha := List.length_pos_iff.2 hshape.2
      rw [h.size, List.length_append]
      omega
    exact ⟨m.stack.back hpos, by simp [Array.back?, Array.back]⟩
  obtain ⟨name, hname⟩ : ∃ name, frame.chunk.strings.get? operand = some name :=
    ⟨_, Array.getElem?_eq_getElem hshape.1⟩
  refine ⟨name, v, hname, htop, ?_⟩
  rcases hi with hdefine | hset
  · cases hdefine
    rw [execute_defineGlobal operand hname htop]
    refine ⟨fun m' hrun => ?_, fun e m' hrun => ?_⟩
    · cases hrun
      exact ⟨.inl rfl, global?_insert hv hm rfl rfl⟩
    · cases hrun
  · cases hset
    rw [execute_setGlobal operand hname htop, globals_intern hv hm]
    by_cases hdefined : (m.global? name).isSome
    · rw [if_pos hdefined]
      refine ⟨fun m' hrun => ?_, fun e m' hrun => ?_⟩
      · cases hrun
        exact ⟨.inr ⟨rfl, hdefined⟩, global?_insert hv hm rfl rfl⟩
      · cases hrun
    · rw [if_neg hdefined]
      refine ⟨fun m' hrun => ?_, fun e m' hrun => ?_⟩
      · cases hrun
      · cases hrun
        exact ⟨by simp [hdefined], blind_keepsGlobals.intern m name⟩

end Instructions

/-! ## Steps -/

section Steps

variable {m m' : Machine} {frame : Frame} {n : Nat} {natives : Natives} {i : Instruction}

lemma assignment?_eq (hframe : m.frames.back? = some frame)
    (hdecode : frame.chunk.decode frame.ip = .ok i) :
    m.assignment? = (frame.chunk.strings.get? i.operand).bind fun name => m.stack.back?.bind fun v =>
      if i.opcode = .defineGlobal ∨ i.opcode = .setGlobal ∧ (m.global? name).isSome then
        some (name, v)
      else none := by
  unfold assignment?
  rw [hframe, Option.bind_eq_bind, Option.bind_some, hdecode]
  rfl

/-- What a step does to the globals is what the next instruction announces.  A step that fails does
nothing to them. -/
lemma Running.globals_step (hnatives : ∀ native ∈ natives, native.Lawful ∧ native.Discreet)
    (h : m.Running (n + 1)) (hm : m.Named) (hframe : m.frames.back? = some frame) :
    (∀ m', (do betweenInstructions frame; Machine.step natives frame : MachineM Unit) m = .ok () m' →
      m'.Named ∧ m'.global? = m.assignment?.elim m.global? (assigned m.global?)) ∧
    ∀ e m', (do betweenInstructions frame; Machine.step natives frame : MachineM Unit) m =
        .error e m' → m.assignment? = none ∧ m.KeepsGlobals m' := by
  obtain ⟨i, traced, waiting, k, a, below, hentered⟩ := h.entered hframe natives
  have hv := h.sound.heap
  have hkeeps := keepsGlobals_entered m traced (frame.ip + i.size)
  rw [hentered.step, assignment?_eq hframe hentered.decode]
  by_cases hi : i.opcode = .defineGlobal ∨ i.opcode = .setGlobal
  · obtain ⟨name, v, hname, htop, hok, herror⟩ := hentered.executing.assigns natives
      (hkeeps.named hv hm) hentered.allows hi
    rw [stack_entered] at htop
    rw [hkeeps.global?_eq hv hm] at hok herror
    rw [hname, Option.bind_some, htop, Option.bind_some]
    refine ⟨fun m' hrun => ?_, fun e m' hrun => ?_⟩
    · obtain ⟨hdone, hnamed, hglobals⟩ := hok m' hrun
      rw [if_pos hdone]
      exact ⟨hnamed, hglobals⟩
    · obtain ⟨hnot, hsame⟩ := herror e m' hrun
      rw [if_neg hnot]
      exact ⟨rfl, blind_keepsGlobals.trans hkeeps hsame⟩
  · obtain ⟨hdefine, hset⟩ := not_or.1 hi
    obtain ⟨hok, herror⟩ := hentered.executing.keepsGlobals hnatives hentered.allows hdefine hset
    simp only [hdefine, hset, false_and, or_self, if_false, Option.bind_fun_none]
    refine ⟨fun m' hrun => ?_, fun e m' hrun => ⟨trivial, ?_⟩⟩
    · have hstep := blind_keepsGlobals.trans hkeeps (hok m' hrun)
      exact ⟨hstep.named hv hm, hstep.global?_eq hv hm⟩
    · exact blind_keepsGlobals.trans hkeeps (herror e m' hrun)

end Steps

/-! ## Scripts -/

section Scripts

variable {m : Machine} {natives : Natives} {script : Prototype}

/-- A script is called on an empty stack, or there is no room for it and nothing is on the stack. -/
lemma interpret_zero_cases (natives : Natives) (script : Prototype) (m : Machine) :
    (m.interpret natives 0 script).2 = m.loading script ∨
      0 < m.config.maxStack ∧ 0 < m.config.maxCalls ∧ script.arity = 0 ∧
        (m.interpret natives 0 script).2 = { m.loaded script with
          frames := #[⟨m.scriptId, script.name, script.chunk.getD .empty, 0, 0⟩] } := by
  rw [interpret_eq]
  by_cases hfull : m.config.maxStack ≤ 0
  · rw [if_pos hfull]
    exact .inl rfl
  rw [if_neg hfull, bind_apply, callClosure_apply]
  by_cases harity : ((0 : Nat) : Int) ≠ (FunctionObject.ofPrototype script).arity
  · rw [if_pos harity]
    exact .inl rfl
  rw [if_neg harity]
  by_cases hcalls : (m.loaded script).config.maxCalls ≤ (m.loaded script).frames.size
  · rw [if_pos hcalls]
    exact .inl rfl
  rw [if_neg hcalls]
  exact .inr ⟨Nat.not_le.1 hfull, Nat.not_le.1 hcalls, (not_not.1 harity).symm, rfl⟩

/-- Beginning a script puts two objects on the heap. -/
lemma interpret_zero (natives : Natives) (script : Prototype) (m : Machine) :
    (m.interpret natives 0 script).2.heap = (m.loading script).heap ∧
      (m.interpret natives 0 script).2.globals = m.globals ∧
      (m.interpret natives 0 script).2.config = m.config := by
  rcases interpret_zero_cases natives script m with hbegun | ⟨-, -, -, hbegun⟩
  · rw [hbegun]
    exact ⟨rfl, rfl, rfl⟩
  · rw [hbegun]
    exact ⟨rfl, rfl, rfl⟩

lemma Sound.keepsGlobals_resetStack (h : m.Sound) : m.KeepsGlobals m.resetStack :=
  blind_keepsGlobals.trans (h.keepsGlobals_closeUpvalues 0) (.of_heap rfl rfl)

lemma Sound.keepsGlobals_loading (h : m.Sound) (script : Prototype) :
    m.KeepsGlobals (m.loading script) := by
  have hreset := h.keepsGlobals_resetStack
  have hfunction := blind_keepsGlobals.allocate m.resetStack (.function (.ofPrototype script)) (by simp)
  refine blind_keepsGlobals.trans (blind_keepsGlobals.trans hreset hfunction) ?_
  exact blind_keepsGlobals.allocate _ _ (by simp [Object.newClosure])

lemma Sound.keepsGlobals_interpret (h : m.Sound) (natives : Natives) (script : Prototype) :
    m.KeepsGlobals (m.interpret natives 0 script).2 := by
  obtain ⟨hheap, hglobals, -⟩ := interpret_zero natives script m
  exact blind_keepsGlobals.trans (h.keepsGlobals_loading script) (.of_heap hglobals hheap)

lemma foldl_assigned_succ (next? : Nat → Option (Text × Value)) (n : Nat)
    (globals : Text → Option Value) :
    ((List.range (n + 1)).filterMap next?).foldl assigned globals =
      (next? n).elim (((List.range n).filterMap next?).foldl assigned globals)
        (assigned (((List.range n).filterMap next?).foldl assigned globals)) := by
  rw [List.range_succ, List.filterMap_append, List.foldl_append]
  cases hnext : next? n with
  | none => rw [List.filterMap_cons_none hnext]; rfl
  | some a => rw [List.filterMap_cons_some hnext]; rfl

/-- The globals at a boundary of a script are those to begin with, overridden by what was defined and
assigned at the boundaries before it. -/
theorem Sound.interpret_globals
    (hnatives : ∀ native ∈ natives, native.Lawful ∧ native.Contained ∧ native.Discreet)
    (hscript : script.Verified) (h : m.Sound) (hm : m.Named) (n : Nat) :
    (m.interpret natives n script).2.Named ∧
      (m.interpret natives n script).2.global? =
        ((List.range n).filterMap fun k => (m.interpret natives k script).2.assignment?).foldl
          assigned m.global? := by
  have hcontained : ∀ native ∈ natives, native.Lawful ∧ native.Contained :=
    fun native hmem => ⟨(hnatives native hmem).1, (hnatives native hmem).2.1⟩
  have hdiscreet : ∀ native ∈ natives, native.Lawful ∧ native.Discreet :=
    fun native hmem => ⟨(hnatives native hmem).1, (hnatives native hmem).2.2⟩
  induction n with
  | zero =>
    have hkeeps := h.keepsGlobals_interpret natives script
    exact ⟨hkeeps.named h.heap hm, hkeeps.global?_eq h.heap hm⟩
  | succ n ih =>
    obtain ⟨hnamed, hglobals⟩ := ih
    have hsound := (interpret_keeps hcontained hscript h n).1
    rw [foldl_assigned_succ, ← hglobals]
    rcases h.interpret_succ hcontained hscript n with
      ⟨hframes, hsame⟩ | ⟨hrunning, frame, hframe, hok | ⟨cause, m', herror, hfailed⟩⟩
    · -- The script is over.
      have hnext : (m.interpret natives n script).2.assignment? = none := by
        unfold assignment?
        rw [hframes]
        rfl
      rw [hsame, hnext]
      exact ⟨hnamed, rfl⟩
    · exact ((hrunning 1).globals_step hdiscreet hnamed hframe).1 _ hok
    · obtain ⟨hnext, hkeeps⟩ := ((hrunning 1).globals_step hdiscreet hnamed hframe).2 _ m' herror
      have hsound' : m'.Sound := by
        have hstep := (hrunning 1).step hcontained hframe
        rw [herror] at hstep
        exact hstep.1
      have hreset := blind_keepsGlobals.trans hkeeps hsound'.keepsGlobals_resetStack
      rw [hfailed, hnext]
      exact ⟨hreset.named hsound.heap hnamed, hreset.global?_eq hsound.heap hnamed⟩

end Scripts

end Machine

end Lox
