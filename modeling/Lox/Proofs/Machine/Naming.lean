import Lox.Proofs.Machine.Globals

/-!
# Globals by name, whatever the code

That the globals of a machine are a map from names to values takes no verified code.  All it needs
is that the strings of the heap are interned and that the names of globals stay on the heap, and no
instruction can break either, be it in its place or not.  `Tends` is what most computations do: they
keep a machine intact, with the globals and the names it has.

What a run stores under names is listed in order by `runStores`.  A host function may store globals
as well, and is asked to tell what it stored (`Native.Reports`).  `Represents` says that the globals by
name are a certain map, and `Represents.run` that they are the map from before with all that the
run has stored.
-/

namespace Lox

namespace Machine

/-- The machine that a computation leaves, whether it completes or not. -/
def left {α : Type} (f : MachineM α) (m : Machine) : Machine :=
  match f m with
  | .ok _ m' | .error _ m' => m'

section Left

variable {α β : Type} {f : MachineM α} {m m' : Machine}

lemma left_ok {a : α} (hrun : f m = .ok a m') : left f m = m' := by
  rw [left, hrun]

lemma left_error {e : Halt} (hrun : f m = .error e m') : left f m = m' := by
  rw [left, hrun]

lemma left_bind_ok {a : α} (hrun : f m = .ok a m') (g : α → MachineM β) :
    left (f >>= g) m = left (g a) m' := by
  rw [left, left, bind_apply, hrun]

lemma left_bind_error {e : Halt} (hrun : f m = .error e m') (g : α → MachineM β) :
    left (f >>= g) m = m' := by
  rw [left, bind_apply, hrun]

lemma Within.left {R : Machine → Machine → Prop} (h : Within R f) (m : Machine) :
    R m (Machine.left f m) := by
  have hm := h m
  unfold Machine.left
  cases hrun : f m with
  | ok a m' =>
    rw [hrun] at hm
    exact hm
  | error e m' =>
    rw [hrun] at hm
    exact hm

/-- Putting a value on the stack does not touch the heap, whether there is room for it or not. -/
lemma heap_left_push (v : Value) (m : Machine) : (left (push v) m).heap = m.heap := by
  rw [left, push_apply]
  by_cases hfull : m.config.maxStack ≤ m.stack.size
  · rw [if_pos hfull]
  · rw [if_neg hfull]

end Left

/-! ## Intact machines -/

/-- An intact machine goes on to an intact machine with the same globals under the same names. -/
def Tends (m m' : Machine) : Prop :=
  m.Intact → m'.Intact ∧ m.KeepsGlobals m'

section Tends

variable {m m' m'' : Machine}

lemma Tends.trans (h : m.Tends m') (h' : m'.Tends m'') : m.Tends m'' := by
  intro hm
  obtain ⟨hm', hkeeps⟩ := h hm
  obtain ⟨hm'', hkeeps'⟩ := h' hm'
  exact ⟨hm'', blind_keepsGlobals.trans hkeeps hkeeps'⟩

/-- The globals stay, and so do the captured variables that are listed. -/
lemma KeepsGlobals.tends (hkeeps : m.KeepsGlobals m')
    (hopened : ∀ u ∈ m'.openUpvalues, u ∈ m.openUpvalues)
    (hupvalues : m.heap.Valid → ∀ u ∈ m'.openUpvalues, m.heap.HasUpvalue u.id →
      m'.heap.HasUpvalue u.id) : m.Tends m' := by
  intro hm
  refine ⟨⟨(hkeeps.2 hm.heap).1, fun u hu => ?_⟩, hkeeps⟩
  exact hupvalues hm.heap u hu (hm.opened u (hopened u hu))

/-- Neither the heap nor what is listed changes. -/
lemma Tends.of_eq (hheap : m'.heap = m.heap) (hopened : m'.openUpvalues = m.openUpvalues)
    (hglobals : m'.globals = m.globals) : m.Tends m' :=
  (KeepsGlobals.of_heap hglobals hheap).tends (by simp [hopened]) fun _ _ _ => by simp [hheap]

lemma blind_tends : Blind Tends where
  refl m := .of_eq rfl rfl rfl
  trans := .trans
  stack m s := .of_eq rfl rfl rfl
  printed m ts := .of_eq rfl rfl rfl
  intern m t := by
    refine (blind_keepsGlobals.intern m t).tends (fun _ hu => hu) fun hv u _ ⟨x, hx⟩ => ?_
    exact ⟨x, hv.get?_intern_of_some hx⟩
  allocate m o ho := by
    refine (blind_keepsGlobals.allocate m o ho).tends (fun _ hu => hu) fun hv u _ ⟨x, hx⟩ => ⟨x, ?_⟩
    show (m.heap.allocate o).2.get? u.id = _
    rw [Heap.get?_allocate, if_neg (Nat.ne_of_lt (hv.below hx)), hx]
  setUpvalue m closure place up := by
    refine (blind_keepsGlobals.setUpvalue m closure place up).tends (fun _ hu => hu)
      fun _ u _ ⟨x, hx⟩ => ⟨x, ?_⟩
    show (m.heap.setUpvalue closure place up).get? u.id = _
    rw [Heap.get?_setUpvalue]
    split
    · rename_i heq
      rw [← heq, hx]
      rfl
    · exact hx
  assign m i x v hi := by
    refine (blind_keepsGlobals.assign m i x v hi).tends (fun _ hu => hu) fun _ u _ ⟨y, hy⟩ => ?_
    show (m.heap.closeUpvalue i v).HasUpvalue u.id
    unfold Heap.HasUpvalue
    rw [Heap.get?_closeUpvalue]
    split
    · exact ⟨.closed v, by rw [hi]; rfl⟩
    · exact ⟨y, hy⟩

lemma tends_closeUpvalues (m : Machine) (last : Nat) : m.Tends (m.closeUpvalues last) := by
  intro hm
  have hkeeps := hm.keepsGlobals_closeUpvalues last
  refine ⟨⟨(hkeeps.2 hm.heap).1, ?_⟩, hkeeps⟩
  have hclosing : ∀ u ∈ m.openUpvalues.takeWhile fun u => decide (last ≤ u.slot),
      m.heap.HasUpvalue u.id :=
    fun u hu => hm.opened u ((List.takeWhile_sublist _).subset hu)
  obtain ⟨-, -, hsame, hclosed⟩ := hm.heap.closeAll hclosing fun u => m.stack.getD u.slot .nil
  rw [Machine.closeUpvalues, List.span_eq_takeWhile_dropWhile]
  dsimp only
  intro u hu
  unfold Heap.HasUpvalue
  by_cases hid : u.id ∈ (m.openUpvalues.takeWhile fun u => decide (last ≤ u.slot)).map
    OpenUpvalue.id
  · obtain ⟨v, hv⟩ := hclosed u.id hid
    exact ⟨_, hv⟩
  · rw [hsame u.id hid]
    exact hm.opened u ((List.dropWhile_sublist _).subset hu)

lemma tends_collect (m : Machine) : m.Tends m.collect := by
  refine (keepsGlobals_collect m).tends (fun _ hu => hu) fun hv u hu ⟨x, hx⟩ => ⟨x, ?_⟩
  refine hv.get?_collect_eq_some.2 ⟨.root ?_, hx⟩
  have hlisted : u.id ∈ m.openUpvalues.map OpenUpvalue.id := List.mem_map_of_mem hu
  simp only [roots, List.mem_append]
  exact .inl (.inr hlisted)

lemma tends_collectIfDue (m : Machine) : m.Tends m.collectIfDue := by
  unfold collectIfDue
  split
  · exact tends_collect m
  · exact blind_tends.refl m

lemma tends_resetStack (m : Machine) : m.Tends m.resetStack := by
  refine (tends_closeUpvalues m 0).trans fun hm => ?_
  exact ⟨⟨hm.heap, List.forall_mem_nil _⟩, .of_heap rfl rfl⟩

end Tends

/-! ## Instructions -/

section Instructions

variable {frame : Frame} {natives : Natives} {i : Instruction}

/-- A slot that is captured gets an upvalue, which is listed. -/
lemma within_tends_captureSlot (slot : Nat) : Within Tends (captureSlot slot) := by
  intro m
  rcases captureSlot_cases slot m with ⟨u, -, -, hrun⟩ | ⟨above, rest, hsplit, -, -, hrun⟩
  · rw [hrun]
    exact blind_tends.refl m
  · rw [hrun]
    intro hm
    have hallocated := blind_tends.allocate m (.upvalue (.onStack slot)) (by simp) hm
    refine ⟨⟨hallocated.1.heap, fun u hu => ?_⟩, hallocated.2.1, hallocated.2.2⟩
    have hold : u ∈ above ++ rest → (m.heap.allocate (.upvalue (.onStack slot))).2.HasUpvalue u.id :=
      fun hmem => hallocated.1.opened u (hsplit ▸ hmem)
    rw [List.mem_append, List.mem_cons] at hu
    rcases hu with hu | rfl | hu
    · exact hold (List.mem_append_left _ hu)
    · exact ⟨.onStack slot, by simp⟩
    · exact hold (List.mem_append_right _ hu)

/-- An instruction that is no call, and neither defines a global nor assigns to one. -/
lemma within_tends_execute (frame : Frame) (hcall : i.opcode ≠ .call)
    (hdefine : i.opcode ≠ .defineGlobal) (hset : i.opcode ≠ .setGlobal) :
    Within Tends (execute natives frame i) := by
  refine within_execute_of_mild blind_tends.toMild frame hcall ?_ (fun _ m fs => .of_eq rfl rfl rfl)
    (fun _ => blind_tends.within_makeClosure within_tends_captureSlot frame i.operand)
    fun _ => tends_closeUpvalues
  rintro (hop | hop)
  · exact absurd hop hdefine
  · exact absurd hop hset

lemma within_tends_callClosure (id : ObjectId) (f : FunctionObject) (given : Nat) :
    Within Tends (callClosure id f given) := by
  intro m
  rw [callClosure_apply]
  by_cases hgiven : (given : Int) ≠ f.arity
  · rw [if_pos hgiven]
    exact blind_tends.refl m
  rw [if_neg hgiven]
  by_cases hfull : m.config.maxCalls ≤ m.frames.size
  · rw [if_pos hfull]
    exact blind_tends.refl m
  · rw [if_neg hfull]
    exact .of_eq rfl rfl rfl

/-- Between instructions a collection may take place and text may be traced. -/
lemma within_tends_betweenInstructions (frame : Frame) :
    Within Tends (betweenInstructions frame) := by
  unfold betweenInstructions traceInstruction
  refine Within.bind (.modify tends_collectIfDue) blind_tends.toMild fun _ => .get fun m => ?_
  split
  · refine Within.bind (.modify fun m => .of_eq rfl rfl rfl) blind_tends.toMild fun _ => ?_
    split
    · exact .throw blind_tends.toMild _
    · exact .modify fun m => .of_eq rfl rfl rfl
  · exact .pure blind_tends.toMild _

end Instructions

end Machine

/-! ## Host functions -/

namespace Machine

/-- What a host function can do to the machine that called it, with what this stores under names.
It may do anything to the stack. -/
inductive HostCall : Machine → List (Text × Value) → Machine → Prop
  | intern (m : Machine) (t : Text) : HostCall m [] { m with heap := (m.heap.intern t).2 }
  | native (m : Machine) (o : NativeObject) :
      HostCall m [] { m with heap := (m.heap.allocate (.native o)).2 }
  | setGlobal (m : Machine) (name : Text) (v : Value) : HostCall m [(name, v)] { m with
      heap := (m.heap.intern name).2
      globals := m.globals.insert (m.heap.intern name).1 v }
  | setStack (m : Machine) (stack : Array Value) : HostCall m [] { m with stack }
  | print (m : Machine) (t : Text) : HostCall m [] { m with printed := m.printed.push t }
  | setClock (m : Machine) (x : Float) : HostCall m [] { m with clock := x }
  | collect (m : Machine) : HostCall m [] m.collect

/-- Several of these, one after another. -/
inductive HostCalls : Machine → List (Text × Value) → Machine → Prop
  | refl (m : Machine) : HostCalls m [] m
  | tail {m m' m'' : Machine} {log log' : List (Text × Value)} :
      HostCalls m log m' → HostCall m' log' m'' → HostCalls m (log ++ log') m''

end Machine

/-- The host function tells what it stores under names, whether it returns or not. -/
def Native.Reports (native : Native) (told : Array Value → Machine → List (Text × Value)) : Prop :=
  ∀ args m, Machine.HostCalls m (told args m) (Machine.left (native args) m)

namespace Machine

/-! ## Maps of globals -/

/-- An intact machine whose globals, by name, are this map. -/
structure Represents (m : Machine) (globals : Text → Option Value) : Prop extends Intact m where
  named : m.Named
  lookup : m.global? = globals

section Represents

variable {m m' : Machine} {globals : Text → Option Value} {log : List (Text × Value)}

lemma Represents.of_tends (h : m.Represents globals) (htends : m.Tends m') :
    m'.Represents globals := by
  obtain ⟨hintact, hkeeps⟩ := htends h.toIntact
  exact ⟨hintact, hkeeps.named h.heap h.named, (hkeeps.global?_eq h.heap h.named).trans h.lookup⟩

/-- A value is stored under a name. -/
lemma Represents.insert (h : m.Represents globals) (name : Text) (v : Value) :
    Represents { m with
      heap := (m.heap.intern name).2
      globals := m.globals.insert (m.heap.intern name).1 v } (assigned globals (name, v)) := by
  obtain ⟨hintact, -⟩ := blind_tends.intern m name h.toIntact
  obtain ⟨hnamed, hlookup⟩ := @global?_insert m { m with
    heap := (m.heap.intern name).2
    globals := m.globals.insert (m.heap.intern name).1 v } name v h.heap h.named rfl rfl
  exact ⟨⟨hintact.heap, hintact.opened⟩, hnamed, hlookup.trans (by rw [h.lookup])⟩

lemma HostCall.represents (hcall : HostCall m log m') (h : m.Represents globals) :
    m'.Represents (log.foldl assigned globals) := by
  cases hcall with
  | intern t => exact h.of_tends (blind_tends.intern m t)
  | native o => exact h.of_tends (blind_tends.allocate m _ (by simp))
  | setGlobal name v => exact h.insert name v
  | setStack | print | setClock => exact h.of_tends (.of_eq rfl rfl rfl)
  | collect => exact h.of_tends (tends_collect m)

lemma HostCalls.represents (hcalls : HostCalls m log m') (h : m.Represents globals) :
    m'.Represents (log.foldl assigned globals) := by
  induction hcalls with
  | refl => exact h
  | tail _ hcall ih =>
    rw [List.foldl_append]
    exact hcall.represents ih

end Represents

/-! ## What runs store -/

section Stores

variable (told : Nat → Array Value → Machine → List (Text × Value)) (natives : Natives)

/-- The next instruction, and the machine that executes it. -/
def upcoming? (m : Machine) : Option (Instruction × Machine) := do
  let frame ← m.frames.back?
  let i ← (frame.chunk.decode frame.ip).toOption
  match (do betweenInstructions frame; setIp (frame.ip + i.size) : MachineM Unit) m with
  | .ok _ m' => some (i, m')
  | .error _ _ => none

/-- The host function that an instruction calls, if it is a call of one, by its place, and the
arguments. -/
def hostCall? (m : Machine) (i : Instruction) : Option (Nat × Array Value) :=
  match m.heap.deref? (m.callee i.operand) with
  | some (.native o) =>
    if i.opcode = .call ∧ i.operand < m.stack.size ∧ (0 ≤ o.arity → (i.operand : Int) = o.arity) ∧
        o.entry < natives.size then
      some (o.entry, m.stack.extract (m.stack.size - i.operand) m.stack.size)
    else none
  | _ => none

/-- What the next instruction stores under names. -/
def stores (m : Machine) : List (Text × Value) :=
  match m.upcoming? with
  | some (i, m') =>
    match m'.hostCall? natives i with
    | some (entry, args) => told entry args m'
    | none => m.assignment?.toList
  | none => []

/-- What a run stores under names. -/
def runStores : (budget : Nat) → Machine → List (Text × Value)
  | 0, _ => []
  | budget + 1, m =>
    match m.frames.back? with
    | none => []
    | some frame =>
      m.stores told natives ++
        match (do betweenInstructions frame; step natives frame : MachineM Unit) m with
        | .ok _ m => runStores budget m
        | .error _ _ => []

/-- What a script stores under names. -/
def scriptStores (budget : Nat) (script : Prototype) (m : Machine) : List (Text × Value) :=
  match loadScript script m with
  | .error _ _ => []
  | .ok closure m =>
    match callClosure closure (.ofPrototype script) 0 m with
    | .error _ _ => []
    | .ok _ m => m.runStores told natives budget

end Stores

section Steps

variable {m : Machine} {frame : Frame} {i : Instruction} {globals : Text → Option Value}
  {natives : Natives} {told : Nat → Array Value → Machine → List (Text × Value)}

lemma peek_empty {m : Machine} (hempty : m.stack.back? = none) :
    peek 0 m = .error (.fault .peekOutOfBounds) m := by
  have hsize : ¬ 0 < m.stack.size := by
    rw [Array.back?_eq_none_iff.1 hempty]
    exact Nat.lt_irrefl 0
  rw [peek_apply, if_neg hsize]

lemma readString_some {chunk : Chunk} {operand : Nat} {name : Text}
    (hname : chunk.strings.get? operand = some name) :
    readString chunk operand m = .ok name m := by
  rw [readString_apply, hname]

lemma readString_none {chunk : Chunk} {operand : Nat} (hname : chunk.strings.get? operand = none) :
    readString chunk operand m = .error (.fault .stringOutOfRange) m := by
  rw [readString_apply, hname]

/-- A definition stores the value on top of the stack, if there is one and the name is in the
code. -/
lemma Represents.defineGlobal (h : m.Represents globals) (frame : Frame) (operand : Nat) :
    (left (execute natives frame ⟨.defineGlobal, operand⟩) m).Represents
      (((frame.chunk.strings.get? operand).bind fun name => m.stack.back?.bind fun v =>
        some (name, v)).toList.foldl assigned globals) := by
  cases hname : frame.chunk.strings.get? operand with
  | none =>
    have hread := readString_none (m := m) hname
    have hleft : left (execute natives frame ⟨.defineGlobal, operand⟩) m = m :=
      left_bind_error hread _
    rw [hleft]
    exact h
  | some name =>
    cases hv : m.stack.back? with
    | some v =>
      rw [left_ok (execute_defineGlobal operand hname hv)]
      exact (h.insert name v).of_tends (.of_eq rfl rfl rfl)
    | none =>
      have hread := readString_some (m := m) hname
      have hleft : left (execute natives frame ⟨.defineGlobal, operand⟩) m =
          { m with heap := (m.heap.intern name).2 } := by
        refine (left_bind_ok hread _).trans ((left_bind_ok (intern_apply name m) _).trans ?_)
        exact left_bind_error (peek_empty (m := { m with heap := (m.heap.intern name).2 }) hv) _
      rw [hleft]
      exact h.of_tends (blind_tends.intern m name)

/-- An assignment stores it if the global is defined as well. -/
lemma Represents.setGlobal (h : m.Represents globals) (frame : Frame) (operand : Nat) :
    (left (execute natives frame ⟨.setGlobal, operand⟩) m).Represents
      (((frame.chunk.strings.get? operand).bind fun name => m.stack.back?.bind fun v =>
        if (globals name).isSome then some (name, v) else none).toList.foldl assigned globals) := by
  cases hname : frame.chunk.strings.get? operand with
  | none =>
    have hread := readString_none (m := m) hname
    have hleft : left (execute natives frame ⟨.setGlobal, operand⟩) m = m :=
      left_bind_error hread _
    rw [hleft]
    exact h
  | some name =>
    have hinterned := h.of_tends (blind_tends.intern m name)
    cases hv : m.stack.back? with
    | some v =>
      have hrun : execute natives frame ⟨.setGlobal, operand⟩ m = _ :=
        execute_setGlobal operand hname hv
      rw [globals_intern h.heap h.named, h.lookup] at hrun
      rw [Option.bind_some, Option.bind_some]
      by_cases hdefined : (globals name).isSome
      · rw [if_pos hdefined] at hrun ⊢
        rw [left_ok hrun]
        exact h.insert name v
      · rw [if_neg hdefined] at hrun ⊢
        rw [left_error hrun]
        exact hinterned
    | none =>
      have hread := readString_some (m := m) hname
      have hleft : left (execute natives frame ⟨.setGlobal, operand⟩) m =
          { m with heap := (m.heap.intern name).2 } := by
        refine (left_bind_ok hread _).trans ((left_bind_ok (intern_apply name m) _).trans ?_)
        refine (left_bind_ok (get_apply _) _).trans ?_
        split
        · exact left_bind_error (peek_empty (m := { m with heap := (m.heap.intern name).2 }) hv) _
        · rfl
      rw [hleft]
      exact hinterned

/-- A call of a host function stores what the function tells, if it takes these arguments. -/
lemma Represents.callNative
    (hnatives : ∀ (k : Nat) (native : Native), natives[k]? = some native → native.Reports (told k))
    (h : m.Represents globals) (o : NativeObject) (given : Nat) :
    (left (callNative natives o given) m).Represents
      ((if (0 ≤ o.arity → (given : Int) = o.arity) ∧ o.entry < natives.size then
        told o.entry (m.stack.extract (m.stack.size - given) m.stack.size) m
        else []).foldl assigned globals) := by
  unfold Machine.callNative
  dsimp only
  by_cases harity : 0 ≤ o.arity ∧ (given : Int) ≠ o.arity
  · rw [if_pos harity, if_neg fun hboth => harity.2 (hboth.1 harity.1)]
    exact h
  rw [if_neg harity]
  have harity' : 0 ≤ o.arity → (given : Int) = o.arity :=
    fun hle => not_not.1 fun hne => harity ⟨hle, hne⟩
  cases hnative : natives[o.entry]? with
  | none =>
    have hsize : ¬ o.entry < natives.size := by
      rw [Array.getElem?_eq_none_iff] at hnative
      omega
    rw [if_neg fun hboth => hsize hboth.2]
    exact h
  | some native =>
    rw [if_pos ⟨harity', (Array.getElem?_eq_some_iff.1 hnative).1⟩]
    have hcalled := (hnatives _ native hnative (m.stack.extract (m.stack.size - given) m.stack.size)
      m).represents h
    dsimp only
    rw [left_bind_ok (get_apply m)]
    cases hrun : native (m.stack.extract (m.stack.size - given) m.stack.size) m with
    | error e m' =>
      rw [left_error hrun] at hcalled
      rw [left_bind_error hrun]
      exact hcalled
    | ok v m' =>
      rw [left_ok hrun] at hcalled
      rw [left_bind_ok hrun, left_bind_ok (modify_apply _ m')]
      have hcut := hcalled.of_tends
        (blind_tends.stack m' (resized m'.stack (m.stack.size - given - 1)))
      exact hcut.of_tends ((within_push blind_tends.toMild v).left _)

/-- A call stores what the host function that is called tells, and nothing if it is none. -/
lemma Represents.call
    (hnatives : ∀ (k : Nat) (native : Native), natives[k]? = some native → native.Reports (told k))
    (h : m.Represents globals) (frame : Frame) (given : Nat) :
    (left (execute natives frame ⟨.call, given⟩) m).Represents
      (((m.hostCall? natives ⟨.call, given⟩).elim [] fun (entry, args) => told entry args m).foldl
        assigned globals) := by
  have hrun := @call_apply natives frame given m
  unfold hostCall?
  by_cases hfew : m.stack.size < given + 1
  · rw [if_pos hfew] at hrun
    rw [left_error hrun]
    split
    · rw [if_neg fun hboth => absurd hboth.2.1 (Nat.not_lt.2 (Nat.lt_succ_iff.1 hfew))]
      exact h
    · exact h
  rw [if_neg hfew] at hrun
  rw [left, hrun, ← left]
  rcases @callValue_cases natives (m.callee given) given m with
    ⟨hforeign, e, herror⟩ | ⟨hforeign, frame', -, hok⟩ | ⟨o, hderef, hnative⟩
  · rw [left_error herror]
    split
    · rename_i o hderef
      exact absurd hderef (hforeign o)
    · exact h
  · rw [left_ok hok]
    split
    · rename_i o hderef
      exact absurd hderef (hforeign o)
    · exact h.of_tends (.of_eq rfl rfl rfl)
  · have hcalled := h.callNative hnatives o given
    rw [hderef, left, hnative, ← left]
    have hgiven : given < m.stack.size := Nat.not_le.1 fun hle => hfew (Nat.lt_succ_of_le hle)
    simp only [hgiven, true_and]
    split at hcalled
    · rename_i htakes
      rw [if_pos htakes]
      exact hcalled
    · rename_i htakes
      rw [if_neg htakes]
      exact hcalled

lemma hostCall?_eq_none (hcall : i.opcode ≠ .call) (natives : Natives) (m : Machine) :
    m.hostCall? natives i = none := by
  unfold hostCall?
  split
  · exact if_neg fun hall => hcall hall.1
  · rfl

/-- Between instructions there may be a collection, and text for the trace. -/
lemma upcoming?_eq (hframe : m.frames.back? = some frame)
    (hdecode : frame.chunk.decode frame.ip = .ok i) (natives : Natives) :
    ∃ traced, m.upcoming? = some (i, m.entered traced (frame.ip + i.size)) ∧
      (do betweenInstructions frame; step natives frame : MachineM Unit) m =
        execute natives { frame with ip := frame.ip + i.size } i
          (m.entered traced (frame.ip + i.size)) := by
  obtain ⟨traced, hbetween⟩ := betweenInstructions_eq hdecode m
  refine ⟨traced, ?_, ?_⟩
  · unfold upcoming?
    rw [hframe, Option.bind_eq_bind, Option.bind_some, hdecode]
    simp only [Except.toOption, Option.bind_eq_bind, Option.bind_some]
    rw [bind_apply, hbetween]
    rfl
  · rw [bind_apply, hbetween]
    unfold step
    rw [hdecode]
    rfl

lemma tends_entered (m : Machine) (traced : Array Text) (ip : Nat) :
    m.Tends (m.entered traced ip) :=
  (tends_collectIfDue m).trans (.of_eq rfl rfl rfl)

/-- A step leaves the globals with what it stores. -/
lemma Represents.step
    (hnatives : ∀ (k : Nat) (native : Native), natives[k]? = some native → native.Reports (told k))
    (h : m.Represents globals) (hframe : m.frames.back? = some frame) :
    (left (do betweenInstructions frame; Machine.step natives frame : MachineM Unit) m).Represents
      ((m.stores told natives).foldl assigned globals) := by
  unfold stores
  cases hdecode : frame.chunk.decode frame.ip with
  | error f =>
    have hnone : m.upcoming? = none := by
      unfold upcoming?
      rw [hframe, Option.bind_eq_bind, Option.bind_some, hdecode]
      rfl
    rw [hnone]
    refine h.of_tends (Within.left ?_ m)
    refine (within_tends_betweenInstructions frame).bind blind_tends.toMild fun _ => ?_
    unfold Machine.step
    rw [hdecode]
    exact .throw blind_tends.toMild _
  | ok i =>
    obtain ⟨traced, hupcoming, hstep⟩ := upcoming?_eq hframe hdecode natives
    have hentered := h.of_tends (tends_entered m traced (frame.ip + i.size))
    rw [left, hstep, ← left, hupcoming]
    dsimp only
    obtain ⟨op, operand⟩ := i
    by_cases hcall : op = .call
    · subst hcall
      have hnone : m.assignment? = none := by
        rw [assignment?_eq hframe hdecode]
        simp
      have hcalled := hentered.call hnatives
        { frame with ip := frame.ip + Instruction.size ⟨.call, operand⟩ } operand
      rw [hnone]
      cases hhost : (m.entered traced (frame.ip + Instruction.size ⟨.call, operand⟩)).hostCall?
          natives ⟨.call, operand⟩ with
      | none =>
        rw [hhost] at hcalled
        exact hcalled
      | some call =>
        rw [hhost] at hcalled
        exact hcalled
    rw [hostCall?_eq_none hcall, assignment?_eq hframe hdecode, h.lookup,
      ← stack_entered m traced (frame.ip + Instruction.size ⟨op, operand⟩)]
    dsimp only
    by_cases hdefine : op = .defineGlobal
    · subst hdefine
      simp only [true_or, if_true]
      exact hentered.defineGlobal _ operand
    by_cases hset : op = .setGlobal
    · subst hset
      simp only [reduceCtorEq, true_and, false_or]
      exact hentered.setGlobal _ operand
    simp only [hdefine, hset, false_and, or_self, if_false, Option.bind_fun_none]
    exact hentered.of_tends ((within_tends_execute _ hcall hdefine hset).left _)

/-- Reading a global puts its value on the stack, or fails if there is none.  It stores nothing. -/
lemma Represents.read (h : m.Represents globals) {operand : Nat} {name : Text}
    (hframe : m.frames.back? = some frame)
    (hdecode : frame.chunk.decode frame.ip = .ok ⟨.getGlobal, operand⟩)
    (hname : frame.chunk.strings.get? operand = some name) (natives : Natives) :
    ∃ m', m'.stack = m.stack ∧ m'.globals = m.globals ∧
      (do betweenInstructions frame; Machine.step natives frame : MachineM Unit) m =
        match globals name with
        | some v => push v m'
        | none => .error (.runtime (.undefinedVariable name)) m' := by
  obtain ⟨traced, -, hstep⟩ := upcoming?_eq hframe hdecode natives
  have hentered := h.of_tends (tends_entered m traced (frame.ip + Instruction.size ⟨.getGlobal, operand⟩))
  rw [hstep]
  have hstack := stack_entered m traced (frame.ip + Instruction.size ⟨.getGlobal, operand⟩)
  have hglobals := globals_entered m traced (frame.ip + Instruction.size ⟨.getGlobal, operand⟩)
  generalize m.entered traced _ = m₁ at hentered hstack hglobals ⊢
  refine ⟨{ m₁ with heap := (m₁.heap.intern name).2 }, hstack, hglobals, ?_⟩
  have hvalue : m₁.globals[(m₁.heap.intern name).1]? = _ :=
    globals_intern hentered.heap hentered.named
  rw [hentered.lookup] at hvalue
  unfold execute
  dsimp only
  rw [bind_apply, readString_some hname]
  dsimp only
  unfold Machine.getGlobal
  rw [bind_apply, intern_apply]
  dsimp only
  rw [bind_apply, get_apply]
  dsimp only
  rw [hvalue]
  cases globals name <;> rfl

/-- Assigning to a global that is not defined fails, and stores nothing. -/
lemma Represents.assign_undefined (h : m.Represents globals) {operand : Nat} {name : Text}
    (hframe : m.frames.back? = some frame)
    (hdecode : frame.chunk.decode frame.ip = .ok ⟨.setGlobal, operand⟩)
    (hname : frame.chunk.strings.get? operand = some name) (hnone : globals name = none)
    (natives : Natives) :
    ∃ m', m'.globals = m.globals ∧
      (do betweenInstructions frame; Machine.step natives frame : MachineM Unit) m =
        .error (.runtime (.undefinedVariable name)) m' := by
  obtain ⟨traced, -, hstep⟩ := upcoming?_eq hframe hdecode natives
  have hentered := h.of_tends (tends_entered m traced (frame.ip + Instruction.size ⟨.setGlobal, operand⟩))
  rw [hstep]
  have hglobals := globals_entered m traced (frame.ip + Instruction.size ⟨.setGlobal, operand⟩)
  generalize m.entered traced _ = m₁ at hentered hglobals ⊢
  refine ⟨{ m₁ with heap := (m₁.heap.intern name).2 }, hglobals, ?_⟩
  have hvalue : m₁.globals[(m₁.heap.intern name).1]? = _ :=
    globals_intern hentered.heap hentered.named
  rw [hentered.lookup, hnone] at hvalue
  unfold execute
  dsimp only
  rw [bind_apply, readString_some hname]
  dsimp only
  unfold Machine.setGlobal
  rw [bind_apply, intern_apply]
  dsimp only
  rw [bind_apply, get_apply]
  dsimp only
  rw [if_neg]
  · rfl
  · rw [← Std.TreeMap.isSome_getElem?_eq_contains, hvalue]
    simp

end Steps

/-! ## Runs -/

section Runs

variable {m : Machine} {globals : Text → Option Value} {natives : Natives}
  {told : Nat → Array Value → Machine → List (Text × Value)}

lemma Represents.run
    (hnatives : ∀ (k : Nat) (native : Native), natives[k]? = some native → native.Reports (told k))
    (h : m.Represents globals) (budget : Nat) :
    (left (Machine.run natives budget) m).Represents
      ((m.runStores told natives budget).foldl assigned globals) := by
  induction budget generalizing m globals with
  | zero => exact h
  | succ budget ih =>
    rw [runStores, left, run_succ_apply]
    cases hframe : m.frames.back? with
    | none => exact h
    | some frame =>
      have hstep := h.step hnatives hframe
      dsimp only
      rw [List.foldl_append]
      cases hrun : (do betweenInstructions frame; Machine.step natives frame : MachineM Unit) m with
      | ok _ m' =>
        rw [left_ok hrun] at hstep
        exact ih hstep
      | error e m' =>
        rw [left_error hrun] at hstep
        exact hstep

lemma Represents.ending {f : MachineM Unit} (h : (left f m).Represents globals) :
    (Machine.ending (f m)).2.Represents globals := by
  cases hrun : f m with
  | ok _ m' =>
    rw [left_ok hrun] at h
    exact h
  | error e m' =>
    rw [left_error hrun] at h
    cases e with
    | runtime cause => exact h.of_tends (tends_resetStack m')
    | fault f => exact h
    | suspended => exact h

/-- What a script leaves is what was there before, with what the script has stored. -/
lemma Represents.interpret
    (hnatives : ∀ (k : Nat) (native : Native), natives[k]? = some native → native.Reports (told k))
    (h : m.Represents globals) (budget : Nat) (script : Prototype) :
    (m.interpret natives budget script).2.Represents
      ((m.scriptStores told natives budget script).foldl assigned globals) := by
  have hloading : (m.loading script).Represents globals := by
    have hreset := h.of_tends (tends_resetStack m)
    have hfunction := hreset.of_tends
      (blind_tends.allocate m.resetStack (.function (.ofPrototype script)) (by simp))
    exact hfunction.of_tends (blind_tends.allocate _ _ (by simp [Object.newClosure]))
  have hloaded : (m.loaded script).Represents globals := hloading.of_tends (.of_eq rfl rfl rfl)
  have hcalled := within_tends_callClosure m.scriptId (.ofPrototype script) 0
  have hload := loadScript_apply script m
  rw [interpret_eq]
  unfold scriptStores
  by_cases hfull : m.config.maxStack ≤ 0
  · rw [if_pos hfull] at hload ⊢
    rw [hload]
    exact hloading
  rw [if_neg hfull] at hload ⊢
  rw [hload]
  dsimp only
  refine Represents.ending ?_
  cases hcall : callClosure m.scriptId (.ofPrototype script) 0 (m.loaded script) with
  | error e m' =>
    rw [left_bind_error hcall]
    exact hloaded.of_tends (hcalled.error hcall)
  | ok _ m' =>
    rw [left_bind_ok hcall]
    exact (hloaded.of_tends (hcalled.ok hcall)).run hnatives budget

end Runs

end Machine

end Lox
