import Lox.Proofs.Machine.Naming
import Lox.Proofs.Session

/-!
# What a host may do

A session has sources run one after another.  In between a host can do more with its machine: look
at globals and set them, register functions, run scripts that were compiled elsewhere, work on the
stack, and collect garbage.  `HostAction` lists what there is, and a history is any sequence of it.
A run may be given any budget, so that histories also lead to each boundary inside a run.

The globals are a map from names to values after each history (`Vm.history_globals`), although the
machine keeps them by the identities of strings.  `Vm.stored` lists what was stored under names, by
whom ever; the map has for each name what was stored last.
-/

namespace Lox

/-! ## Histories -/

/-- Something that a host does with its machine. -/
inductive HostAction where
  /-- Has a source run, for so many instructions. -/
  | run (budget : Nat) (i : Input)
  /-- Has a script run, whatever its code is. -/
  | execute (budget : Nat) (script : Prototype)
  | setGlobal (name : Text) (v : Value)
  | getGlobal (name : Text)
  | hasGlobal (name : Text)
  | defineNative (host : HostFunction)
  | intern (t : Text)
  | push (v : Value)
  | pop
  | collect

/-- The host function that an action registers, if it does. -/
def HostAction.native? : HostAction → Option Native
  | .defineNative host => some host.native
  | _ => none

namespace Vm

/-- The machine after an action. -/
def act (vm : Vm) : HostAction → Vm
  | .run budget i => (runInput budget vm i).2
  | .execute budget script => (executeWithin budget vm script).2
  | .setGlobal name v => vm.setGlobal name v
  | .getGlobal name => (vm.getGlobal name).2
  | .hasGlobal name => (vm.hasGlobal name).2
  | .defineNative host => vm.defineNative host.name host.arity host.native
  | .intern t => (vm.intern t).2
  | .push v => (vm.perform (Machine.push v)).2
  | .pop => (vm.perform Machine.pop).2
  | .collect => { vm with machine := vm.machine.collect }

/-- The machine after a history. -/
def after (vm : Vm) (acts : List HostAction) : Vm :=
  acts.foldl act vm

section Stored

variable (told : Nat → Array Value → Machine → List (Text × Value))

/-- What an action stores under names. -/
def actStores (vm : Vm) : HostAction → List (Text × Value)
  | .run budget i =>
    match compile i.interactive i.source with
    | .script script =>
      if i.goAhead script then
        Machine.scriptStores told vm.natives budget script { vm.machine with clock := i.clock }
      else []
    | _ => []
  | .execute budget script => vm.machine.scriptStores told vm.natives budget script
  | .setGlobal name v => [(name, v)]
  | .defineNative host => [(host.name, .object (some vm.machine.heap.fresh))]
  | _ => []

/-- What a history stores under names, in this order. -/
def stored (vm : Vm) : List HostAction → List (Text × Value)
  | [] => []
  | a :: acts => vm.actStores told a ++ (vm.act a).stored acts

/-- The host functions tell what they store. -/
def Reported (vm : Vm) : Prop :=
  ∀ (k : Nat) (native : Native), vm.natives[k]? = some native → native.Reports (told k)

end Stored

section Histories

variable {vm : Vm} {a : HostAction} {acts : List HostAction} {globals : Text → Option Value}
  {told : Nat → Array Value → Machine → List (Text × Value)}

/-- Host functions are registered one behind another. -/
lemma natives_act (vm : Vm) (a : HostAction) :
    (vm.act a).natives = vm.natives ++ a.native?.toArray := by
  have hperform : ∀ {α : Type} (f : MachineM α), (vm.perform f).2.natives = vm.natives := by
    intro α f
    unfold perform
    split <;> rfl
  cases a with
  | defineNative host => exact Array.push_eq_append
  | run budget i => exact (natives_runInput budget vm i).trans (Array.append_empty).symm
  | push v => exact (hperform _).trans (Array.append_empty).symm
  | pop => exact (hperform _).trans (Array.append_empty).symm
  | _ => exact (Array.append_empty).symm

lemma natives_after (vm : Vm) (acts : List HostAction) :
    (vm.after acts).natives = vm.natives ++ (acts.filterMap HostAction.native?).toArray := by
  induction acts generalizing vm with
  | nil => exact (Array.append_empty).symm
  | cons a acts ih =>
    refine (ih (vm.act a)).trans ?_
    rw [natives_act, Array.append_assoc]
    congr 1
    cases hnative : a.native? with
    | none => simp [hnative]
    | some native => simp [hnative]

lemma Reported.of_after (h : (vm.after acts).Reported told) : vm.Reported told := by
  intro k native hnative
  refine h k native ?_
  rw [natives_after, Array.getElem?_append_left (Array.getElem?_eq_some_iff.1 hnative).1]
  exact hnative

lemma represents_perform {α : Type} {f : MachineM α} (hf : Machine.Within Machine.Tends f)
    (h : vm.machine.Represents globals) : (vm.perform f).2.machine.Represents globals := by
  unfold perform EStateM.run
  cases hrun : f vm.machine with
  | ok a m => exact h.of_tends (hf.ok hrun)
  | error e m => exact h.of_tends (hf.error hrun)

/-- An action leaves the globals with what it stores. -/
lemma represents_act (hreported : vm.Reported told) (h : vm.machine.Represents globals)
    (a : HostAction) :
    (vm.act a).machine.Represents ((vm.actStores told a).foldl Machine.assigned globals) := by
  cases a with
  | run budget i =>
    have hclock : Machine.Represents { vm.machine with clock := i.clock } globals :=
      h.of_tends (.of_eq rfl rfl rfl)
    rw [act, runInput, interpretWithin, actStores]
    cases hcompile : compile i.interactive i.source with
    | fault f => exact hclock
    | rejected errors => exact hclock
    | script script =>
      dsimp only
      by_cases hgo : i.goAhead script
      · rw [if_pos hgo, if_pos hgo]
        exact hclock.interpret hreported budget script
      · rw [if_neg hgo, if_neg hgo]
        exact hclock
  | execute budget script => exact h.interpret hreported budget script
  | setGlobal name v => exact h.insert name v
  | getGlobal name | hasGlobal name => exact h.of_tends (Machine.blind_tends.intern _ name)
  | defineNative host =>
    have hallocated := h.of_tends (Machine.blind_tends.allocate vm.machine
      (.native ⟨host.name, host.arity, vm.natives.size⟩) (by simp))
    exact hallocated.insert host.name (.object (some vm.machine.heap.fresh))
  | intern t => exact h.of_tends (Machine.blind_tends.intern _ t)
  | push v => exact represents_perform (Machine.within_push Machine.blind_tends.toMild v) h
  | pop => exact represents_perform (Machine.within_pop Machine.blind_tends.toMild) h
  | collect => exact h.of_tends (Machine.tends_collect _)

lemma represents_after (hreported : (vm.after acts).Reported told)
    (h : vm.machine.Represents globals) :
    (vm.after acts).machine.Represents ((vm.stored told acts).foldl Machine.assigned globals) := by
  induction acts generalizing vm globals with
  | nil => exact h
  | cons a acts ih =>
    rw [stored, List.foldl_append]
    have hvm : vm.Reported told := hreported.of_after
    exact ih hreported (represents_act hvm h a)

/-- A new machine has the clock. -/
lemma represents_new (config : MachineConfig) :
    (Vm.new config).machine.Represents
      (Machine.assigned (fun _ => none) ("clock", .object (some 0))) := by
  have hempty : (Machine.new config).Represents fun _ => none := by
    refine ⟨⟨Heap.valid_new config.heap, List.forall_mem_nil _⟩, fun id v hid => ?_, ?_⟩
    · simp [Machine.new] at hid
    · funext name
      simp [Machine.global?, Machine.new, Heap.new]
  have hallocated := hempty.of_tends (Machine.blind_tends.allocate (.new config)
    (.native ⟨"clock", 0, 0⟩) (by simp))
  exact hallocated.insert "clock" (.object (some 0))

end Histories

/-! ## The map of globals -/

/-- To the host and to every program, the globals of the machine are this map. -/
structure Answers (vm : Vm) (globals : Text → Option Value) : Prop where
  get : ∀ name, (vm.getGlobal name).1 = globals name
  has : ∀ name, (vm.hasGlobal name).1 = (globals name).isSome
  /-- Looking up a name does not make an entry for it. -/
  lookup : ∀ name, (vm.getGlobal name).2.machine.globals = vm.machine.globals ∧
    (vm.hasGlobal name).2.machine.globals = vm.machine.globals
  /-- Nor does a program that reads a global, in whatever code this is. -/
  read : ∀ frame operand name, vm.machine.frames.back? = some frame →
    frame.chunk.decode frame.ip = .ok ⟨.getGlobal, operand⟩ →
    frame.chunk.strings.get? operand = some name →
    ∃ m, m.stack = vm.machine.stack ∧ m.globals = vm.machine.globals ∧
      (do Machine.betweenInstructions frame; Machine.step vm.natives frame : MachineM Unit)
          vm.machine =
        match globals name with
        | some v => Machine.push v m
        | none => .error (.runtime (.undefinedVariable name)) m
  /-- An assignment to a name that is not defined fails, and does not make an entry either. -/
  assign : ∀ frame operand name, vm.machine.frames.back? = some frame →
    frame.chunk.decode frame.ip = .ok ⟨.setGlobal, operand⟩ →
    frame.chunk.strings.get? operand = some name → globals name = none →
    ∃ m, m.globals = vm.machine.globals ∧
      (do Machine.betweenInstructions frame; Machine.step vm.natives frame : MachineM Unit)
        vm.machine = .error (.runtime (.undefinedVariable name)) m
  /-- The entries of the table are those of the map: each is for a name, -/
  entries : ∀ id v, vm.machine.globals[id]? = some v ↔
    ∃ name, vm.machine.heap.get? id = some (.string name) ∧ globals name = some v
  /-- and no two are for the same. -/
  distinct : ∀ id ∈ vm.machine.globals, ∀ id' ∈ vm.machine.globals, ∀ name,
    vm.machine.heap.get? id = some (.string name) →
    vm.machine.heap.get? id' = some (.string name) → id = id'

lemma answers {vm : Vm} {globals : Text → Option Value} (h : vm.machine.Represents globals) :
    vm.Answers globals := by
  have hget : ∀ name, (vm.getGlobal name).1 = globals name := by
    intro name
    rw [← h.lookup]
    exact Machine.globals_intern h.heap h.named
  constructor
  case get => exact hget
  case has =>
    intro name
    rw [← hget]
    rfl
  case lookup => exact fun name => ⟨rfl, rfl⟩
  case read =>
    intro frame operand name hframe hdecode hname
    exact h.read hframe hdecode hname vm.natives
  case assign =>
    intro frame operand name hframe hdecode hname hnone
    exact h.assign_undefined hframe hdecode hname hnone vm.natives
  case entries =>
    intro id v
    rw [← h.lookup]
    constructor
    · intro hid
      obtain ⟨name, hname⟩ := h.named id v hid
      exact ⟨name, hname, (Machine.global?_eq_some h.heap).2 ⟨id, hname, hid⟩⟩
    · rintro ⟨name, hname, hvalue⟩
      obtain ⟨id', hname', hid⟩ := (Machine.global?_eq_some h.heap).1 hvalue
      rwa [h.heap.string_unique hname hname']
  case distinct =>
    intro id _ id' _ name hname hname'
    exact h.heap.string_unique hname hname'

lemma isSome_foldl_assigned (log : List (Text × Value)) (globals : Text → Option Value)
    (name : Text) : (log.foldl Machine.assigned globals name).isSome ↔
      (globals name).isSome ∨ ∃ v, (name, v) ∈ log := by
  induction log generalizing globals with
  | nil => simp
  | cons a log ih =>
    obtain ⟨name', v⟩ := a
    rw [List.foldl_cons, ih, Machine.assigned]
    by_cases heq : name = name'
    · subst heq
      rw [Function.update_self]
      exact iff_of_true (.inl rfl) (.inr ⟨v, List.mem_cons_self⟩)
    · rw [Function.update_of_ne heq]
      simp [heq]

/-- Globals are a map by name.  Whatever the host does with its machine and in which order, each
name has the value that was stored last under it, by the host, by a host function or by a program;
and the names that have values are those under which something was stored. -/
theorem history_globals (told : Nat → Array Value → Machine → List (Text × Value))
    (config : MachineConfig) (acts : List HostAction)
    (hreported : ((Vm.new config).after acts).Reported told) :
    let log : List (Text × Value) :=
      ("clock", .object (some 0)) :: (Vm.new config).stored told acts
    let globals := log.foldl Machine.assigned fun _ => none
    ((Vm.new config).after acts).Answers globals ∧
      ∀ name, (globals name).isSome ↔ ∃ v, (name, v) ∈ log := by
  intro log globals
  refine ⟨answers (represents_after hreported (represents_new config)), fun name => ?_⟩
  rw [isSome_foldl_assigned]
  simp

/-- A host function that stores its argument. -/
def keep : Native := fun args => do
  let id ← Machine.intern "kept"
  modify fun m => { m with globals := m.globals.insert id (args.getD 0 .nil) }
  return .nil

/-- A host function and a program that store globals, one of which fails at the end, and a
collection. -/
theorem history_globals_keep :
    let told : Nat → Array Value → Machine → List (Text × Value) :=
      fun k args _ => if k = 1 then [("kept", args.getD 0 .nil)] else []
    let vm := (Vm.new .standard).after [.defineNative ⟨"keep", 1, keep⟩, .setGlobal "x" (.bool true),
      .run 100 ⟨false, "var y = x; keep(y); x = nil; z = y;", fun _ => true, 1⟩, .collect,
      .getGlobal "z"]
    vm.Reported told ∧ (vm.getGlobal "kept").1 = some (.bool true) ∧
      (vm.getGlobal "x").1 = some .nil ∧ (vm.hasGlobal "z").1 = false := by
  intro told vm
  have hnatives : vm.natives = #[Native.clock, keep] := by
    exact natives_after _ _
  have hreported : vm.Reported told := by
    intro k native hnative
    rw [hnatives] at hnative
    match k with
    | 0 =>
      cases hnative
      exact fun args m => .refl m
    | 1 =>
      cases hnative
      exact fun args m => .tail (.refl m) (.setGlobal m "kept" (args.getD 0 .nil))
    | k + 2 => simp at hnative
  obtain ⟨hanswers, -⟩ := history_globals told .standard _ hreported
  refine ⟨hreported, (hanswers.get _).trans ?_, (hanswers.get _).trans ?_,
    (hanswers.has _).trans ?_⟩
  · decide +kernel
  · decide +kernel
  · decide +kernel

end Vm

end Lox
