import Lox.Proofs.Frames
import Lox.Proofs.Machine.Lockstep
import Lox.Proofs.Semantics.Programs

/-!
# From one script to the next

What outlives a script is the heap, the globals, what was printed, and the clock
(`Machine.SameStore`).  At the beginning and at the end of a script there is nothing else: its call is
the only one, and its closure is alone on the stack (`Machine.Alone`).  So two machines with the same
store at such a place are in lockstep (`Machine.inStep_started`, `Machine.SameStore.corresponds`).
-/

namespace Lox

namespace Machine

/-! ## The clock -/

lemma blind_clock : Blind fun m m' => m'.clock = m.clock :=
  blind_of_part (fun _ _ => rfl) (fun _ _ => rfl) fun _ _ => rfl

end Machine

/-- The host function does not set the clock. -/
def Native.Timeless (native : Native) : Prop :=
  ∀ args, Machine.Within (fun m m' => m'.clock = m.clock) (native args)

namespace Machine

section Clock

variable {natives : Natives}

lemma within_clock_between (frame : Frame) :
    Within (fun m m' => m'.clock = m.clock) (betweenInstructions frame) := by
  have hcollect : ∀ m : Machine, m.collectIfDue.clock = m.clock := by
    intro m
    unfold collectIfDue
    split <;> rfl
  unfold betweenInstructions traceInstruction
  refine Within.bind (.modify hcollect) blind_clock.toMild fun _ => .get fun m => ?_
  split
  · refine Within.bind (.modify fun _ => rfl) blind_clock.toMild fun _ => ?_
    split
    · exact .throw blind_clock.toMild _
    · exact .modify fun _ => rfl
  · exact .pure blind_clock.toMild _

lemma within_clock_run (hnatives : ∀ native ∈ natives, native.Timeless) (n : Nat) :
    Within (fun m m' => m'.clock = m.clock) (run natives n) := by
  induction n with
  | zero => exact .throw blind_clock.toMild _
  | succ n ih =>
    rw [run]
    refine .get fun m => ?_
    cases m.frames.back? with
    | none => exact .pure blind_clock.toMild _
    | some frame =>
      refine (within_clock_between frame).bind blind_clock.toMild fun _ => ?_
      refine Within.bind ?_ blind_clock.toMild fun _ => ih
      unfold step
      split
      · exact .throw blind_clock.toMild _
      · refine (within_setIp (fun _ _ => rfl) _).bind blind_clock.toMild fun _ => ?_
        exact within_execute_of_natives blind_clock (fun _ _ => rfl) (fun _ _ => rfl) (fun _ _ => rfl)
          (fun _ _ => rfl) hnatives _ _

/-- No script sets the clock. -/
lemma clock_interpret (hnatives : ∀ native ∈ natives, native.Timeless) (m : Machine) (n : Nat)
    (p : Prototype) : (m.interpret natives n p).2.clock = m.clock := by
  have hcalling : Within (fun m m' => m'.clock = m.clock) (do
      callClosure m.scriptId (.ofPrototype p) 0
      run natives n) := by
    refine Within.bind (fun m => ?_) blind_clock.toMild fun _ => within_clock_run hnatives n
    rw [callClosure_apply]
    split_ifs <;> rfl
  rw [interpret_eq]
  split
  · rfl
  · show _ = (m.loaded p).clock
    cases hrun : (do
        callClosure m.scriptId (.ofPrototype p) 0
        run natives n : MachineM Unit) (m.loaded p) with
    | ok _ m' => exact hcalling.ok hrun
    | error e m' =>
      have hclock := hcalling.error hrun
      cases e <;> exact hclock

end Clock

/-! ## Stores -/

/-- What outlives a script is the same in both machines, up to a renaming and up to source lines. -/
structure SameStore (ρ : Renaming) (m m' : Machine) : Prop where
  config : m'.config = { m.config with heap := m'.config.heap }
  heap : m.heap.Corresponds .scripts ρ m'.heap
  globals : GlobalsRenamed ρ m.globals m'.globals
  printed : m'.printed = m.printed
  clock : m'.clock = m.clock

section Stores

variable {S : Pairing} {ρ : Renaming} {m m' n : Machine}

lemma Corresponds.sameStore (hr : m.Corresponds .scripts S ρ m') : m.SameStore ρ m' :=
  ⟨hr.config, hr.heap, hr.globals, hr.printed, hr.clock⟩

lemma SameStore.flip (hr : m.SameStore ρ m') : m'.SameStore ρ.flip m where
  config := by rw [hr.config]
  heap := hr.heap.flip
  globals := hr.globals.flip
  printed := hr.printed.symm
  clock := hr.clock.symm

/-- Without captured variables on the stack, two machines in the same state have the same store. -/
lemma Renamed.sameStore (hr : m.Renamed ρ m') (hm : m.Clear) : m.SameStore ρ m' := by
  have hobject : ∀ {i j : ObjectId}, ρ i j → ∃ o o', m.heap.get? i = some o ∧
      m'.heap.get? j = some o' ∧ o.Corresponds .scripts ρ o' := by
    intro i j hij
    obtain ⟨o, o', ho, ho', hren⟩ := hr.heap.objects hij
    refine ⟨o, o', ho, ho', ?_⟩
    cases hren with
    | string t => exact .string t
    | function f => exact .function ⟨rfl, rfl, rfl, by cases f.chunk <;> constructor; exact .refl _⟩
    | native n => exact .native n
    | closure hmade hus => exact .closure hmade hus
    | onStack slot => exact absurd ho (hm.upvalues i slot)
    | closed hv => exact .closed hv
  exact ⟨hr.config, ⟨hobject, hr.heap.functional, hr.heap.injective, hr.heap.valid, hr.heap.valid'⟩,
    hr.globals, hr.printed, hr.clock⟩

/-- A script that is put on the heap of one machine adds to its store only. -/
lemma SameStore.loading (hr : m.resetStack.SameStore ρ m') (p : Prototype) :
    (m.loading p).SameStore ρ m' := by
  have hkept : ∀ {h : Heap} {o : Object} {id : ObjectId} {x : Object}, h.Valid → h.get? id = some x →
      (h.allocate o).2.get? id = some x := by
    intro h o id x hv hget
    rw [Heap.get?_allocate, if_neg (Nat.ne_of_lt (hv.below hget)), hget]
  have hvalid := hr.heap.valid.allocate (o := .function (.ofPrototype p)) (by simp)
  have hvalid' := hvalid.allocate
    (o := .newClosure (some m.resetStack.heap.fresh) p.captures.size) (by simp [Object.newClosure])
  refine ⟨hr.config, ⟨fun hij => ?_, hr.heap.functional, hr.heap.injective, hvalid', hr.heap.valid'⟩,
    hr.globals, hr.printed, hr.clock⟩
  obtain ⟨o, o', ho, ho', hren⟩ := hr.heap.objects hij
  exact ⟨o, o', hkept hvalid (hkept hr.heap.valid ho), ho', hren⟩

lemma SameStore.collectIfDue (hr : m.SameStore ρ m') : ∃ σ, m.collectIfDue.SameStore σ m' := by
  unfold Machine.collectIfDue
  split
  · refine ⟨ρ.restrict (Heap.Reachable m.heap m.roots), hr.config, hr.heap.collect m.roots, ?_,
      hr.printed, hr.clock⟩
    refine hr.globals.restrict fun hv => ?_
    obtain ⟨hname, hvalue⟩ := mem_roots_of_global hv
    exact ⟨.root hname, fun k hk => .root (hvalue k hk)⟩
  · exact ⟨ρ, hr⟩

/-- The stack and the active calls do not belong to the store. -/
lemma SameStore.of_eq (hr : m.SameStore ρ m') (hconfig : n.config = m.config)
    (hheap : n.heap = m.heap) (hglobals : n.globals = m.globals) (hprinted : n.printed = m.printed)
    (hclock : n.clock = m.clock) : n.SameStore ρ m' where
  config := hconfig ▸ hr.config
  heap := hheap ▸ hr.heap
  globals := hglobals ▸ hr.globals
  printed := hprinted ▸ hr.printed
  clock := hclock ▸ hr.clock

lemma SameStore.entered (hr : m.SameStore ρ m') (traced : Array Text) (ip : Nat) :
    ∃ σ, (m.entered traced ip).SameStore σ m' := by
  obtain ⟨σ, hσ⟩ := hr.collectIfDue
  exact ⟨σ, hσ.of_eq rfl rfl rfl rfl rfl⟩

end Stores

/-! ## A script alone -/

/-- The call of the script is the only one, and its closure is alone on the stack. -/
structure Alone (m : Machine) (frame : Frame) : Prop where
  frames : m.frames = #[frame]
  base : frame.base = 0
  size : m.stack.size = 1
  opened : m.openUpvalues = []

section Alone

variable {S : Pairing} {ρ : Renaming} {m m' : Machine} {frame frame' : Frame} {natives : Natives}
  {p p' : Prototype} {w w' : Chunk} {d : Nat} {a : Chart}

lemma Alone.back? (h : m.Alone frame) : m.frames.back? = some frame := by
  rw [h.frames]
  rfl

lemma alone_started (m : Machine) (p : Prototype) (w : Chunk) :
    (m.started p w).Alone ⟨m.scriptId, p.name, w, 0, 0⟩ :=
  ⟨rfl, rfl, rfl, rfl⟩

lemma SameStore.corresponds (hr : m.SameStore ρ m') (h : m.Alone frame) (h' : m'.Alone frame')
    (hplaces : S frame.chunk frame.ip frame'.chunk frame'.ip) : m.Corresponds .scripts S ρ m' where
  config := hr.config
  heap := hr.heap
  size := h'.size.trans h.size.symm
  slots := by
    intro i (hi : 1 ≤ i)
    rw [Array.getElem?_eq_none (by rw [h.size]; exact hi),
      Array.getElem?_eq_none (by rw [h'.size]; exact hi)]
    exact .none
  frames := by
    rw [h.frames, h'.frames]
    have hlow : ¬ Comparison.scripts.low ≤ frame.base := by
      rw [h.base]
      exact Nat.not_succ_le_zero 0
    exact .cons ⟨⟨h'.base.trans h.base.symm, fun hle => absurd hle hlow, fun _ => hplaces⟩,
      fun hle => absurd hle hlow⟩ .nil
  opened := by
    rw [h.opened, h'.opened]
    exact .nil
  upvalues := by
    rw [h.opened]
    exact List.forall_mem_nil _
  globals := hr.globals
  printed := hr.printed
  traced := fun h => absurd h Nat.one_ne_zero
  clock := hr.clock

lemma Corresponds.alone (hr : m.Corresponds .scripts S ρ m') (h : m.Alone frame) :
    ∃ frame', m'.Alone frame' ∧ S frame.chunk frame.ip frame'.chunk frame'.ip := by
  have hframes := hr.frames
  rw [h.frames] at hframes
  obtain ⟨frame', rest, hframe, hrest, hlist⟩ := List.forall₂_cons_left_iff.1 hframes
  rw [List.forall₂_nil_left_iff.1 hrest] at hlist
  have hopened := hr.opened
  rw [h.opened, List.forall₂_nil_left_iff] at hopened
  refine ⟨frame', ⟨Array.toList_inj.1 hlist, hframe.base.trans h.base, hr.size.trans h.size, hopened⟩, ?_⟩
  exact hframe.below (by rw [h.base]; exact Nat.one_pos)

end Alone

end Machine

/-! ## Scripts -/

/-- Code of a script: it takes no arguments, captures nothing, is verified and regular. -/
structure Prototype.IsScript (p : Prototype) (w : Chunk) : Prop where
  chunk : p.chunk = some w
  arity : p.arity = 0
  captures : p.captures = #[]
  verified : p.Verified
  regular : p.Regular

lemma isScript_of_compile {interactive : Bool} {source : Text} {p : Prototype} {w : Chunk}
    (h : compile interactive source = .script p) (hw : p.chunk = some w) : p.IsScript w where
  chunk := hw
  arity := by
    obtain ⟨body, last, s, c, g, line, -, -, -, -, -, hemits, rfl⟩ := compile_eq_script h
    exact congrArg Nat.cast hemits.widens.arity
  captures := captures_of_compile h
  verified := compile_verified h
  regular := regular_of_compile h

namespace Machine

/-- A sound machine on which all code is regular and closures have what they capture. -/
structure Ready (m : Machine) : Prop where
  sound : m.Sound
  regular : m.heap.Regular
  attached : m.heap.Attached

section Scripts

variable {ρ : Renaming} {m m' : Machine} {frame frame' : Frame} {natives : Natives}
  {p : Prototype} {w w' : Chunk} {d : Nat} {a : Chart}

lemma Ready.layered_started (h : m.Ready) (hp : p.IsScript w) (hstack : 0 < m.config.maxStack)
    (hcalls : 0 < m.config.maxCalls) :
    (m.started p w).Layered ∧ (m.started p w).heap.Regular ∧ ∀ k, (m.started p w).Running k := by
  have hbegun : m.interpret #[] 0 p = (.suspended, m.started p w) :=
    interpret_started hstack hcalls hp.arity hp.chunk #[] 0
  have horderly := h.sound.intact.interpret_zero_orderly h.regular h.attached hp.regular hp.captures #[]
  rw [hbegun] at horderly
  refine ⟨horderly.layered, horderly.regular, ?_⟩
  rcases h.sound.interpret_cases hp.verified #[] fun _ => True with
    ⟨e, m₁, -, -, hframes, -, hinterpret⟩ | ⟨m₁, hrunning, -, hinterpret⟩
  · have hsame : m.started p w = m₁ := congrArg Prod.snd (hbegun.symm.trans (hinterpret 0))
    rw [← hsame] at hframes
    cases hframes
  · have hsame : m.started p w = m₁ := congrArg Prod.snd (hbegun.symm.trans (hinterpret 0))
    exact hsame ▸ hrunning

/-- A script that begins is in lockstep with one that stands, on the same store, where the same code
begins. -/
lemma Ready.inStep (h : m.Ready) (hp : p.IsScript w) (hstack : 0 < m.config.maxStack)
    (hcalls : 0 < m.config.maxCalls) (hr : (m.started p w).SameStore ρ m') (halone : m'.Alone frame)
    (hchunk : frame.chunk = w') (hip : frame.ip = d) (a : Chart) :
    InStep w w' d a (m.started p w) m' := by
  obtain ⟨hlayered, hregular, hrunning⟩ := h.layered_started hp hstack hcalls
  refine ⟨⟨ρ, hr.corresponds (alone_started m p w) halone ?_⟩, hlayered, hrunning, hregular⟩
  exact ⟨rfl, hchunk, hip, a.marks_zero⟩

/-- The lowest call is that of the script. -/
lemma InStep.chunk_eq (h : InStep w w' d a m m') (hback : m.frames.back? = some frame)
    (hbase : frame.base = 0) : frame.chunk = w := by
  obtain ⟨ρ, hr⟩ := h.corresponds
  rcases hr.back? with ⟨hnone, -⟩ | ⟨f, frame', hf, -, hframe⟩
  · rw [hback] at hnone
    cases hnone
  · obtain rfl : f = frame := by
      rw [hback] at hf
      exact (Option.some.inj hf).symm
    exact (hframe.below (by rw [hbase]; exact Nat.one_pos)).1

/-- The end of the code is never come to. -/
lemma InStep.not_atEnd (h : InStep w w' d a m m') (hwhole : a.code.size = w.code.size) :
    ¬ m.AtEnd a := by
  rintro ⟨frame, hback, hbase, hip⟩
  obtain ⟨i, traced, waiting, k, b, below, hentered⟩ := (h.running 1).entered hback #[]
  have hlt := Chunk.lt_of_decode hentered.decode
  rw [h.chunk_eq hback hbase, hip, hwhole] at hlt
  exact Nat.lt_irrefl _ hlt

/-- At the end of a stretch that leaves nothing on the stack, the scripts are alone again. -/
lemma InStep.alone (h : InStep w w' d a m m') (hat : m.AtEnd a) {height : Nat → Nat}
    (hbalanced : w.Balanced 0 height) (hheight : height a.code.size = 1) :
    ∃ frame frame', m.Alone frame ∧ m'.Alone frame' ∧ frame.chunk = w ∧ frame.ip = a.code.size ∧
      frame'.chunk = w' ∧ frame'.ip = d + a.code.size := by
  obtain ⟨ρ, hr⟩ := h.corresponds
  obtain ⟨frame, hback, hbase, hip⟩ := hat
  cases h.layered with
  | idle hframes _ _ =>
    rw [hframes] at hback
    cases hback
  | @call g waiting arity height' htopped =>
    obtain rfl : g = frame := by
      rw [htopped.frames, Array.back?_push] at hback
      exact Option.some.inj hback
    have hwaiting : waiting = #[] := by
      by_contra hne
      have hpos := Array.size_pos_iff.2 hne
      have hlt := htopped.waiting.base_lt _ (Array.getElem_mem hpos)
      omega
    obtain rfl : arity = 0 := htopped.seated.script hbase
    have hframes : m.frames = #[g] := by rw [htopped.frames, hwaiting]; rfl
    have hmem : g ∈ m.frames := by simp [hframes]
    have hchunk := h.chunk_eq hback hbase
    have hsame := htopped.seated.balanced.height_eq (hchunk ▸ hbalanced) htopped.reaches
    have hsize : m.stack.size = 1 := by
      rw [htopped.size, hbase, Nat.zero_add, ← hsame, hip, hheight]
    have hopened : m.openUpvalues = [] := by
      refine List.eq_nil_iff_forall_not_mem.2 fun u hu => ?_
      have hlt := (h.running 0).slot_lt u hu
      have hne := htopped.apart u hu g hmem
      omega
    have halone : m.Alone g := ⟨hframes, hbase, hsize, hopened⟩
    obtain ⟨frame', halone', -, hchunk', hip', -⟩ := hr.alone halone
    exact ⟨g, frame', halone, halone', hchunk, hip, hchunk', by rw [hip', hip]⟩

end Scripts

/-! ## The end of a script -/

/-- The script is about to return, which it does at its end only. -/
def Returning (m : Machine) : Prop :=
  ∃ frame, m.frames = #[frame] ∧ frame.chunk.decode frame.ip = .ok ⟨.loadNil, 0⟩ ∧
    frame.chunk.decode (frame.ip + 1) = .ok ⟨.ret, 0⟩

section Returning

variable {ρ : Renaming} {m m' : Machine} {frame : Frame} {natives : Natives}

lemma frames_entered (h : m.frames = #[frame]) (traced : Array Text) (ip : Nat) :
    (m.entered traced ip).frames = #[{ frame with ip }] := by
  have hframes : m.collectIfDue.frames = (#[] : Array Frame).push frame :=
    (frames_collectIfDue m).trans h
  exact modify_last hframes ({ · with ip })

lemma returned_of_closed (h : m.openUpvalues = []) (base : Nat) : m.returned base =
    { m with frames := m.frames.pop, stack := resized m.stack.pop base, openUpvalues := [] } := by
  unfold returned closeUpvalues
  dsimp only
  rw [h]
  rfl

/-- With no captured variables on the stack, clearing it leaves the store. -/
lemma SameStore.resetStack (hr : m.SameStore ρ m') (hopened : m.openUpvalues = []) :
    m.resetStack.SameStore ρ m' := by
  have hheap : m.resetStack.heap = m.heap := by
    unfold Machine.resetStack closeUpvalues
    rw [hopened]
    rfl
  exact hr.of_eq rfl hheap rfl rfl rfl

/-- The call of the script ends, and nothing is left but the store. -/
lemma SameStore.run_ret (hr : m.SameStore ρ m') (hframes : m.frames = #[frame]) (hbase : frame.base = 0)
    (hopened : m.openUpvalues = []) (hpos : 0 < m.stack.size)
    (hret : frame.chunk.decode frame.ip = .ok ⟨.ret, 0⟩) (natives : Natives) :
    ∃ n σ, (∀ k, run natives (k + 2) m = .ok () n) ∧ n.SameStore σ m' ∧
      n.stack = #[] ∧ n.frames = #[] ∧ n.openUpvalues = [] := by
  obtain ⟨traced, hstep⟩ := between_step_eq hret natives m
  obtain ⟨σ, hr₁⟩ := hr.entered traced (frame.ip + 1)
  have hframes₁ := frames_entered hframes traced (frame.ip + 1)
  have hopened₁ := (openUpvalues_entered m traced (frame.ip + 1)).trans hopened
  have hpos₁ : 0 < (m.entered traced (frame.ip + 1)).stack.size := by rwa [stack_entered]
  have hlast : (m.entered traced (frame.ip + 1)).frames.pop = #[] := by
    rw [hframes₁]
    rfl
  have hreturn := doReturn_apply { frame with ip := frame.ip + 1 } hpos₁
  rw [if_pos (by rw [hlast]; rfl), returned_of_closed hopened₁] at hreturn
  have hdone := hstep.trans hreturn
  generalize m.entered traced (frame.ip + 1) = m₁ at hr₁ hlast hdone
  refine ⟨{ m₁ with
      frames := m₁.frames.pop
      stack := resized m₁.stack.pop frame.base
      openUpvalues := [] }, σ, fun k => ?_, hr₁.of_eq rfl rfl rfl rfl rfl, ?_, hlast, rfl⟩
  · have hback : m.frames.back? = some frame := by
      rw [hframes]
      rfl
    rw [run_active natives hback, hdone]
    dsimp only
    rw [run_succ_apply]
    dsimp only
    rw [hlast]
    rfl
  · exact Array.size_eq_zero_iff.1 ((size_resized _ _).trans hbase)

/-- The script puts nil on the stack, if there is room, and leaves. -/
lemma Alone.returns (h : m.Alone frame) (hnil : frame.chunk.decode frame.ip = .ok ⟨.loadNil, 0⟩)
    (hret : frame.chunk.decode (frame.ip + 1) = .ok ⟨.ret, 0⟩) (hroom : 1 < m.config.maxStack)
    (hr : m.SameStore ρ m') (natives : Natives) :
    ∃ n σ, (∀ k, run natives (k + 3) m = .ok () n) ∧ n.SameStore σ m' ∧
      n.stack = #[] ∧ n.frames = #[] ∧ n.openUpvalues = [] := by
  obtain ⟨traced, hstep⟩ := between_step_eq hnil natives m
  obtain ⟨σ, hr₁⟩ := hr.entered traced (frame.ip + 1)
  have hpush : execute natives { frame with ip := frame.ip + 1 } ⟨.loadNil, 0⟩
      (m.entered traced (frame.ip + 1)) = .ok () { m.entered traced (frame.ip + 1) with
        stack := (m.entered traced (frame.ip + 1)).stack.push .nil } := by
    refine (push_apply .nil _).trans (if_neg ?_)
    rw [config_entered, stack_entered, h.size]
    exact Nat.not_le.2 hroom
  have hr₂ : SameStore σ { m.entered traced (frame.ip + 1) with
      stack := (m.entered traced (frame.ip + 1)).stack.push .nil } m' :=
    hr₁.of_eq rfl rfl rfl rfl rfl
  have hpos : 0 < ((m.entered traced (frame.ip + 1)).stack.push .nil).size :=
    Array.size_push _ ▸ Nat.succ_pos _
  obtain ⟨n, τ, hrun, hleft⟩ := hr₂.run_ret (frames_entered h.frames traced (frame.ip + 1)) h.base
    ((openUpvalues_entered m traced (frame.ip + 1)).trans h.opened) hpos hret natives
  refine ⟨n, τ, fun k => ?_, hleft⟩
  rw [run_active natives h.back?, hstep.trans hpush]
  exact hrun k

/-- There is no room. -/
lemma Alone.overflows (h : m.Alone frame) (hnil : frame.chunk.decode frame.ip = .ok ⟨.loadNil, 0⟩)
    (hroom : m.config.maxStack ≤ 1) (natives : Natives) :
    ∃ n, ∀ k, run natives (k + 1) m = .error (.runtime .stackOverflow) n := by
  obtain ⟨traced, hstep⟩ := between_step_eq hnil natives m
  refine ⟨m.entered traced (frame.ip + 1), fun k => ?_⟩
  have hpush : execute natives
      { frame with ip := frame.ip + Instruction.size ⟨.loadNil, 0⟩ } ⟨.loadNil, 0⟩
      (m.entered traced (frame.ip + Instruction.size ⟨.loadNil, 0⟩)) =
        .error (.runtime .stackOverflow) (m.entered traced (frame.ip + 1)) := by
    refine (push_apply .nil _).trans (if_pos ?_)
    rw [config_entered, stack_entered, h.size]
    exact hroom
  rw [run_active natives h.back?, hstep, hpush]

end Returning

end Machine

end Lox
