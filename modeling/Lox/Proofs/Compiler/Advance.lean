import Lox.Proofs.Compiler.Steps

/-!
# Compilation only moves forward

Whatever the source, a step of compilation that completes leaves a state that is *further on*
(`Advances`): tokens are only consumed, errors are only added, code is only appended to the
innermost function, and the functions around it keep theirs.  A step that is aborted still has
only added errors.  `Steady` says so of a step; `steady_parse` says so of the whole grammar, and
the later files use it to carry facts from the end of a compilation back to its middle.
-/

namespace Lox.Compiler

open FunctionScope

/-! ## The relation -/

/-- The tokens that are left, the current one among them, end with the end token. -/
def State.Fed (s : State) : Prop :=
  ((s.current :: s.rest).getLast (List.cons_ne_nil _ _)).kind = .eof

/-- How much code each of the functions around the innermost one has. -/
def State.outerSizes (s : State) : List Nat :=
  s.enclosing.map fun f => f.chunk.code.size

/-- A panic stems from an error that was reported, and so does a note that one was. -/
def State.Reported (s : State) : Prop :=
  (s.panicking ∨ ∃ f ∈ s.scope :: s.enclosing, f.overflowReported) → s.errors.toList ≠ []

/-- What every completed step has in common. -/
structure Advances (s s' : State) : Prop where
  interactive : s'.interactive = s.interactive
  nesting : s'.nesting = s.nesting
  rest : s'.rest <:+ s.rest
  errors : s.errors.toList <+: s'.errors.toList
  reported : s.Reported → s'.Reported
  codeSize : s.scope.chunk.code.size ≤ s'.scope.chunk.code.size
  outer : s'.outerSizes = s.outerSizes
  ahead : s'.current :: s'.rest <:+ s.current :: s.rest

namespace Advances

@[refl] lemma refl (s : State) : Advances s s :=
  ⟨rfl, rfl, List.suffix_refl _, List.prefix_refl _, id, Nat.le_refl _, rfl, List.suffix_refl _⟩

lemma trans {s t u : State} (h : Advances s t) (h' : Advances t u) : Advances s u where
  interactive := h'.interactive.trans h.interactive
  nesting := h'.nesting.trans h.nesting
  rest := h'.rest.trans h.rest
  errors := h.errors.trans h'.errors
  reported := h'.reported ∘ h.reported
  codeSize := Nat.le_trans h.codeSize h'.codeSize
  outer := h'.outer.trans h.outer
  ahead := h'.ahead.trans h.ahead

/-- No step goes past the end token. -/
lemma fed {s t : State} (h : Advances s t) (hs : s.Fed) : t.Fed := by
  obtain ⟨before, hbefore⟩ := h.ahead
  simpa only [State.Fed, ← hbefore, List.getLast_append_of_ne_nil _ (List.cons_ne_nil _ _)] using hs

end Advances

/-! ## Changes of the state -/

/-- A change that concerns the innermost function alone. -/
lemma Advances.of_scope {s : State} {f : FunctionScope}
    (h : s.scope.chunk.code.size ≤ f.chunk.code.size)
    (hover : f.overflowReported = s.scope.overflowReported) : Advances s { s with scope := f } :=
  ⟨rfl, rfl, List.suffix_refl _, List.prefix_refl _, by simp [State.Reported, hover], h, rfl,
    List.suffix_refl _⟩

lemma advances_mapChunk {s : State} {f : Chunk → Chunk}
    (h : s.scope.chunk.code.size ≤ (f s.scope.chunk).code.size) : Advances s (s.mapChunk f) :=
  .of_scope h rfl

lemma advances_report (s : State) (t : Token) (c : CompileError.Cause) :
    Advances s (s.report t c) := by
  rw [State.report]
  split
  · rfl
  · exact ⟨rfl, rfl, List.suffix_refl _, by simp, by simp [State.Reported], Nat.le_refl _, rfl,
      List.suffix_refl _⟩

lemma report_current (s : State) (t : Token) (c : CompileError.Cause) :
    (s.report t c).current = s.current := by
  rw [State.report]
  split <;> rfl

/-- What reading tokens changes: the current token, the rest, and the errors. -/
structure Shifts (ts : List Token) (s s' : State) : Prop where
  frame : s' = { s with
    current := s'.current, rest := s'.rest, panicking := s'.panicking, errors := s'.errors }
  rest : s'.rest <:+ ts
  errors : s.errors.toList <+: s'.errors.toList
  reported : s.Reported → s'.Reported
  ahead : s'.current :: s'.rest <:+ s.current :: ts

lemma shifts_shift (ts : List Token) (s : State) : Shifts ts s (State.shift ts s) := by
  induction ts generalizing s with
  | nil => exact ⟨rfl, List.suffix_refl _, List.prefix_refl _, id, List.suffix_refl _⟩
  | cons t ts ih =>
    rw [State.shift]
    split
    · rename_i why _
      have hreport := advances_report { s with current := t } t (.lexical why)
      obtain ⟨hframe, hrest, herrors, hreported, hahead⟩ :=
        ih ({ s with current := t }.report t (.lexical why))
      refine ⟨?_, hrest.trans (List.suffix_cons t ts), hreport.errors.trans herrors,
        hreported ∘ hreport.reported, ?_⟩
      · rw [hframe]
        simp only [State.report]
        split <;> rfl
      · rw [report_current] at hahead
        exact hahead.trans (List.suffix_cons s.current (t :: ts))
    · exact ⟨rfl, List.suffix_cons t ts, List.prefix_refl _, id, List.suffix_cons s.current _⟩

lemma advances_advance (s : State) : Advances s s.advance := by
  obtain ⟨hframe, hrest, herrors, hreported, hahead⟩ :=
    shifts_shift s.rest { s with previous := s.current }
  rw [State.advance]
  refine ⟨?_, ?_, hrest, herrors, hreported, ?_, ?_, hahead⟩
  · rw [hframe]
  · rw [hframe]
  · exact Nat.le_of_eq (by rw [hframe])
  · rw [hframe]
    rfl

lemma advance_previous (s : State) : s.advance.previous = s.current := by
  rw [State.advance, (shifts_shift s.rest { s with previous := s.current }).frame]

/-- The end is final. -/
lemma Advances.current_of_end {s t : State} (h : Advances s t) (hrest : s.rest = [])
    (hs : s.current.kind = .eof) : t.current.kind = .eof := by
  have hfed : t.Fed := h.fed (by simp [State.Fed, hrest, hs])
  have hdone : t.rest = [] := List.suffix_nil.1 (hrest ▸ h.rest)
  simpa [State.Fed, hdone] using hfed

lemma advance_of_rest {s : State} {u : Token} {us : List Token} (h : s.rest = u :: us)
    (hu : ∀ why, u.kind ≠ .error why) :
    s.advance = { s with previous := s.current, current := u, rest := us } := by
  rw [State.advance, h, State.shift]
  split
  · rename_i why hwhy
    exact absurd hwhy (hu why)
  · rfl

/-- The end is never consumed. -/
lemma advance_of_rest_nil {s : State} (hs : s.rest = []) :
    s.advance = { s with previous := s.current } := by
  rw [State.advance, hs, State.shift]

/-- A token that is not the end token is consumed for good. -/
lemma advance_rest_lt {s : State} (hfed : s.Fed) (h : s.current.kind ≠ .eof) :
    s.advance.rest.length < s.rest.length := by
  cases hrest : s.rest with
  | nil =>
    simp only [State.Fed, hrest, List.getLast_singleton] at hfed
    exact absurd hfed h
  | cons t ts =>
    have hlt : ∀ (ts : List Token) (u : State), (State.shift ts u).rest.length ≤ ts.length :=
      fun ts u => (shifts_shift ts u).rest.length_le
    rw [State.advance, hrest, State.shift]
    split
    · exact Nat.lt_succ_of_le (hlt ts _)
    · exact Nat.lt_succ_self _

/-! ## Steps that advance -/

section Steady

variable {α β : Type}

/-- The step advances if it completes, and adds errors at most if it is aborted. -/
class Steady (f : CompileM α) : Prop where
  spec : ∀ s, (∀ a s', f s = .ok a s' → Advances s s') ∧
    ∀ e s', f s = .error e s' → s.errors.toList <+: s'.errors.toList

lemma Steady.advances {f : CompileM α} (h : Steady f) {s s' : State} {a : α}
    (hf : f s = .ok a s') : Advances s s' :=
  (h.spec s).1 a s' hf

/-- A step that always completes. -/
lemma Steady.of_ok {f : CompileM α} (a : State → α) (t : State → State)
    (hf : ∀ s, f s = .ok (a s) (t s)) (ht : ∀ s, Advances s (t s)) : Steady f := by
  refine ⟨fun s => ?_⟩
  rw [hf s]
  refine ⟨?_, fun _ _ h => (nomatch h)⟩
  rintro _ _ ⟨⟩
  exact ht s

lemma Steady.pure (a : α) : Steady (pure a : CompileM α) :=
  .of_ok (fun _ => a) id (fun _ => rfl) Advances.refl

lemma Steady.get : Steady (get : CompileM State) :=
  .of_ok id id (fun _ => rfl) Advances.refl

lemma Steady.modify {t : State → State} (ht : ∀ s, Advances s (t s)) :
    Steady (modify t : CompileM Unit) :=
  .of_ok (fun _ => ()) t (fun _ => rfl) ht

lemma Steady.throw (e : Abort) : Steady (throw e : CompileM α) :=
  ⟨fun _ => ⟨fun _ _ h => (nomatch h), fun _ _ h => by cases h; exact List.prefix_refl _⟩⟩

lemma Steady.bind {f : CompileM α} {g : α → CompileM β} (hf : Steady f) (hg : ∀ a, Steady (g a)) :
    Steady (f >>= g) := by
  refine ⟨fun s => ?_⟩
  rw [bind_apply]
  cases h : f s with
  | ok a t =>
    have hst := hf.advances h
    exact ⟨fun b u hu => hst.trans ((hg a).advances hu),
      fun e u hu => hst.errors.trans (((hg a).spec t).2 e u hu)⟩
  | error e t =>
    refine ⟨fun _ _ hu => (nomatch hu), ?_⟩
    rintro _ _ ⟨⟩
    exact (hf.spec s).2 e t h

lemma Steady.ite {c : Prop} [Decidable c] {f g : CompileM α} (hf : Steady f) (hg : Steady g) :
    Steady (if c then f else g) := by
  split
  · exact hf
  · exact hg

end Steady

lemma steady_accept (k : Token.Kind) : Steady (accept k) := by
  refine ⟨fun s => ?_⟩
  rw [accept_apply]
  split
  · refine ⟨?_, fun _ _ h => (nomatch h)⟩
    rintro _ _ ⟨⟩
    exact advances_advance s
  · refine ⟨?_, fun _ _ h => (nomatch h)⟩
    rintro _ _ ⟨⟩
    rfl

lemma steady_check (k : Token.Kind) : Steady (check k) :=
  .of_ok _ id (check_apply k) Advances.refl

lemma steady_currentKind : Steady currentKind :=
  .of_ok _ id currentKind_apply Advances.refl

lemma steady_previousLine : Steady previousLine :=
  .of_ok _ id previousLine_apply Advances.refl

lemma steady_codeSize : Steady codeSize :=
  .of_ok _ id codeSize_apply Advances.refl

lemma steady_advance : Steady advance :=
  .modify advances_advance

lemma steady_error (c : CompileError.Cause) : Steady (error c) :=
  .modify fun s => advances_report s s.previous c

lemma steady_errorAtCurrent (c : CompileError.Cause) : Steady (errorAtCurrent c) :=
  .modify fun s => advances_report s s.current c

lemma steady_consume (k : Token.Kind) (w : Expected) : Steady (consume k w) :=
  (steady_check k).bind fun _ => .ite steady_advance (steady_errorAtCurrent _)

lemma steady_loop {step : CompileM Bool} (h : Steady step) (bound : Nat) :
    Steady (loop bound step) := by
  induction bound with
  | zero => exact .throw _
  | succ bound ih => exact h.bind fun _ => .ite ih (.pure _)

/-- Ending a panic keeps the errors. -/
lemma advances_calm (s : State) : Advances s { s with panicking := false } := by
  refine ⟨rfl, rfl, List.suffix_refl _, List.prefix_refl _, fun h hover => h ?_, Nat.le_refl _, rfl,
    List.suffix_refl _⟩
  exact .inr (hover.resolve_left (by simp))

lemma steady_synchronize (bound : Nat) : Steady (synchronize bound) := by
  refine .bind (.modify fun s => ?_) fun _ => steady_loop (.bind .get fun s => ?_) bound
  · exact advances_calm s
  · exact .ite (.pure _) (steady_advance.bind fun _ => .pure _)

/-! ## Emission -/

lemma steady_modifyChunk {f : Chunk → Chunk} (h : ∀ c, c.code.size ≤ (f c).code.size) :
    Steady (modifyChunk f) :=
  .modify fun s => advances_mapChunk (h s.scope.chunk)

lemma steady_modifyGetChunk {f : Chunk → Nat × Chunk} (h : ∀ c, c.code.size ≤ (f c).2.code.size) :
    Steady (modifyGetChunk f) :=
  .of_ok _ _ (modifyGetChunk_apply f) fun s => advances_mapChunk (h s.scope.chunk)

lemma steady_emitOpAt (op : Opcode) (line : UInt32) : Steady (emitOpAt op line) :=
  steady_modifyChunk fun c => by simp [Chunk.writeOp, Chunk.write]

lemma steady_emitOp (op : Opcode) : Steady (emitOp op) :=
  steady_previousLine.bind fun _ => steady_emitOpAt op _

lemma steady_emitByte (b : UInt8) : Steady (emitByte b) :=
  steady_previousLine.bind fun _ => steady_modifyChunk fun c => by simp [Chunk.write]

lemma steady_emitShort (n : Nat) : Steady (emitShort n) :=
  (steady_emitByte _).bind fun _ => steady_emitByte _

lemma steady_emitOpShort (op : Opcode) (n : Nat) : Steady (emitOpShort op n) :=
  (steady_emitOp op).bind fun _ => steady_emitShort n

lemma steady_emitReturn : Steady emitReturn :=
  (steady_emitOp _).bind fun _ => steady_emitOp _

lemma steady_operandOfIndex (index : Nat) : Steady (operandOfIndex index) := by
  refine ⟨fun s => ?_⟩
  rw [operandOfIndex_apply]
  split
  · refine ⟨?_, fun _ _ h => (nomatch h)⟩
    rintro _ _ ⟨⟩
    split
    · rfl
    · -- The note that an error was given is made together with the error.
      rw [State.report]
      split
      · rename_i hpanic
        exact ⟨rfl, rfl, List.suffix_refl _, List.prefix_refl _, fun h _ => h (.inl hpanic),
          Nat.le_refl _, rfl, List.suffix_refl _⟩
      · exact ⟨rfl, rfl, List.suffix_refl _, by simp, by simp [State.Reported], Nat.le_refl _, rfl,
          List.suffix_refl _⟩
  · exact (Steady.pure index).spec s

lemma steady_stringOperand (t : Text) : Steady (stringOperand t) :=
  (steady_modifyGetChunk fun _ => Nat.le_refl _).bind steady_operandOfIndex

lemma steady_emitString (t : Text) : Steady (emitString t) :=
  (steady_stringOperand t).bind fun _ => steady_emitOpShort _ _

lemma steady_emitConstant (bits : UInt64) : Steady (emitConstant bits) :=
  (steady_modifyGetChunk fun _ => Nat.le_refl _).bind fun i =>
    (steady_operandOfIndex i).bind fun _ => steady_emitOpShort _ _

lemma steady_emitJump (op : Opcode) : Steady (emitJump op) :=
  steady_previousLine.bind fun _ => steady_modifyGetChunk fun c => by
    simp [Chunk.emitJump, Chunk.emitJumpByte, Chunk.write]
    omega

lemma steady_patchJump (offset : Nat) : Steady (patchJump offset) := by
  refine .bind .get fun s => ?_
  split
  · exact .throw _
  · exact steady_error _
  · exact steady_modifyChunk fun c => by simp [Chunk.setShort]

lemma steady_emitLoop (start : Nat) : Steady (emitLoop start) :=
  (steady_emitOp _).bind fun _ => steady_codeSize.bind fun _ =>
    .ite ((steady_error _).bind fun _ => steady_emitShort _) (steady_emitShort _)

/-! ## Blocks and variables -/

lemma steady_beginScope : Steady beginScope :=
  .modify fun _ => .of_scope (Nat.le_refl _) rfl

lemma steady_emitDrops (ls : List Local) : Steady (emitDrops ls) := by
  induction ls with
  | nil => exact .pure _
  | cons l ls ih => exact (steady_emitOp _).bind fun _ => ih

lemma endScope_apply (s : State) :
    endScope s = emitDrops (s.scope.locals.span (Local.inBlock s.scope.depth)).1
      { s with scope := { s.scope with
          depth := s.scope.depth - 1
          locals := (s.scope.locals.span (Local.inBlock s.scope.depth)).2 } } := rfl

lemma steady_endScope : Steady endScope := by
  refine ⟨fun s => ?_⟩
  rw [endScope_apply]
  have hstep : Advances s { s with scope := { s.scope with
      depth := s.scope.depth - 1
      locals := (s.scope.locals.span (Local.inBlock s.scope.depth)).2 } } :=
    .of_scope (Nat.le_refl _) rfl
  obtain ⟨hok, herror⟩ := (steady_emitDrops (s.scope.locals.span (Local.inBlock s.scope.depth)).1).spec _
  exact ⟨fun a s' h => hstep.trans (hok a s' h), herror⟩

lemma steady_declareLocal (name : Text) : Steady (declareLocal name) :=
  .bind .get fun _ => .ite (steady_error _) (.ite (steady_error _)
    (.modify fun _ => .of_scope (Nat.le_refl _) rfl))

lemma steady_markInitialized : Steady markInitialized := by
  refine .modify fun s => ?_
  split
  · rfl
  · rfl
  · exact .of_scope (Nat.le_refl _) rfl

lemma steady_parseVariable (w : Expected) : Steady (parseVariable w) :=
  (steady_consume _ w).bind fun _ => .bind .get fun _ =>
    .ite ((steady_declareLocal _).bind fun _ => .pure _) (steady_stringOperand _)

lemma steady_defineVariable (global : Nat) : Steady (defineVariable global) :=
  .bind .get fun _ => .ite steady_markInitialized (steady_emitOpShort _ _)

/-! ## Expressions -/

/-- What capturing a variable leaves alone in a function. -/
def FunctionScope.fixed (f : FunctionScope) : Chunk × Bool :=
  (f.chunk, f.overflowReported)

/-- Capturing a variable leaves all code alone. -/
lemma capture?_fixed {name : Text} {f g : FunctionScope} {outer outer' : List FunctionScope}
    {i : Nat} {errors : List CompileError.Cause}
    (h : f.capture? name outer = some (i, g, outer', errors)) :
    g.fixed = f.fixed ∧ outer'.map fixed = outer.map fixed := by
  have hadd : ∀ (f : FunctionScope) (c : Capture), (f.addCapture c).2.1.fixed = f.fixed := by
    intro f c
    rw [addCapture]
    split
    · rfl
    · split <;> rfl
  induction outer generalizing f g i outer' errors with
  | nil => simp [capture?] at h
  | cons o rest ih =>
    rw [capture?] at h
    split at h
    · simp only [Option.some.injEq, Prod.mk.injEq] at h
      obtain ⟨-, rfl, rfl, -⟩ := h
      exact ⟨hadd _ _, rfl⟩
    · split at h
      · cases h
      · rename_i j o' rest' before hrec
        simp only [Option.some.injEq, Prod.mk.injEq] at h
        obtain ⟨-, rfl, rfl, -⟩ := h
        obtain ⟨ho, hrest⟩ := ih hrec
        exact ⟨hadd _ _, by simp [ho, hrest]⟩

lemma steady_forM_error (cs : List CompileError.Cause) : Steady (cs.forM error) := by
  induction cs with
  | nil => exact .pure _
  | cons c cs ih => exact (steady_error c).bind fun _ => ih

/-- What `resolve` does with a variable of an enclosing function. -/
lemma resolve_apply (name : Text) (s : State) :
    resolve name s = match findLocal name s.scope.locals with
      | some (slot, l) =>
        ((Local.readErrors l).forM error >>= fun _ =>
          pure { read := .getLocal, write := .setLocal, operand := slot }) s
      | none => match s.scope.capture? name s.enclosing with
        | some (i, scope, enclosing, errors) =>
          (errors.forM error >>= fun _ =>
            pure { read := .getUpvalue, write := .setUpvalue, operand := i })
            { s with scope, enclosing }
        | none =>
          (stringOperand name >>= fun i =>
            pure { read := .getGlobal, write := .setGlobal, operand := i }) s := by
  rw [resolve, bind_apply, get_apply]
  dsimp only
  cases findLocal name s.scope.locals with
  | some p => rfl
  | none =>
    cases s.scope.capture? name s.enclosing with
    | some p => rfl
    | none => rfl

lemma advances_capture {name : Text} {s : State} {i : Nat} {scope : FunctionScope}
    {enclosing : List FunctionScope} {errors : List CompileError.Cause}
    (h : s.scope.capture? name s.enclosing = some (i, scope, enclosing, errors)) :
    Advances s { s with scope, enclosing } := by
  obtain ⟨hscope, houter⟩ := capture?_fixed h
  have hchunk : scope.chunk = s.scope.chunk := congrArg Prod.fst hscope
  have hover : (scope :: enclosing).map (·.overflowReported) =
      (s.scope :: s.enclosing).map (·.overflowReported) := by
    have := congrArg (List.map Prod.snd) (congrArg₂ List.cons hscope houter)
    simpa [fixed, Function.comp_def] using this
  have hany : (∃ f ∈ scope :: enclosing, f.overflowReported = true) ↔
      ∃ f ∈ s.scope :: s.enclosing, f.overflowReported = true := by
    have := congrArg (true ∈ ·) hover
    simpa only [List.mem_map, eq_iff_iff] using this
  refine ⟨rfl, rfl, List.suffix_refl _, List.prefix_refl _, ?_, ?_, ?_, List.suffix_refl _⟩
  · simp only [State.Reported, hany]
    exact id
  · simp [hchunk]
  · have := congrArg (List.map fun c : Chunk × Bool => c.1.code.size) houter
    simpa [State.outerSizes, fixed, Function.comp_def] using this

lemma steady_resolve (name : Text) : Steady (resolve name) := by
  refine ⟨fun s => ?_⟩
  rw [resolve_apply]
  split
  · exact ((steady_forM_error _).bind fun _ => .pure _).spec s
  · split
    · rename_i i scope enclosing errors h
      obtain ⟨hok, herror⟩ := ((steady_forM_error errors).bind
        (fun _ => .pure (Access.mk .getUpvalue .setUpvalue i))).spec { s with scope, enclosing }
      exact ⟨fun a s' h' => (advances_capture h).trans (hok a s' h'), herror⟩
    · exact ((steady_stringOperand _).bind fun _ => .pure _).spec s

/-- Something compiled one level deeper. -/
lemma nested_apply (f : CompileM Unit) (s : State) :
    nested f s =
      if maxNesting ≤ s.nesting then .error (.tooDeep s.previous.line) s
      else match f { s with nesting := s.nesting + 1 } with
        | .ok _ s' => .ok () { s' with nesting := s'.nesting - 1 }
        | .error e s' => .error e s' := by
  rw [nested, bind_apply, get_apply]
  dsimp only
  split
  · rfl
  · simp only [bind_apply, set_apply]
    cases f { s with nesting := s.nesting + 1 } <;> rfl

lemma Steady.nested {f : CompileM Unit} (hf : Steady f) : Steady (nested f) := by
  refine ⟨fun s => ?_⟩
  rw [nested_apply]
  split
  · refine ⟨fun _ _ h => (nomatch h), ?_⟩
    rintro _ _ ⟨⟩
    exact List.prefix_refl _
  · obtain ⟨hok, herror⟩ := hf.spec { s with nesting := s.nesting + 1 }
    split
    · rename_i s' h
      have hadv := hok _ _ h
      refine ⟨?_, fun _ _ h => (nomatch h)⟩
      rintro _ _ ⟨⟩
      refine ⟨hadv.interactive, ?_, hadv.rest, hadv.errors, hadv.reported, hadv.codeSize, hadv.outer,
        hadv.ahead⟩
      rw [hadv.nesting, Nat.add_sub_cancel]
    · rename_i e' s' h
      refine ⟨fun _ _ h => (nomatch h), ?_⟩
      rintro _ _ ⟨⟩
      exact herror _ _ h

section Grammar

variable {parse : Parts} (hparse : ∀ ph, Steady (parse ph))
include hparse

lemma steady_compileVariable (canAssign : Bool) : Steady (compileVariable parse canAssign) := by
  refine .bind .get fun s => (steady_resolve _).bind fun a => ?_
  have hassign : Steady (Compiler.advance >>= fun _ => expression parse >>= fun _ =>
      emitOpShort a.write a.operand) :=
    steady_advance.bind fun _ => (hparse _).bind fun _ => steady_emitOpShort _ _
  cases canAssign with
  | false => exact steady_emitOpShort _ _
  | true => exact (steady_check _).bind fun b => .ite hassign (steady_emitOpShort _ _)

lemma steady_compileOpening (canAssign : Bool) (o : Opening) :
    Steady (compileOpening parse canAssign o) := by
  cases o with
  | grouping => exact (hparse _).bind fun _ => steady_consume _ _
  | unary op =>
    exact steady_previousLine.bind fun _ => (hparse _).bind fun _ => steady_emitOpAt _ _
  | «variable» => exact steady_compileVariable hparse canAssign
  | string => exact .bind .get fun _ => steady_emitString _
  | number =>
    refine .bind .get fun s => ?_
    split
    · exact steady_error _
    · exact steady_emitConstant _
  | literal op => exact steady_emitOp op
  | unsupported what => exact steady_error _

lemma steady_compileArguments (bound count : Nat) : Steady (compileArguments parse bound count) := by
  induction bound generalizing count with
  | zero => exact .throw _
  | succ bound ih =>
    have hmore : Steady (accept .comma >>= fun b =>
        if b then compileArguments parse bound (count + 1) else Pure.pure (count + 1)) :=
      (steady_accept _).bind fun _ => .ite (ih _) (.pure _)
    rw [compileArguments]
    exact (hparse _).bind fun _ => .ite ((steady_error _).bind fun _ => hmore) hmore

lemma steady_compileCall (bound : Nat) : Steady (compileCall bound parse) := by
  refine steady_previousLine.bind fun line => (steady_check _).bind fun b => ?_
  have hend : ∀ n : Nat, Steady (consume .rightParen .parenAfterArguments >>= fun _ =>
      emitOpAt .call line >>= fun _ => emitByte (min n maxArguments).toUInt8) := fun n =>
    (steady_consume _ _).bind fun _ => (steady_emitOpAt _ _).bind fun _ => steady_emitByte _
  exact .ite (hend _) ((steady_compileArguments hparse bound 0).bind hend)

lemma steady_compileContinuation (bound : Nat) (c : Continuation) :
    Steady (compileContinuation bound parse c) := by
  cases c with
  | binary op p =>
    exact steady_previousLine.bind fun _ => (hparse _).bind fun _ => steady_emitOpAt _ _
  | and =>
    exact (steady_emitJump _).bind fun _ => (steady_emitOp _).bind fun _ =>
      (hparse _).bind fun _ => steady_patchJump _
  | or =>
    exact (steady_emitJump _).bind fun _ => (steady_emitJump _).bind fun _ =>
      (steady_patchJump _).bind fun _ => (steady_emitOp _).bind fun _ =>
      (hparse _).bind fun _ => steady_patchJump _
  | call => exact steady_compileCall hparse bound
  | unsupported what => exact steady_error _

lemma steady_continueExpression (bound : Nat) (p : Precedence) :
    Steady (continueExpression bound parse p) := by
  refine steady_currentKind.bind fun k => ?_
  split
  · exact .pure _
  · exact .ite (steady_advance.bind fun _ =>
      (steady_compileContinuation hparse bound _).bind fun _ => .pure _) (.pure _)

lemma steady_compileExpression (bound : Nat) (p : Precedence) :
    Steady (compileExpression bound parse p) := by
  refine .nested (steady_advance.bind fun _ => .bind .get fun s => ?_)
  split
  · exact steady_error _
  · refine (steady_compileOpening hparse _ _).bind fun _ =>
      (steady_loop (steady_continueExpression hparse bound p) bound).bind fun _ => ?_
    exact .ite ((steady_accept _).bind fun _ => .ite (steady_error _) (.pure _)) (.pure _)

/-! ## Declarations and statements -/

lemma steady_compileVar : Steady (compileVar parse) := by
  refine (steady_parseVariable _).bind fun global => (steady_accept _).bind fun b => ?_
  have hend : Steady (consume .semicolon .semicolonAfterVariable >>= fun _ =>
      defineVariable global) :=
    (steady_consume _ _).bind fun _ => steady_defineVariable _
  exact .ite ((hparse _).bind fun _ => hend) ((steady_emitOp _).bind fun _ => hend)

lemma steady_compileBlock (bound : Nat) : Steady (compileBlock bound parse) := by
  refine (steady_loop ?_ bound).bind fun _ => steady_consume _ _
  have hstep : Steady (parse .declaration >>= fun _ => Pure.pure true) :=
    (hparse _).bind fun _ => .pure _
  refine (steady_check _).bind fun b => (steady_check _).bind fun b' => ?_
  exact .ite (.pure _) hstep

omit hparse in
lemma steady_compileParameters (bound : Nat) : Steady (compileParameters bound) := by
  induction bound with
  | zero => exact .throw _
  | succ bound ih =>
    have hmore : Steady (parseVariable .parameterName >>= fun parameter =>
        defineVariable parameter >>= fun _ => accept .comma >>= fun b =>
          if b then compileParameters bound else Pure.pure ()) :=
      (steady_parseVariable _).bind fun _ => (steady_defineVariable _).bind fun _ =>
        (steady_accept _).bind fun _ => .ite ih (.pure _)
    refine .bind (.modify fun s => .of_scope (Nat.le_refl _) rfl) fun _ => .bind .get fun s => ?_
    exact .ite ((steady_errorAtCurrent _).bind fun _ => hmore) hmore

omit hparse in
lemma steady_finishFunction : Steady finishFunction :=
  steady_emitReturn.bind fun _ => .bind .get fun _ => .pure _

/-- The part of a function that is compiled in its own scope. -/
def functionBody (bound : Nat) (parse : Parts) : CompileM Prototype := do
  beginScope
  consume .leftParen .parenAfterFunctionName
  unless ← check .rightParen do
    compileParameters bound
  consume .rightParen .parenAfterParameters
  consume .leftBrace .braceBeforeBody
  compileBlock bound parse
  finishFunction

omit hparse in
/-- A function is its body between entering and leaving a scope, and a closure instruction. -/
lemma compileFunction_eq (bound : Nat) (parse : Parts) :
    compileFunction bound parse = (do
      enterFunction
      let prototype ← functionBody bound parse
      leaveFunction
      let index ← modifyGetChunk (·.addFunction prototype)
      emitOpShort .closure (← operandOfIndex index)) := by
  simp only [compileFunction, functionBody, bind_assoc]
  congr 1
  funext _
  congr 1
  funext _
  congr 1
  funext _
  congr 1
  funext b
  cases b <;> simp [bind_assoc]

lemma steady_functionBody (bound : Nat) : Steady (functionBody bound parse) := by
  have hend : Steady (consume .rightParen .parenAfterParameters >>= fun _ =>
      consume .leftBrace .braceBeforeBody >>= fun _ =>
        compileBlock bound parse >>= fun _ => finishFunction) :=
    (steady_consume _ _).bind fun _ => (steady_consume _ _).bind fun _ =>
      (steady_compileBlock hparse bound).bind fun _ => steady_finishFunction
  refine steady_beginScope.bind fun _ => (steady_consume _ _).bind fun _ =>
    (steady_check _).bind fun b => ?_
  exact .ite hend ((steady_compileParameters bound).bind fun _ => hend)

omit hparse in
lemma enterFunction_apply (s : State) :
    enterFunction s = .ok () { s with
      scope := .new .function s.previous.lexeme, enclosing := s.scope :: s.enclosing } := rfl

omit hparse in
/-- Entering a function and leaving it again restores the function around it. -/
lemma Steady.bracket {α β : Type} {f : CompileM α} {g : α → CompileM β} (hf : Steady f)
    (hg : ∀ a, Steady (g a)) :
    Steady (enterFunction >>= fun _ => f >>= fun a => leaveFunction >>= fun _ => g a) := by
  refine ⟨fun s => ?_⟩
  simp only [bind_apply, enterFunction_apply]
  cases h : f { s with
      scope := .new .function s.previous.lexeme, enclosing := s.scope :: s.enclosing } with
  | error e t =>
    refine ⟨fun _ _ h => (nomatch h), ?_⟩
    rintro _ _ ⟨⟩
    have herrors := (hf.spec _).2 e t h
    exact herrors
  | ok a t =>
    have hin := hf.advances h
    have houter : t.outerSizes = s.scope.chunk.code.size :: s.outerSizes := hin.outer
    cases henc : t.enclosing with
    | nil => simp [State.outerSizes, henc] at houter
    | cons scope enclosing =>
      have hleave : leaveFunction t = .ok () { t with scope, enclosing } := by
        simp [leaveFunction, modify_apply, henc]
      have hout : Advances s { t with scope, enclosing } := by
        simp only [State.outerSizes, henc, List.map_cons, List.cons.injEq] at houter
        refine ⟨hin.interactive, hin.nesting, hin.rest, hin.errors, ?_, ?_, houter.2, hin.ahead⟩
        · -- A new function has no errors of its own, and the outer ones stay among the enclosing.
          intro hs hover
          refine hin.reported (fun hnew => hs ?_) ?_
          · simpa [FunctionScope.new] using hnew
          · rw [henc]
            obtain hpanic | ⟨g, hg, hflag⟩ := hover
            · exact .inl hpanic
            · exact .inr ⟨g, List.mem_cons_of_mem _ hg, hflag⟩
        · exact Nat.le_of_eq houter.1.symm
      simp only [hleave]
      obtain ⟨hok, herror⟩ := (hg a).spec { t with scope, enclosing }
      exact ⟨fun b u h => hout.trans (hok b u h), fun e u h => hout.errors.trans (herror e u h)⟩

lemma steady_compileFunction (bound : Nat) : Steady (compileFunction bound parse) := by
  rw [compileFunction_eq]
  refine .bracket (steady_functionBody hparse bound) fun p => ?_
  exact (steady_modifyGetChunk fun _ => Nat.le_refl _).bind fun i =>
    (steady_operandOfIndex i).bind fun _ => steady_emitOpShort _ _

lemma steady_compileFun (bound : Nat) : Steady (compileFun bound parse) :=
  (steady_parseVariable _).bind fun _ => steady_markInitialized.bind fun _ =>
    (steady_compileFunction hparse bound).bind fun _ => steady_defineVariable _

omit hparse in
lemma steady_skipBraces (bound depth : Nat) : Steady (skipBraces bound depth) := by
  induction bound generalizing depth with
  | zero =>
    cases depth with
    | zero => exact .pure _
    | succ depth => exact .throw _
  | succ bound ih =>
    cases depth with
    | zero => exact .pure _
    | succ depth =>
      refine steady_currentKind.bind fun k => ?_
      split
      · exact .pure _
      · exact steady_advance.bind fun _ => ih _
      · exact steady_advance.bind fun _ => ih _
      · exact steady_advance.bind fun _ => ih _

omit hparse in
lemma steady_refuseClass (bound : Nat) : Steady (refuseClass bound) := by
  have hcalm : Steady (modify fun s => { s with panicking := false } : CompileM Unit) :=
    .modify advances_calm
  have hbody : Steady (accept .leftBrace >>= fun b =>
      if b then skipBraces bound 1 >>= fun _ => modify fun s => { s with panicking := false }
      else modify fun s => { s with panicking := false }) :=
    (steady_accept _).bind fun _ => .ite ((steady_skipBraces bound 1).bind fun _ => hcalm) hcalm
  refine (steady_error _).bind fun _ => (steady_accept _).bind fun _ =>
    (steady_accept _).bind fun _ => ?_
  exact .ite ((steady_accept _).bind fun _ => hbody) hbody

omit hparse in
/-- What a declaration is, but for the end of a panic. -/
def declarationBody (bound : Nat) (parse : Parts) : CompileM Unit := do
  if ← accept .classWord then refuseClass bound
  else if ← accept .funWord then compileFun bound parse
  else if ← accept .varWord then compileVar parse
  else parse .statement

omit hparse in
lemma compileDeclaration_eq (bound : Nat) (parse : Parts) :
    compileDeclaration bound parse = nested (declarationBody bound parse >>= fun _ =>
      get >>= fun s : State => if s.panicking then synchronize bound else pure ()) := by
  simp only [compileDeclaration, declarationBody, bind_assoc]
  congr 2
  funext b
  cases b with
  | true => rfl
  | false =>
    simp only [Bool.false_eq_true, if_false, bind_assoc]
    congr 1
    funext b
    cases b with
    | true => rfl
    | false =>
      simp only [Bool.false_eq_true, if_false, bind_assoc]
      congr 1
      funext b
      cases b <;> rfl

lemma steady_compileDeclaration (bound : Nat) : Steady (compileDeclaration bound parse) := by
  have hend : Steady (get >>= fun s : State =>
      if s.panicking then synchronize bound else Pure.pure ()) :=
    .bind .get fun _ => .ite (steady_synchronize bound) (.pure _)
  refine .nested ((steady_accept _).bind fun _ => ?_)
  refine .ite ((steady_refuseClass bound).bind fun _ => hend) ((steady_accept _).bind fun _ => ?_)
  refine .ite ((steady_compileFun hparse bound).bind fun _ => hend)
    ((steady_accept _).bind fun _ => ?_)
  exact .ite ((steady_compileVar hparse).bind fun _ => hend) ((hparse _).bind fun _ => hend)

lemma steady_compilePrint : Steady (compilePrint parse) :=
  (hparse _).bind fun _ => (steady_consume _ _).bind fun _ => steady_emitOp _

lemma steady_compileIf : Steady (compileIf parse) := by
  refine (steady_consume _ _).bind fun _ => (hparse _).bind fun _ =>
    (steady_consume _ _).bind fun _ => (steady_emitJump _).bind fun _ =>
    (steady_emitOp _).bind fun _ => (hparse _).bind fun _ => (steady_emitJump _).bind fun _ =>
    (steady_patchJump _).bind fun _ => (steady_emitOp _).bind fun _ =>
    (steady_accept _).bind fun _ => ?_
  exact .ite ((hparse _).bind fun _ => steady_patchJump _) (steady_patchJump _)

lemma steady_compileWhile : Steady (compileWhile parse) :=
  steady_codeSize.bind fun _ => (steady_consume _ _).bind fun _ => (hparse _).bind fun _ =>
    (steady_consume _ _).bind fun _ => (steady_emitJump _).bind fun _ =>
    (steady_emitOp _).bind fun _ => (hparse _).bind fun _ => (steady_emitLoop _).bind fun _ =>
    (steady_patchJump _).bind fun _ => steady_emitOp _

lemma steady_compileExpressionStatement : Steady (compileExpressionStatement parse) :=
  (hparse _).bind fun _ => .bind .get fun _ => .ite (steady_emitOp _)
    ((steady_consume _ _).bind fun _ => steady_emitOp _)

lemma steady_compileForInitializer : Steady (compileForInitializer parse) :=
  (steady_accept _).bind fun _ => .ite (.pure _) ((steady_accept _).bind fun _ =>
    .ite (steady_compileVar hparse) (steady_compileExpressionStatement hparse))

lemma steady_compileForCondition : Steady (compileForCondition parse) :=
  (steady_accept _).bind fun _ => .ite (.pure _) ((hparse _).bind fun _ =>
    (steady_consume _ _).bind fun _ => (steady_emitJump _).bind fun _ =>
    (steady_emitOp _).bind fun _ => .pure _)

lemma steady_compileForIncrement (start : Nat) : Steady (compileForIncrement parse start) :=
  (steady_accept _).bind fun _ => .ite (.pure _) ((steady_emitJump _).bind fun _ =>
    steady_codeSize.bind fun _ => (hparse _).bind fun _ => (steady_emitOp _).bind fun _ =>
    (steady_consume _ _).bind fun _ => (steady_emitLoop _).bind fun _ =>
    (steady_patchJump _).bind fun _ => .pure _)

lemma steady_compileFor : Steady (compileFor parse) := by
  refine steady_beginScope.bind fun _ => (steady_consume _ _).bind fun _ =>
    (steady_compileForInitializer hparse).bind fun _ => steady_codeSize.bind fun start =>
    (steady_compileForCondition hparse).bind fun exit? =>
    (steady_compileForIncrement hparse start).bind fun _ => (hparse _).bind fun _ =>
    (steady_emitLoop _).bind fun _ => ?_
  cases exit? with
  | none => exact steady_endScope
  | some exit =>
    exact (steady_patchJump _).bind fun _ => (steady_emitOp _).bind fun _ => steady_endScope

lemma steady_compileReturn : Steady (compileReturn parse) := by
  have hvalue : Steady (accept .semicolon >>= fun b =>
      if b then emitReturn else expression parse >>= fun _ =>
        consume .semicolon .semicolonAfterReturnValue >>= fun _ => emitOp .ret) :=
    (steady_accept _).bind fun _ => .ite steady_emitReturn ((hparse _).bind fun _ =>
      (steady_consume _ _).bind fun _ => steady_emitOp _)
  exact .bind .get fun _ => .ite ((steady_error _).bind fun _ => hvalue) hvalue

lemma steady_compileStatement (bound : Nat) : Steady (compileStatement bound parse) := by
  refine (steady_accept _).bind fun _ => .ite (steady_compilePrint hparse) ?_
  refine (steady_accept _).bind fun _ => .ite (steady_compileIf hparse) ?_
  refine (steady_accept _).bind fun _ => .ite (steady_compileReturn hparse) ?_
  refine (steady_accept _).bind fun _ => .ite (steady_compileWhile hparse) ?_
  refine (steady_accept _).bind fun _ => .ite (steady_compileFor hparse) ?_
  refine (steady_accept _).bind fun _ => .ite ?_ (steady_compileExpressionStatement hparse)
  exact steady_beginScope.bind fun _ => (steady_compileBlock hparse bound).bind fun _ =>
    steady_endScope

end Grammar

/-! ## The grammar -/

/-- Every phrase of the grammar moves forward, on any source. -/
theorem steady_parse (fuel : Nat) (ph : Phrase) : Steady (parse fuel ph) := by
  induction fuel generalizing ph with
  | zero => exact .throw _
  | succ fuel ih =>
    cases ph with
    | declaration => exact steady_compileDeclaration ih fuel
    | statement => exact steady_compileStatement ih fuel
    | expression p => exact steady_compileExpression ih fuel p

/-! ## Finding steadiness

Sequences of steady steps are found to be steady by instance resolution. -/

section Instances

variable {α β : Type}

instance (a : α) : Steady (pure a : CompileM α) := .pure a

instance (f : CompileM α) (g : α → CompileM β) [hf : Steady f] [hg : ∀ a, Steady (g a)] :
    Steady (f >>= g) := .bind hf hg

instance (c : Prop) [Decidable c] (f g : CompileM α) [hf : Steady f] [hg : Steady g] :
    Steady (if c then f else g) := .ite hf hg

instance (step : CompileM Bool) (bound : Nat) [h : Steady step] : Steady (loop bound step) :=
  steady_loop h bound

attribute [instance] Steady.get steady_accept steady_check steady_currentKind steady_previousLine
  steady_codeSize steady_advance steady_error steady_errorAtCurrent steady_consume
  steady_synchronize steady_emitOpAt steady_emitOp steady_emitByte steady_emitShort
  steady_emitOpShort steady_emitReturn steady_operandOfIndex steady_stringOperand
  steady_emitString steady_emitConstant steady_emitJump steady_patchJump steady_emitLoop
  steady_beginScope steady_emitDrops steady_endScope steady_declareLocal steady_markInitialized
  steady_parseVariable steady_defineVariable steady_resolve steady_compileParameters
  steady_finishFunction steady_refuseClass steady_parse

instance (f : CompileM Unit) [hf : Steady f] : Steady (nested f) := .nested hf

instance (t : Text) : Steady (modifyGetChunk (·.addString t)) :=
  steady_modifyGetChunk fun _ => Nat.le_refl _

instance (bits : UInt64) : Steady (modifyGetChunk (·.addConstant bits)) :=
  steady_modifyGetChunk fun _ => Nat.le_refl _

instance : Steady (modify fun s => { s with scope := { s.scope with arity := s.scope.arity + 1 } }
    : CompileM Unit) :=
  .modify fun _ => .of_scope (Nat.le_refl _) rfl

instance : Steady (modify fun s => { s with panicking := false } : CompileM Unit) :=
  .modify advances_calm

instance (bound depth : Nat) : Steady (skipBraces bound depth) := steady_skipBraces bound depth

instance (p : Prototype) : Steady (modifyGetChunk (·.addFunction p)) :=
  steady_modifyGetChunk fun _ => Nat.le_refl _

/-- How a for loop ends, with or without a jump that leaves it. -/
lemma steady_exit (exit? : Option Nat) : Steady (match exit? with
    | none => endScope
    | some exit => do
      patchJump exit
      emitOp .pop
      endScope) := by
  cases exit? <;> infer_instance

instance : Steady compileString := .bind .get fun _ => inferInstance

instance : Steady compileNumber := by
  refine .bind .get fun s => ?_
  split <;> infer_instance

variable (fuel bound : Nat)

instance : Steady (expression (parse fuel)) := steady_parse fuel _

instance (canAssign : Bool) (o : Opening) : Steady (compileOpening (parse fuel) canAssign o) :=
  steady_compileOpening (steady_parse fuel) canAssign o

instance (count : Nat) : Steady (compileArguments (parse fuel) bound count) :=
  steady_compileArguments (steady_parse fuel) bound count

instance (c : Continuation) : Steady (compileContinuation bound (parse fuel) c) :=
  steady_compileContinuation (steady_parse fuel) bound c

instance (p : Precedence) : Steady (continueExpression bound (parse fuel) p) :=
  steady_continueExpression (steady_parse fuel) bound p

/-- An expression from its first token on. -/
lemma steady_opened (p : Precedence) (s : State) : Steady (match s.previous.kind.opening? with
    | none => error (.expected .expression)
    | some opening => do
      compileOpening (parse fuel) (p = .assignment) opening
      loop bound (continueExpression bound (parse fuel) p)
      if p = .assignment then
        if ← accept .equal then
          error .invalidAssignmentTarget) := by
  split <;> infer_instance

instance : Steady (blockStep (parse fuel)) :=
  inferInstanceAs (Steady (check .rightBrace >>= fun b => check .eof >>= fun b' =>
    if (b || b') = true then pure false else parse fuel .declaration >>= fun _ => pure true))

instance : Steady (compileBlock bound (parse fuel)) :=
  steady_compileBlock (steady_parse fuel) bound

instance : Steady (functionBody bound (parse fuel)) :=
  steady_functionBody (steady_parse fuel) bound

instance : Steady (compileFunction bound (parse fuel)) :=
  steady_compileFunction (steady_parse fuel) bound

instance : Steady (compileVar (parse fuel)) := steady_compileVar (steady_parse fuel)

instance : Steady (compileFun bound (parse fuel)) := steady_compileFun (steady_parse fuel) bound

instance : Steady (compileExpressionStatement (parse fuel)) :=
  steady_compileExpressionStatement (steady_parse fuel)

instance : Steady (compileForInitializer (parse fuel)) :=
  steady_compileForInitializer (steady_parse fuel)

instance : Steady (compileForCondition (parse fuel)) :=
  steady_compileForCondition (steady_parse fuel)

instance (start : Nat) : Steady (compileForIncrement (parse fuel) start) :=
  steady_compileForIncrement (steady_parse fuel) start

instance : Steady (compilePrint (parse fuel)) := steady_compilePrint (steady_parse fuel)

instance : Steady (compileIf (parse fuel)) := steady_compileIf (steady_parse fuel)

instance : Steady (compileReturn (parse fuel)) := steady_compileReturn (steady_parse fuel)

instance : Steady (compileWhile (parse fuel)) := steady_compileWhile (steady_parse fuel)

instance : Steady (compileFor (parse fuel)) := steady_compileFor (steady_parse fuel)

end Instances

end Lox.Compiler
