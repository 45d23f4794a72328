import Lox.Proofs.Grammar
import Lox.Proofs.Compiler.Advance
import Lox.Proofs.Compiler.Growth

/-!
# Steps without errors

If a compilation ends without an error, then there was none on the way, because errors are never
taken back: every check succeeded.  `Yields f s P` says that a step which completes from `s`
without an error establishes `P`, and `Yields.bind` composes such facts along a sequence of steps.

`Reads s ts c t` says that between the states `s` and `t` the tokens `ts` were consumed and the
code `c` was appended.  This file has one `yields_` lemma for each step of the vocabulary in
`Lox.Compiler.Emit`; the phrases of the grammar follow in `Lox.Proofs.Compiler.Reading.Expression`
and `Lox.Proofs.Compiler.Reading.Statement`.
-/

namespace Lox.Compiler

open FunctionScope

/-! ## States without errors -/

/-- What holds of every state of a compilation. -/
structure Sane (s : State) : Prop where
  reported : s.Reported
  fed : s.Fed

lemma Sane.of_advances {s t : State} (h : Sane s) (hst : Advances s t) : Sane t :=
  ⟨hst.reported h.reported, hst.fed h.fed⟩

/-- No error at the end means no error before. -/
lemma Advances.errors_nil {s t : State} (h : Advances s t) (ht : t.errors.toList = []) :
    s.errors.toList = [] := by
  have hpre := h.errors
  rw [ht] at hpre
  exact List.prefix_nil.1 hpre

lemma Sane.report_errors_ne_nil {s : State} (hs : Sane s) (t : Token) (c : CompileError.Cause) :
    (s.report t c).errors.toList ≠ [] := by
  rw [State.report]
  split
  · rename_i hpanic
    exact hs.reported (.inl hpanic)
  · simp

/-! ## Sequences of steps -/

section Yields

variable {α β : Type}

/-- If the step completes from `s` without an error, then it establishes `P`. -/
def Yields (f : CompileM α) (s : State) (P : α → State → Prop) : Prop :=
  Sane s → ∀ a t, f s = .ok a t → t.errors.toList = [] → P a t

namespace Yields

variable {f : CompileM α} {g : α → CompileM β} {s t : State} {a : α} {P P' : α → State → Prop}
  {Q : β → State → Prop}

lemma bind [hf : Steady f] [hg : ∀ a, Steady (g a)] (h : Yields f s P)
    (h' : ∀ a t, Advances s t → P a t → Yields (g a) t Q) : Yields (f >>= g) s Q := by
  intro hs b u hbind hu
  obtain ⟨a, t, hft, hgu⟩ := bind_ok hbind
  have hst := hf.advances hft
  have ht := ((hg a).advances hgu).errors_nil hu
  exact h' a t hst (h hs a t hft ht) (hs.of_advances hst) b u hgu hu

/-- Whatever the first step does. -/
lemma skip [Steady f] [∀ a, Steady (g a)] (h : ∀ a t, Advances s t → Yields (g a) t Q) :
    Yields (f >>= g) s Q :=
  bind (P := fun _ _ => True) (fun _ _ _ _ _ => trivial) fun a t hst _ => h a t hst

/-- A first step whose result is known. -/
lemma step [hf : Steady f] (h : f s = .ok a t) (h' : Advances s t → Yields (g a) t Q) :
    Yields (f >>= g) s Q := by
  intro hs b u hbind hu
  have hst := hf.advances h
  rw [bind_apply, h] at hbind
  exact h' hst (hs.of_advances hst) b u hbind hu

lemma of_ok (h : f s = .ok a t) (hP : P a t) : Yields f s P := by
  intro _ b u hb _
  rw [h] at hb
  cases hb
  exact hP

lemma mono (h : Yields f s P) (hP : ∀ a t, P a t → P' a t) : Yields f s P' :=
  fun hs a t hft ht => hP a t (h hs a t hft ht)

/-- The result together with what every step has in common. -/
lemma advancing [hf : Steady f] (h : Yields f s P) :
    Yields f s fun a t => Advances s t ∧ P a t :=
  fun hs a t hft ht => ⟨hf.advances hft, h hs a t hft ht⟩

/-- An error is never clean. -/
lemma error (c : CompileError.Cause) (P : Unit → State → Prop) : Yields (error c) s P := by
  intro hs _ _ h ht
  cases h
  exact absurd ht (hs.report_errors_ne_nil _ c)

lemma error_bind (c : CompileError.Cause) {g : Unit → CompileM β} [∀ a, Steady (g a)] : Yields (Compiler.error c >>= g) s Q :=
  bind (error c fun _ _ => False) fun _ _ _ h => h.elim

/-- In a panic there has been an error. -/
lemma of_panicking [hf : Steady f] (h : s.panicking) : Yields f s P := by
  intro hs a t hft ht
  exact absurd ((hf.advances hft).errors_nil ht) (hs.reported (.inl h))

/-- Something compiled one level deeper. -/
lemma nested {f : CompileM Unit} {P : Unit → State → Prop}
    (h : s.nesting + 1 ≤ maxNesting → Yields f { s with nesting := s.nesting + 1 } fun a t =>
      P a { t with nesting := t.nesting - 1 }) : Yields (nested f) s P := by
  intro hs a t hnested ht
  rw [nested_apply] at hnested
  split at hnested
  · cases hnested
  · rename_i hroom
    split at hnested
    · rename_i u hu
      cases hnested
      exact h (by omega) ⟨hs.reported, hs.fed⟩ _ u hu ht
    · cases hnested

/-- Something compiled in the scope of a new function, and what is done with it outside. -/
lemma bracket [hf : Steady f] [hg : ∀ a, Steady (g a)]
    (h : Yields f { s with
      scope := .new .function s.previous.lexeme, enclosing := s.scope :: s.enclosing } P)
    (h' : ∀ a t scope enclosing, t.enclosing = scope :: enclosing → P a t →
      Yields (g a) { t with scope, enclosing } Q) :
    Yields (enterFunction >>= fun _ => f >>= fun a => leaveFunction >>= fun _ => g a) s Q := by
  intro hs b v hrun hv
  rw [bind_apply, enterFunction_apply] at hrun
  obtain ⟨a, t, hft, hrun⟩ := bind_ok hrun
  have hst := hf.advances hft
  have hin : Sane { s with
      scope := .new .function s.previous.lexeme, enclosing := s.scope :: s.enclosing } := by
    refine ⟨fun hnew => hs.reported ?_, hs.fed⟩
    simpa [FunctionScope.new] using hnew
  have ht := hin.of_advances hst
  cases henclosing : t.enclosing with
  | nil =>
    have houter := hst.outer
    simp [State.outerSizes, henclosing] at houter
  | cons scope enclosing =>
    have hleave : leaveFunction t = .ok () { t with scope, enclosing } := by
      simp [leaveFunction, modify_apply, henclosing]
    rw [bind_apply, hleave] at hrun
    have hout : Sane { t with scope, enclosing } := by
      refine ⟨fun hover => ht.reported ?_, ht.fed⟩
      obtain hpanic | ⟨f, hf, hflag⟩ := hover
      · exact .inl hpanic
      · exact .inr ⟨f, List.mem_cons_of_mem _ (henclosing ▸ hf), hflag⟩
    have hclean := ((hg a).advances hrun).errors_nil hv
    exact h' a t scope enclosing henclosing (h hin a t hft hclean) hout b v hrun hv

end Yields

end Yields

/-! ## Consumed tokens and appended code -/

/-- The code and lines of the functions around the innermost one. -/
def State.outerCode (s : State) : List (Array UInt8 × Array UInt32) :=
  s.enclosing.map fun f => (f.chunk.code, f.chunk.lines)

/-- Between the two states these tokens were consumed and this code was appended. -/
structure Reads (s : State) (ts : List Token) (c : Code) (t : State) : Prop where
  tokens : s.current :: s.rest = ts ++ t.current :: t.rest
  code : t.scope.chunk.code.toList = s.scope.chunk.code.toList ++ c.bytes
  lines : t.scope.chunk.lines.toList = s.scope.chunk.lines.toList ++ c.lines
  outer : t.outerCode = s.outerCode

namespace Reads

lemma refl (s : State) : Reads s [] [] s :=
  ⟨rfl, by simp, by simp, rfl⟩

lemma trans {s t u : State} {ts us : List Token} {c d : Code} (h : Reads s ts c t)
    (h' : Reads t us d u) : Reads s (ts ++ us) (c ++ d) u where
  tokens := by rw [h.tokens, h'.tokens, List.append_assoc]
  code := by rw [h'.code, h.code, Code.bytes_append, List.append_assoc]
  lines := by rw [h'.lines, h.lines, Code.lines_append, List.append_assoc]
  outer := h'.outer.trans h.outer

lemma write (s : State) (i : Instruction) (line : UInt32) : Reads s [] [(i, line)] (s.write i line) :=
  ⟨rfl, by simp [State.write, State.mapChunk, Chunk.append],
    by simp [State.write, State.mapChunk, Chunk.append], rfl⟩

/-- How deeply the phrase is nested does not matter. -/
lemma of_nested {s t : State} {ts : List Token} {c : Code} {n m : Nat}
    (h : Reads { s with nesting := n } ts c t) : Reads s ts c { t with nesting := m } :=
  ⟨h.tokens, h.code, h.lines, h.outer⟩

lemma size_eq {s t : State} {ts : List Token} {c : Code} (h : Reads s ts c t) :
    t.scope.chunk.code.size = s.scope.chunk.code.size + c.size := by
  have := congrArg List.length h.code
  simpa using this

end Reads

@[simp] lemma context_write (s : State) (i : Instruction) (line : UInt32) :
    (s.write i line).context = s.context := rfl

/-- No token was read and nothing was reported. -/
def Stays (s t : State) : Prop :=
  t = { s with scope := t.scope, enclosing := t.enclosing }

/-! ## Tokens -/

/-- What is left after a token was consumed without an error. -/
structure Consumed (s t : State) : Prop where
  reads : Reads s [s.current] [] t
  context : t.context = s.context
  previous : t.previous = s.current

lemma shift_error_ne_nil {s : State} (hs : Sane s) {t : Token} {ts : List Token}
    {why : LexicalError} (hrest : s.rest = t :: ts) (hkind : t.kind = .error why) :
    s.advance.errors.toList ≠ [] := by
  have hmid : Sane { s with previous := s.current, current := t, rest := ts } := by
    refine ⟨hs.reported, ?_⟩
    have hfed := hs.fed
    simpa [State.Fed, hrest] using hfed
  have hreport := hmid.report_errors_ne_nil t (.lexical why)
  have hsame : s.advance = State.shift ts
      ({ s with previous := s.current, current := t }.report t (.lexical why)) := by
    rw [State.advance, hrest, State.shift]
    simp only [hkind]
  have hpre := (shifts_shift ts ({ s with previous := s.current, current := t }.report t
    (.lexical why))).errors
  rw [hsame]
  intro hnil
  rw [hnil] at hpre
  refine hreport ?_
  have herrors := List.prefix_nil.1 hpre
  simp only [State.report] at herrors ⊢
  split at herrors <;> simp_all

lemma consumed_advance_of_rest {s : State} (hs : Sane s) (hrest : s.rest ≠ [])
    (h : s.advance.errors.toList = []) : Consumed s s.advance := by
  obtain ⟨t, ts, hrest⟩ := List.exists_cons_of_ne_nil hrest
  have hnext : s.advance = { s with previous := s.current, current := t, rest := ts } := by
    cases hkind : t.kind with
    | error why => exact absurd h (shift_error_ne_nil hs hrest hkind)
    | _ => simp only [State.advance, hrest, State.shift, hkind]
  rw [hnext]
  exact ⟨⟨by simp [hrest], by simp, by simp, rfl⟩, rfl, rfl⟩

lemma consumed_advance {s : State} (hs : Sane s) (hcurrent : s.current.kind ≠ .eof)
    (h : s.advance.errors.toList = []) : Consumed s s.advance := by
  refine consumed_advance_of_rest hs (fun hrest => ?_) h
  have hfed := hs.fed
  simp only [State.Fed, hrest, List.getLast_singleton] at hfed
  exact absurd hfed hcurrent

lemma yields_advance (s : State) :
    Yields advance s fun _ t =>
      t.previous = s.current ∧ (s.current.kind ≠ .eof → Consumed s t) := by
  intro hs _ _ h ht
  cases h
  exact ⟨advance_previous s, fun hcurrent => consumed_advance hs hcurrent ht⟩

lemma yields_consume {k : Token.Kind} (hk : k ≠ .eof) (w : Expected) (s : State) :
    Yields (consume k w) s fun _ t => s.current.kind = k ∧ Consumed s t := by
  intro hs _ _ h ht
  rw [consume_apply] at h
  cases h
  split at ht
  · rename_i hkind
    rw [if_pos hkind]
    exact ⟨hkind, consumed_advance hs (hkind ▸ hk) ht⟩
  · exact absurd ht (hs.report_errors_ne_nil _ _)

lemma yields_accept {k : Token.Kind} (hk : k ≠ .eof) (s : State) :
    Yields (accept k) s fun b t =>
      b = true ∧ s.current.kind = k ∧ Consumed s t ∨ b = false ∧ s.current.kind ≠ k ∧ t = s := by
  intro hs _ _ h ht
  rw [accept_apply] at h
  split at h
  · rename_i hkind
    cases h
    exact .inl ⟨rfl, hkind, consumed_advance hs (hkind ▸ hk) ht⟩
  · rename_i hkind
    cases h
    exact .inr ⟨rfl, hkind, rfl⟩

/-! ## Operands -/

lemma yields_operandOfIndex (index : Nat) (s : State) :
    Yields (operandOfIndex index) s fun n t => n = index ∧ t = s ∧ index ≤ Chunk.maxShort := by
  intro hs _ _ h ht
  rw [operandOfIndex_apply] at h
  split at h
  · -- The error was given now or earlier.
    cases h
    split at ht
    · rename_i hover
      exact absurd ht (hs.reported (.inr ⟨_, List.mem_cons_self, hover⟩))
    · rename_i hover
      rw [State.report] at ht
      split at ht
      · rename_i hpanic
        exact absurd ht (hs.reported (.inl hpanic))
      · simp at ht
  · rename_i hle
    cases h
    exact ⟨rfl, rfl, Nat.le_of_not_lt hle⟩

/-- The step reads no token and appends the code of something that leaves a context. -/
structure Writes (s : State) (c : Code) (g : Context) (t : State) : Prop where
  stays : Stays s t
  reads : Reads s [] c t
  context : t.context = g

lemma writes_write (s : State) (i : Instruction) (line : UInt32) :
    Writes s [(i, line)] s.context (s.write i line) :=
  ⟨rfl, .write s i line, rfl⟩

lemma Writes.write {s t : State} {c : Code} {g : Context} (h : Writes s c g t) (i : Instruction)
    (line : UInt32) : Writes s (c ++ [(i, line)]) g (t.write i line) := by
  refine ⟨?_, by simpa using h.reads.trans (.write t i line), h.context⟩
  rw [Stays, State.write, State.mapChunk, h.stays]

lemma yields_stringOperand (text : Text) (s : State) :
    Yields (stringOperand text) s fun n t =>
      n = (s.context.addString text).1 ∧ (s.context.addString text).1 ≤ Chunk.maxShort ∧
        Writes s [] (s.context.addString text).2 t := by
  refine .step (modifyGetChunk_apply _ s) fun _ => ?_
  refine (yields_operandOfIndex _ _).mono ?_
  rintro n t ⟨rfl, rfl, hle⟩
  exact ⟨rfl, hle, rfl, ⟨rfl, by simp [State.mapChunk, Chunk.addString],
    by simp [State.mapChunk, Chunk.addString], rfl⟩, rfl⟩

lemma yields_emitString (text : Text) (s : State) :
    Yields (emitString text) s fun _ t =>
      (s.context.addString text).1 ≤ Chunk.maxShort ∧ ∃ line,
        Writes s [(⟨.loadString, (s.context.addString text).1⟩, line)]
          (s.context.addString text).2 t := by
  refine (yields_stringOperand text s).bind ?_
  rintro n t - ⟨rfl, hle, hwrites⟩
  exact .of_ok (emitOpShort_apply _ _ t rfl) ⟨hle, _, hwrites.write _ _⟩

lemma yields_emitConstant (bits : UInt64) (s : State) :
    Yields (emitConstant bits) s fun _ t =>
      (s.context.addConstant bits).1 ≤ Chunk.maxShort ∧ ∃ line,
        Writes s [(⟨.loadConstant, (s.context.addConstant bits).1⟩, line)]
          (s.context.addConstant bits).2 t := by
  refine .step (modifyGetChunk_apply _ s) fun _ => ?_
  refine (yields_operandOfIndex _ _).bind ?_
  rintro n t - ⟨rfl, rfl, hle⟩
  have hwrites : Writes s [] (s.context.addConstant bits).2
      (s.mapChunk fun c => (c.addConstant bits).2) :=
    ⟨rfl, ⟨rfl, by simp [State.mapChunk, Chunk.addConstant],
      by simp [State.mapChunk, Chunk.addConstant], rfl⟩, rfl⟩
  exact .of_ok (emitOpShort_apply _ _ _ rfl) ⟨hle, _, hwrites.write _ _⟩

/-! ## Jumps -/

/-- Overwriting the operand of an instruction of two operand bytes. -/
lemma Chunk.setShort_toList {c : Chunk} {pre post : List UInt8} {op : Opcode} {n m : Nat}
    (hop : op.operandWidth = 2)
    (h : c.code.toList = pre ++ Instruction.bytes ⟨op, n⟩ ++ post) :
    (c.setShort (pre.length + 1) m).code.toList = pre ++ Instruction.bytes ⟨op, m⟩ ++ post := by
  simp only [Instruction.bytes, Instruction.operandBytes, hop] at h ⊢
  have hnot : ¬ pre.length + 1 + 1 < pre.length := by omega
  have hsub : pre.length + 1 + 1 - pre.length = 2 := by omega
  simp [Chunk.setShort, h, List.set_append, hnot, hsub]

/-- A jump that was written with a placeholder gets the size of the code after it. -/
lemma yields_patchJump {s t : State} {ts : List Token} {c d : Code} {op : Opcode} {line : UInt32}
    (hop : op.operandWidth = 2) (h : Reads s ts (c ++ (⟨op, Chunk.maxShort⟩, line) :: d) t) :
    Yields (patchJump (s.scope.chunk.code.size + c.size + 1)) t fun _ u =>
      d.size ≤ Chunk.maxShort ∧ Stays t u ∧ u.context = t.context ∧
        Reads s ts (c ++ (⟨op, d.size⟩, line) :: d) u := by
  intro hs _ _ hpatch hu
  have hsize := h.size_eq
  have hwidth : Instruction.size ⟨op, Chunk.maxShort⟩ = 3 := by
    simp [Instruction.size, Opcode.size, hop]
  simp only [Code.size_append, Code.size_cons, hwidth] at hsize
  rw [patchJump_apply, Chunk.jumpDistance, if_neg (by omega)] at hpatch
  have hdistance : t.scope.chunk.code.size - (s.scope.chunk.code.size + c.size + 1) - 2 = d.size := by
    omega
  simp only [hdistance] at hpatch
  split at hpatch
  · cases hpatch
  · rename_i hif
    cases hpatch
    exact absurd hu (hs.report_errors_ne_nil _ _)
  · rename_i m hif
    split at hif
    · cases hif
    · rename_i hle
      cases hif
      cases hpatch
      have hlines : (c ++ (⟨op, d.size⟩, line) :: d : Code).lines =
          (c ++ (⟨op, Chunk.maxShort⟩, line) :: d : Code).lines := by
        simp [Instruction.size]
      refine ⟨Nat.le_of_not_lt hle, rfl, rfl, h.tokens, ?_, hlines ▸ h.lines, h.outer⟩
      have hcode : t.scope.chunk.code.toList = (s.scope.chunk.code.toList ++ c.bytes) ++
          Instruction.bytes ⟨op, Chunk.maxShort⟩ ++ d.bytes := by
        rw [h.code]
        simp
      have hset := Chunk.setShort_toList (m := d.size) hop hcode
      simp only [List.length_append, Array.length_toList, Code.length_bytes] at hset
      simp [State.mapChunk, hset]

lemma yields_emitLoop {s t : State} {ts : List Token} {c d : Code} (h : Reads s ts (c ++ d) t) :
    Yields (emitLoop (s.scope.chunk.code.size + c.size)) t fun _ u =>
      d.size + 3 ≤ Chunk.maxShort ∧ ∃ line, Writes t [(⟨.loop, d.size + 3⟩, line)] t.context u := by
  intro hs _ _ hloop hu
  have hsize := h.size_eq
  simp only [Code.size_append] at hsize
  have hdistance : t.scope.chunk.code.size + 3 - (s.scope.chunk.code.size + c.size) = d.size + 3 := by
    omega
  rw [emitLoop_apply _ _ (by omega)] at hloop
  simp only [hdistance] at hloop
  split at hloop
  · have hreported := (steady_emitShort 0).advances hloop
    refine absurd (hreported.errors_nil hu) ?_
    have hsane : Sane (t.mapChunk (·.writeOp .loop t.previous.line)) :=
      hs.of_advances (advances_mapChunk (by simp [Chunk.writeOp, Chunk.write]))
    exact hsane.report_errors_ne_nil _ _
  · rename_i hle
    cases hloop
    exact ⟨Nat.le_of_not_lt hle, _, writes_write t _ _⟩

/-! ## Variables -/

lemma addCapture_bare (f : FunctionScope) (c : Capture) :
    f.bare.addCapture c =
      ((f.addCapture c).1, (f.addCapture c).2.1.bare, (f.addCapture c).2.2) := by
  have hcaptures : f.bare.captures = f.captures := rfl
  simp only [addCapture, hcaptures]
  split
  · rfl
  · split <;> rfl

/-- Which variables are captured does not depend on the code. -/
lemma capture?_bare (name : Text) (f : FunctionScope) (outer : List FunctionScope) :
    f.bare.capture? name (outer.map bare) =
      (f.capture? name outer).map fun r => (r.1, r.2.1.bare, r.2.2.1.map bare, r.2.2.2) := by
  induction outer generalizing f with
  | nil => rfl
  | cons o rest ih =>
    simp only [List.map_cons, capture?]
    have hlocals : o.bare.locals = o.locals := rfl
    rw [hlocals, ih o]
    cases findLocal name o.locals with
    | some found =>
      simp only [addCapture_bare]
      rfl
    | none =>
      cases o.capture? name rest with
      | none => rfl
      | some found => simp [addCapture_bare]

lemma yields_forM_error (cs : List CompileError.Cause) (s : State) :
    Yields (cs.forM error) s fun _ t => cs = [] ∧ t = s := by
  cases cs with
  | nil => exact .of_ok (pure_apply () s) ⟨rfl, rfl⟩
  | cons c cs =>
    have := steady_forM_error cs
    exact .error_bind c (g := fun _ => cs.forM error)

lemma yields_resolve (name : Text) (s : State) :
    Yields (resolve name) s fun a t =>
      s.context.Resolves name a t.context ∧ Stays s t ∧ Reads s [] [] t := by
  intro hs a t h ht
  rw [resolve_apply] at h
  have herrors := steady_forM_error
  split at h
  · rename_i slot l hfind
    have hyields := (yields_forM_error (Local.readErrors l) s).bind
      (Q := fun (a : Access) t => a = ⟨.getLocal, .setLocal, slot⟩ ∧ Local.readErrors l = [] ∧ t = s)
      (g := fun _ => pure _) (fun _ t _ hP => .of_ok (pure_apply _ t) ⟨rfl, hP.1, hP.2⟩)
    obtain ⟨rfl, hnil, rfl⟩ := hyields hs a t h ht
    refine ⟨.ofLocal hfind ?_, rfl, .refl _⟩
    cases hdepth : l.depth with
    | some d => rfl
    | none => simp [Local.readErrors, hdepth] at hnil
  · rename_i hfind
    split at h
    · rename_i i scope enclosing errors hcapture
      have hyields := (yields_forM_error errors { s with scope, enclosing }).bind
        (Q := fun (a : Access) t =>
          a = ⟨.getUpvalue, .setUpvalue, i⟩ ∧ errors = [] ∧ t = { s with scope, enclosing })
        (g := fun _ => pure _) (fun _ t _ hP => .of_ok (pure_apply _ t) ⟨rfl, hP.1, hP.2⟩)
      have hbare := capture?_bare name s.scope s.enclosing
      rw [hcapture] at hbare
      obtain ⟨hscope, houter⟩ := capture?_fixed hcapture
      have hchunk : scope.chunk = s.scope.chunk := congrArg Prod.fst hscope
      have hcode := congrArg (List.map fun c : Chunk × Bool => (c.1.code, c.1.lines)) houter
      obtain ⟨rfl, rfl, rfl⟩ := hyields (hs.of_advances (advances_capture hcapture)) a t h ht
      refine ⟨.ofCapture hfind hbare, rfl, rfl, ?_, ?_, ?_⟩
      · simp [hchunk]
      · simp [hchunk]
      · simpa [State.outerCode, fixed, Function.comp_def] using hcode
    · rename_i hcapture
      have hyields := (yields_stringOperand name s).bind
        (Q := fun (a : Access) t => a = ⟨.getGlobal, .setGlobal, (s.context.addString name).1⟩ ∧
          (s.context.addString name).1 ≤ Chunk.maxShort ∧ Writes s [] (s.context.addString name).2 t)
        (g := fun i => pure _)
        (fun _ t _ hP => .of_ok (pure_apply _ t) ⟨by rw [hP.1], hP.2⟩)
      obtain ⟨rfl, hle, hwrites⟩ := hyields hs a t h ht
      have hbare := capture?_bare name s.scope s.enclosing
      rw [hcapture] at hbare
      refine ⟨?_, hwrites.stays, hwrites.reads⟩
      rw [hwrites.context]
      exact .ofGlobal hfind hbare hle

lemma Writes.of_scope {s : State} {f : FunctionScope} {g : Context}
    (hchunk : f.chunk = s.scope.chunk) (hg : { s with scope := f }.context = g) :
    Writes s [] g { s with scope := f } :=
  ⟨rfl, ⟨rfl, by simp [hchunk], by simp [hchunk], rfl⟩, hg⟩

lemma yields_declareLocal (name : Text) (s : State) :
    Yields (declareLocal name) s fun _ t =>
      s.context.Admits name ∧ Writes s [] (s.context.declare name) t := by
  refine .step (get_apply s) fun _ => ?_
  dsimp only
  split
  · exact .error _ _
  · rename_i hfresh
    split
    · exact .error _ _
    · rename_i hroom
      refine .of_ok (modify_apply _ s) ⟨⟨?_, Nat.lt_of_not_le hroom⟩, .of_scope rfl rfl⟩
      exact Bool.eq_false_iff.2 hfresh

/-- The operand that stands for a declared variable: a local needs none. -/
lemma yields_parseVariable (w : Expected) (s : State) :
    Yields (parseVariable w) s fun n t =>
      s.current.kind = .identifier ∧ ∃ global? : Option Nat, n = global?.getD 0 ∧
        s.context.Names s.current.lexeme global? t.context ∧ t.previous = s.current ∧
        Reads s [s.current] [] t := by
  refine (yields_consume (by simp) w s).bind ?_
  rintro _ t - ⟨hkind, hconsumed⟩
  refine .step (get_apply t) fun _ => ?_
  have hdepth : t.scope.depth = s.context.scope.depth := by
    rw [← hconsumed.context]
    rfl
  rw [hconsumed.previous]
  split
  · rename_i hlocal
    refine (yields_declareLocal _ t).bind ?_
    rintro _ u - ⟨hadmits, hwrites⟩
    rw [hconsumed.context] at hadmits hwrites
    refine .of_ok (pure_apply _ u) ⟨hkind, none, rfl, ?_, ?_, hconsumed.reads.trans hwrites.reads⟩
    · rw [hwrites.context]
      exact .ofLocal (hdepth ▸ hlocal) hadmits
    · rw [hwrites.stays, hconsumed.previous]
  · rename_i hglobal
    refine (yields_stringOperand _ t).mono ?_
    rintro n u ⟨hn, hle, hwrites⟩
    rw [hconsumed.context] at hn hle hwrites
    refine ⟨hkind, some n, rfl, ?_, ?_, hconsumed.reads.trans hwrites.reads⟩
    · rw [hwrites.context, hn]
      exact .ofGlobal (hdepth ▸ Nat.eq_zero_of_not_pos hglobal) hle
    · rw [hwrites.stays, hconsumed.previous]

lemma yields_markInitialized (s : State) :
    Yields markInitialized s fun _ t => Writes s [] s.context.complete t := by
  refine .of_ok (modify_apply _ s) ?_
  have hlocals : s.context.scope.locals = s.scope.locals := rfl
  have hdepth : s.context.scope.depth = s.scope.depth := rfl
  rw [Context.complete, hlocals, hdepth]
  rcases hd : s.scope.depth with _ | d
  · exact ⟨rfl, .refl s, rfl⟩
  · rcases s.scope.locals with _ | ⟨l, older⟩
    · exact ⟨rfl, .refl s, rfl⟩
    · exact .of_scope rfl rfl

/-- Completing a declaration that was begun in a context of the same depth. -/
lemma yields_defineVariable {global? : Option Nat} {s : State}
    (h : 0 < s.scope.depth ↔ global? = none) :
    Yields (defineVariable (global?.getD 0)) s fun _ t =>
      ∃ line, Writes s (defineCode global? line) s.context.complete t := by
  refine .step (get_apply s) fun _ => ?_
  split
  · rename_i hdepth
    rw [h.1 hdepth]
    exact (yields_markInitialized s).mono fun _ t ht => ⟨0, ht⟩
  · rename_i hdepth
    cases global? with
    | none => exact absurd (h.2 rfl) hdepth
    | some n =>
      have hzero : s.context.scope.depth = 0 := Nat.eq_zero_of_not_pos hdepth
      have hcomplete : s.context.complete = s.context := by
        rw [Context.complete]
        split <;> simp_all
      rw [hcomplete]
      exact .of_ok (emitOpShort_apply _ _ s rfl) ⟨_, writes_write s _ _⟩

/-! ## Blocks -/

lemma yields_beginScope (s : State) :
    Yields beginScope s fun _ t => Writes s [] s.context.beginScope t :=
  .of_ok (modify_apply _ s) (.of_scope rfl rfl)

lemma emitDrops_apply (ls : List Local) (s : State) :
    ∃ t, emitDrops ls s = .ok () t ∧ Writes s (dropCode ls s.previous.line) s.context t := by
  induction ls generalizing s with
  | nil => exact ⟨s, rfl, rfl, .refl s, rfl⟩
  | cons l ls ih =>
    have hwidth : (if l.captured then Opcode.closeUpvalue else .pop).operandWidth = 0 := by
      split <;> rfl
    obtain ⟨t, ht, hwrites⟩ := ih (s.write ⟨if l.captured then .closeUpvalue else .pop, 0⟩
      s.previous.line)
    refine ⟨t, ?_, ?_, ?_, hwrites.context⟩
    · rw [emitDrops, bind_apply, emitOp_apply _ _ hwidth]
      exact ht
    · have hstays := hwrites.stays
      rw [Stays] at hstays ⊢
      rw [hstays]
      rfl
    · exact (Reads.write s _ _).trans hwrites.reads

lemma yields_endScope (s : State) :
    Yields endScope s fun _ t =>
      ∃ line, Writes s (dropCode s.context.leaving line) s.context.endScope t := by
  intro _ _ t h _
  rw [endScope_apply] at h
  obtain ⟨u, hu, hwrites⟩ := emitDrops_apply
    (s.scope.locals.span (Local.inBlock s.scope.depth)).1
    { s with scope := { s.scope with
        depth := s.scope.depth - 1
        locals := (s.scope.locals.span (Local.inBlock s.scope.depth)).2 } }
  rw [hu] at h
  cases h
  have hscope : Writes s [] s.context.endScope { s with scope := { s.scope with
        depth := s.scope.depth - 1
        locals := (s.scope.locals.span (Local.inBlock s.scope.depth)).2 } } := .of_scope rfl rfl
  exact ⟨s.previous.line, hwrites.stays, hscope.reads.trans hwrites.reads, hwrites.context⟩

/-! ## Finished functions -/

/-- A function all of whose code is `c`, once the final return is written. -/
lemma toPrototype_write_return {s : State} {c : Code} (line : UInt32)
    (hcode : s.scope.chunk.code.toList = c.bytes) (hlines : s.scope.chunk.lines.toList = c.lines) :
    ((s.write ⟨.loadNil, 0⟩ line).write ⟨.ret, 0⟩ line).scope.toPrototype =
      s.context.scope.prototypeOf c line := by
  have hc : s.scope.chunk.code = c.bytes.toArray := Array.toList_inj.1 (by simpa using hcode)
  have hl : s.scope.chunk.lines = c.lines.toArray := Array.toList_inj.1 (by simpa using hlines)
  have hchunk : ((s.scope.chunk.append [(⟨.loadNil, 0⟩, line)]).append [(⟨.ret, 0⟩, line)]) =
      s.scope.bare.chunk.append (c ++ returnCode line) := by
    rw [Chunk.append_append]
    simp [Chunk.append, bare, hc, hl, returnCode]
  simp only [prototypeOf, toPrototype, State.write, State.mapChunk, hchunk]
  rfl

end Lox.Compiler
