import Lox.Proofs.Compiler.Mirroring.Printing

/-!
# Declarations and statements in two compilations

One lemma for each of the compiler's functions says that it is compiled alike in both compilations:
as `Mirrors` where no expression can end the source, and as `Prints` where one can.  The branches of
a conditional, the body of a loop and the statement of a declaration can; a block, a function or a
clause of a loop cannot, because a token has to follow.
-/

namespace Lox.Compiler

open FunctionScope

-- The longest sequences of steps whose steadiness is found by instance resolution are here.
set_option synthInstance.maxSize 1000

section Statements

variable {mode : Bool} {e : Token}
variable {fuel : Nat} {more : Prospect → Nat}

/-- The statements inside are compiled alike, up to a last expression that is printed. -/
structure PrintsStmts (mode : Bool) (e : Token) (more : Prospect → Nat) (fuel : Nat) : Prop where
  exprs : MirrorsExprs mode e more fuel
  statement : ∀ s, Ends mode e s → Prints mode e (parse fuel .statement)
    (fun x => parse (more x + fuel) .statement) s
  declaration : ∀ s, Ends mode e s → Prints mode e (parse fuel .declaration)
    (fun x => parse (more x + fuel) .declaration) s

lemma yields_expression_of_end {fuel : Nat} {s : State} (hs : s.current.kind = .eof) :
    Yields (expression (parse fuel)) s fun _ _ => False := by
  cases fuel with
  | zero => exact fun _ _ _ h => nomatch h
  | succ fuel => exact yields_compileExpression_of_end hs

/-- The code of the two compilations where they come to differ. -/
lemma printsAt_append (c : Chunk) (line line' : UInt32) :
    (c.append [(⟨.print, 0⟩, line)]).PrintsAt c.code.size (c.append [(⟨.pop, 0⟩, line')]) := by
  have hbytes : ∀ op, op.operandWidth = 0 → ∀ line,
      (c.append [(⟨op, 0⟩, line)]).code = c.code.push op.toByte := fun op hop line => by
    simp [Chunk.append, Instruction.bytes, Instruction.operandBytes, hop]
  refine ⟨?_, ?_, rfl, rfl, rfl⟩
  · rw [hbytes .print rfl, Array.getElem?_push_size]
  · rw [hbytes .print rfl, hbytes .pop rfl, Array.push_eq_append, Array.push_eq_append,
      Array.setIfInBounds_append_right (Nat.le_refl _)]
    simp

/-- At the end the other compilation drops the expression, with or without complaint. -/
lemma exists_printed (he : e.kind = .eof) (hsane : Sane t) (hclean : t.errors.toList = [])
    (hend : t.current.kind = .eof) (line : UInt32) {x : Prospect}
    (hx : x.Fits true e) :
    ∃ u, (consume .semicolon .semicolonAfterExpression >>= fun _ => emitOp .pop) (t.onto x) =
        .ok () u ∧ Printed x t.scope.chunk.code.size (t.write ⟨.print, 0⟩ line) u := by
  have hcalm : ¬ (t.onto x).panicking = true := fun h => hsane.reported (.inl h) hclean
  have hcurrent : (t.onto x).current = x.current := if_pos hend
  have hrest : (t.onto x).rest = x.rest := if_pos hend
  have herrors : (t.onto x).errors.toList = [] := hclean
  rw [bind_apply, consume_apply, hcurrent]
  dsimp only
  rw [emitOp_apply _ _ rfl]
  refine ⟨_, rfl, ?_⟩
  cases hx with
  | same =>
    have hnot : e.kind ≠ .semicolon := by simp [he]
    rw [if_neg hnot, State.report, if_neg hcalm]
    refine ⟨(congrArg Token.kind hcurrent).trans he, hrest, ?_, rfl, printsAt_append _ _ _⟩
    rw [Prospect.complaints, if_neg hnot]
    simp only [State.write, State.mapChunk, Array.toList_push, herrors]
    rfl
  | semicolon _ hkind he' =>
    rename_i semicolon e'
    rw [if_pos hkind, advance_of_rest hrest (by simp [he'])]
    exact ⟨he', rfl, herrors.trans (if_pos hkind).symm, rfl, printsAt_append _ _ _⟩

variable (he : e.kind = .eof) (hparse : PrintsStmts mode e more fuel)

include he hparse

/-- The one place where the compilations differ. -/
lemma prints_compileExpressionStatement {s : State} (hs : Ends mode e s) :
    Prints mode e (compileExpressionStatement (parse fuel))
      (fun x => compileExpressionStatement (parse (more x + fuel))) s := by
  refine .after (mirrors_expression hparse.exprs hs) fun _ t _ ht => ?_
  by_cases hend : t.current.kind = .eof
  · refine Yields.step (get_apply t) fun _ => ?_
    split
    · rename_i hprints
      simp only [Bool.and_eq_true, decide_eq_true_eq] at hprints
      have hmode : mode = true := ht.interactive.symm.trans hprints.1.1.1
      subst hmode
      intro hsane _ v hv hclean
      rw [emitOp_apply .print t rfl] at hv
      cases hv
      refine .inr ⟨rfl, t.scope.chunk.code.size, Nat.le_refl _, ⟨ht.of_prospect rfl, hend, ?_⟩,
        fun x hx => ?_⟩
      · rw [size_write]
        exact Nat.lt_add_of_pos_right (by decide)
      · have hoff : x.interactive = false := by cases hx <;> rfl
        obtain ⟨u, hu, hprinted⟩ := exists_printed he hsane hclean hend t.previous.line hx
        have hquiet : (t.onto x).interactive = false := hoff
        refine ⟨u, ?_, hprinted⟩
        beta_reduce
        rw [bind_apply, get_apply]
        dsimp only
        rw [hquiet]
        exact hu
    · refine (yields_consume (by simp) _ t).bind fun _ u _ ⟨hkind, _⟩ => ?_
      rw [hend] at hkind
      cases hkind
  · have hgoes : ∀ s : State, s.current.kind ≠ .eof → (s.interactive &&
        decide (s.scope.kind = .script) && decide (s.scope.depth = 0) &&
        decide (s.current.kind = .eof)) = false := fun s hs => by simp [hs]
    have hsame : ∀ x, (t.onto x).current = t.current := fun x => if_neg hend
    refine .of_mirrors (.get ?_)
    simp only [hgoes t hend, hgoes _ (hsame _ ▸ hend)]
    exact .bind (mirrors_consume he (by simp) _ ht) fun _ u hu => .heedless hu

lemma prints_compileIf {s : State} (hs : Ends mode e s) :
    Prints mode e (compileIf (parse fuel)) (fun x => compileIf (parse (more x + fuel))) s := by
  simp only [compileIf]
  refine .after (mirrors_consume he (by simp) _ hs) fun _ t _ ht => ?_
  refine .after (mirrors_expression hparse.exprs ht) fun _ u _ hu => ?_
  refine .after (mirrors_consume he (by simp) _ hu) fun _ v _ hv => ?_
  refine .emit hv (emitJump_apply .jumpIfFalse v rfl) fun hv₁ => ?_
  refine .emit hv₁ (emitOp_apply .pop _ rfl) fun hv₂ => ?_
  refine .bind (hparse.statement _ hv₂) (fun _ w _ hw => ?_) fun _ w k hk => ?_
  · -- The first branch printed nothing, but the second one may.
    refine .emit hw (emitJump_apply .jump w rfl) fun hw₁ => ?_
    refine .after (.heedless hw₁) fun _ w₂ h₂ hw₂ => .after (.heedless hw₂) fun _ w₃ h₃ hw₃ => ?_
    refine .after (mirrors_accept he (by simp) (by simp) hw₃) fun b w₄ h₄ hw₄ => ?_
    have hsize := ((h₂.trans h₃).trans h₄).codeSize
    simp only [size_write, Opcode.size, Opcode.operandWidth] at hsize
    refine .ite (fun _ => ?_) fun _ => .of_mirrors (.heedless hw₄)
    exact .bind (hparse.statement w₄ hw₄) (fun _ _ _ h => .of_mirrors (.heedless h))
      fun _ _ k hk => keeps_patchJump (.inl (by omega))
  · -- The first branch ended the source, so there is no second one.
    simp only [size_write, Opcode.size, Opcode.operandWidth] at hk
    refine .jump rfl fun offset w₁ hoffset => ?_
    exact .bind (keeps_patchJump (.inl (by omega))) fun _ _ => .bind (keeps_emitOp rfl) fun _ _ =>
      .accept (by simp) (keeps_patchJump (.inr hoffset))

lemma prints_compileWhile {s : State} (hs : Ends mode e s) :
    Prints mode e (compileWhile (parse fuel)) (fun x => compileWhile (parse (more x + fuel))) s := by
  refine .emit hs (codeSize_apply s) fun hs => ?_
  refine .after (mirrors_consume he (by simp) _ hs) fun _ t ht htends => ?_
  refine .after (mirrors_expression hparse.exprs htends) fun _ u hu huends => ?_
  refine .after (mirrors_consume he (by simp) _ huends) fun _ v hv hvends => ?_
  refine .emit hvends (emitJump_apply .jumpIfFalse v rfl) fun hv₁ => ?_
  refine .emit hv₁ (emitOp_apply .pop _ rfl) fun hv₂ => ?_
  refine .bind (hparse.statement _ hv₂) (fun _ w _ hw => .of_mirrors (.heedless hw)) ?_
  intro _ w k hk
  have hsize := ((ht.trans hu).trans hv).codeSize
  simp only [size_write, Opcode.size, Opcode.operandWidth] at hk
  exact .bind (keeps_emitLoop (by omega)) fun _ _ =>
    .bind (keeps_patchJump (.inl (by omega))) fun _ _ => keeps_emitOp rfl

omit he hparse in
lemma mirrors_parseVariable (he : e.kind = .eof) (w : Expected) {s : State} (hs : Ends mode e s) :
    Mirrors mode e (parseVariable w) (fun _ => parseVariable w) s := by
  refine .bind (mirrors_consume he (by simp) w hs) fun _ t ht => .get ?_
  exact .ite (fun _ => .heed ht fun _ u hu => .heedless hu) fun _ => .heedless ht

lemma mirrors_compileVar {s : State} (hs : Ends mode e s) :
    Mirrors mode e (compileVar (parse fuel)) (fun x => compileVar (parse (more x + fuel))) s := by
  simp only [compileVar]
  refine .bind (mirrors_parseVariable he _ hs) fun global t ht => ?_
  refine .bind (mirrors_accept he (by simp) (by simp) ht) fun b u hu => ?_
  have hend : ∀ v, Ends mode e v → Mirrors mode e
      (consume .semicolon .semicolonAfterVariable >>= fun _ => defineVariable global)
      (fun _ => consume .semicolon .semicolonAfterVariable >>= fun _ => defineVariable global) v :=
    fun v hv => .bind (mirrors_consume he (by simp) _ hv) fun _ w hw => .heedless hw
  exact .ite (fun _ => .bind (mirrors_expression hparse.exprs hu) fun _ v hv => hend v hv)
    fun _ => .heed hu fun _ v hv => hend v hv

omit he hparse in
lemma yields_compileForCondition_of_end {s : State} (hs : s.current.kind = .eof) :
    Yields (compileForCondition (parse fuel)) s fun _ _ => False :=
  .step (accept_of_end (by simp) hs) fun _ => (yields_expression_of_end hs).bind fun _ _ _ h => h.elim

lemma mirrors_compileForCondition {s : State} (hs : Ends mode e s) :
    Mirrors mode e (compileForCondition (parse fuel))
      (fun x => compileForCondition (parse (more x + fuel))) s := by
  by_cases hend : s.current.kind = .eof
  · exact .absurd (yields_compileForCondition_of_end hend)
  refine .bind (mirrors_accept he (by simp) (by simp [hend]) hs) fun b t ht => ?_
  refine .ite (fun _ => .heedless ht) fun _ => ?_
  refine .bind (mirrors_expression hparse.exprs ht) fun _ u hu => ?_
  exact .bind (mirrors_consume he (by simp) _ hu) fun _ v hv => .heedless hv

omit he hparse in
/-- The jump that leaves the loop is written. -/
lemma yields_compileForCondition_offset (s : State) :
    Yields (compileForCondition (parse fuel)) s fun exit? t =>
      ∀ exit ∈ exit?, exit + 2 ≤ t.scope.chunk.code.size := by
  refine .skip fun b t _ => ?_
  split
  · exact .of_ok (pure_apply none t) (by simp)
  · refine .skip fun _ u _ => .skip fun _ v _ => ?_
    refine .step (emitJump_apply _ v rfl) fun _ => .step (emitOp_apply _ _ rfl) fun _ => ?_
    refine .of_ok (pure_apply _ _) ?_
    rintro _ ⟨⟩
    simp only [size_write, Opcode.size, Opcode.operandWidth]
    omega

lemma mirrors_compileForIncrement (start : Nat) {s : State} (hs : Ends mode e s) :
    Mirrors mode e (compileForIncrement (parse fuel) start)
      (fun x => compileForIncrement (parse (more x + fuel)) start) s := by
  refine .bind (mirrors_accept he (by simp) (by simp) hs) fun b t ht => ?_
  refine .ite (fun _ => .heedless ht) fun _ => ?_
  refine .heed ht fun _ u hu => .heed hu fun _ v hv => ?_
  refine .bind (mirrors_expression hparse.exprs hv) fun _ w hw => .heed hw fun _ w hw => ?_
  exact .bind (mirrors_consume he (by simp) _ hw) fun _ _ h => .heedless h

omit he hparse in
/-- The loop jumps back to code that is written. -/
lemma yields_compileForIncrement_start {start : Nat} {s : State}
    (hstart : start ≤ s.scope.chunk.code.size) :
    Yields (compileForIncrement (parse fuel) start) s fun start' t =>
      start' ≤ t.scope.chunk.code.size := by
  refine .skip fun b t hst => ?_
  split
  · exact .of_ok (pure_apply _ t) (Nat.le_trans hstart hst.codeSize)
  · refine .step (emitJump_apply _ t rfl) fun _ => .step (codeSize_apply _) fun _ => ?_
    refine .skip fun _ u hu => .skip fun _ v hv => .skip fun _ w hw => .skip fun _ x hx =>
      .skip fun _ y hy => ?_
    exact .of_ok (pure_apply _ y) ((((hu.trans hv).trans hw).trans hx).trans hy).codeSize

lemma prints_compileForInitializer {s : State} (hs : Ends mode e s) :
    Prints mode e (compileForInitializer (parse fuel))
      (fun x => compileForInitializer (parse (more x + fuel))) s := by
  by_cases hend : s.current.kind = .eof
  · refine .of_mirrors (.absurd (.step (accept_of_end (by simp) hend) fun _ => ?_))
    refine .step (accept_of_end (by simp) hend) fun _ => ?_
    exact (yields_expression_of_end hend).bind fun _ _ _ h => h.elim
  refine .after (mirrors_accept he (by simp) (by simp [hend]) hs) fun b t _ ht => ?_
  refine .ite (fun _ => .of_mirrors (.heedless ht)) fun _ => ?_
  refine .after (mirrors_accept he (by simp) (by simp) ht) fun b u _ hu => ?_
  exact .ite (fun _ => .of_mirrors (mirrors_compileVar he hparse hu)) fun _ =>
    prints_compileExpressionStatement he hparse hu

lemma prints_compileFor {s : State} (hs : Ends mode e s) :
    Prints mode e (compileFor (parse fuel)) (fun x => compileFor (parse (more x + fuel))) s := by
  simp only [compileFor]
  have hexit := steady_exit
  refine .after (.heedless hs) fun _ s₁ _ h₁ => ?_
  refine .after (mirrors_consume he (by simp) _ h₁) fun _ s₂ _ h₂ => ?_
  refine .bind (prints_compileForInitializer he hparse h₂) (fun _ s₃ _ h₃ => ?_) fun _ s₃ _ _ => ?_
  · refine .emit h₃ (codeSize_apply s₃) fun _ => ?_
    refine .after_of (mirrors_compileForCondition he hparse h₃)
      (yields_compileForCondition_offset s₃) fun exit? s₄ hoffset h₃₄ h₄ => ?_
    refine .after_of (mirrors_compileForIncrement he hparse _ h₄)
      (yields_compileForIncrement_start h₃₄.codeSize) fun start s₅ hstart h₄₅ h₅ => ?_
    refine .bind (hparse.statement s₅ h₅) (fun _ s₆ _ h₆ => ?_) fun _ s₆ k hk => ?_
    · refine .of_mirrors (.heed h₆ fun _ s₇ h₇ => ?_)
      cases exit? with
      | none => exact .heedless h₇
      | some exit => exact .heedless h₇
    · refine .bind (keeps_emitLoop (Nat.le_trans hstart hk)) fun _ s₇ => ?_
      cases exit? with
      | none => exact keeps_endScope
      | some exit =>
        have hwritten := hoffset exit rfl
        have hsize := h₄₅.codeSize
        exact .bind (keeps_patchJump (.inl (by omega))) fun _ _ =>
          .bind (keeps_emitOp rfl) fun _ _ => keeps_endScope
  · -- The first clause cannot be the last one.
    refine .absurd fun hend => .step (codeSize_apply s₃) fun _ => ?_
    exact (yields_compileForCondition_of_end hend).bind fun _ _ _ h => h.elim

lemma mirrors_compilePrint {s : State} (hs : Ends mode e s) :
    Mirrors mode e (compilePrint (parse fuel)) (fun x => compilePrint (parse (more x + fuel))) s :=
  .bind (mirrors_expression hparse.exprs hs) fun _ _ ht =>
    .bind (mirrors_consume he (by simp) _ ht) fun _ _ hu => .heedless hu

lemma mirrors_compileReturn {s : State} (hs : Ends mode e s) :
    Mirrors mode e (compileReturn (parse fuel)) (fun x => compileReturn (parse (more x + fuel))) s := by
  simp only [compileReturn]
  refine .get (.ite (fun _ => .absurd (.error_bind _)) fun _ => ?_)
  by_cases hend : s.current.kind = .eof
  · refine .absurd (.step (accept_of_end (by simp) hend) fun _ => ?_)
    exact (yields_expression_of_end hend).bind fun _ _ _ h => h.elim
  refine .bind (mirrors_accept he (by simp) (by simp [hend]) hs) fun b t ht => ?_
  refine .ite (fun _ => .heedless ht) fun _ => ?_
  refine .bind (mirrors_expression hparse.exprs ht) fun _ u hu => ?_
  exact .bind (mirrors_consume he (by simp) _ hu) fun _ v hv => .heedless hv

omit he in
/-- In a block the compilations go alike, as long as the end is not reached. -/
lemma yields_loop_blockStep (bound : Nat) {s : State} (hs : Ends mode e s) :
    Yields (loop bound (blockStep (parse fuel))) s fun a t => Ends mode e t ∧
      (t.current.kind ≠ .eof → ∀ x, x.Fits mode e →
        loop (more x + bound) (blockStep (parse (more x + fuel))) (s.onto x) = .ok a (t.onto x)) := by
  induction bound generalizing s with
  | zero => exact fun _ _ _ h => nomatch h
  | succ bound ih =>
    intro hsane a v h hv
    rw [loop_blockStep_apply] at h
    split at h
    · rename_i hstop
      cases h
      refine ⟨hs, fun hend x _ => ?_⟩
      have hcurrent : (s.onto x).current = s.current := if_neg hend
      exact (loop_blockStep_apply _ (more x + bound) _).trans (if_pos (hcurrent ▸ hstop))
    · rename_i hgoes
      have hinside : s.current.kind ≠ .eof := fun heof => hgoes (.inr heof)
      have hrest : Yields (parse fuel .declaration >>= fun _ => loop bound (blockStep (parse fuel))) s
          fun a v => Ends mode e v ∧ (v.current.kind ≠ .eof → ∀ x, x.Fits mode e →
            (parse (more x + fuel) .declaration >>= fun _ =>
              loop (more x + bound) (blockStep (parse (more x + fuel)))) (s.onto x) =
                .ok a (v.onto x)) := by
        refine Yields.bind (hparse.declaration s hs) fun _ t _ hdeclaration => ?_
        have ht : Ends mode e t := hdeclaration.elim And.left fun ⟨_, _, _, hspent, _⟩ => hspent.ends
        refine (ih ht).advancing.mono fun a v ⟨htv, hv, honto⟩ => ⟨hv, fun hend x hx => ?_⟩
        rcases hdeclaration with ⟨-, hsame⟩ | ⟨-, k, -, hspent, -⟩
        · have hfirst : parse (more x + fuel) .declaration (s.onto x) = .ok _ (t.onto x) := hsame x hx
          rw [bind_apply, hfirst]
          exact honto hend x hx
        · exact absurd (htv.current_of_end (hspent.ends.last hspent.current).2 hspent.current) hend
      obtain ⟨hends, honto⟩ := hrest hsane a v h hv
      refine ⟨hends, fun hend x hx => ?_⟩
      have hcurrent : (s.onto x).current = s.current := if_neg hinside
      refine (loop_blockStep_apply _ (more x + bound) _).trans ((if_neg ?_).trans (honto hend x hx))
      rw [hcurrent]
      exact hgoes

/-- At the end a block is not closed. -/
lemma mirrors_compileBlock (bound : Nat) {s : State} (hs : Ends mode e s) :
    Mirrors mode e (compileBlock bound (parse fuel))
      (fun x => compileBlock (more x + bound) (parse (more x + fuel))) s := by
  refine Yields.bind (yields_loop_blockStep hparse bound hs) fun _ t _ ⟨ht, honto⟩ => ?_
  by_cases hend : t.current.kind = .eof
  · refine (yields_consume (by simp) _ t).mono fun _ u ⟨hkind, _⟩ => ?_
    rw [hend] at hkind
    cases hkind
  · refine (mirrors_consume he (by simp) _ ht).mono fun _ u ⟨hu, hconsume⟩ => ⟨hu, fun x hx => ?_⟩
    show (loop (more x + bound) (blockStep (parse (more x + fuel))) >>= fun _ =>
      consume .rightBrace .braceAfterBlock) (s.onto x) = _
    rw [bind_apply, honto hend x hx]
    exact hconsume x hx

omit hparse in
lemma mirrors_compileParameters (bound : Nat) {s : State} (hs : Ends mode e s) :
    Mirrors mode e (compileParameters bound) (fun x => compileParameters (more x + bound)) s := by
  induction bound generalizing s with
  | zero => exact .absurd fun _ _ _ h => nomatch h
  | succ bound ih =>
    show Mirrors mode e (compileParameters (bound + 1))
      (fun x => compileParameters ((more x + bound) + 1)) s
    simp only [compileParameters]
    have harity : Heedless (modify fun s => { s with scope := { s.scope with
        arity := s.scope.arity + 1 } } : CompileM Unit) := .modify fun _ _ => rfl
    refine .heed hs fun _ t ht => .get (.ite (fun _ => ?_) fun _ => ?_)
    · -- One parameter too many.
      refine .absurd (.bind (P := fun _ _ => False) ?_ fun _ _ _ h => h.elim)
      intro hsane _ _ h hclean
      cases h
      exact hsane.report_errors_ne_nil _ _ hclean
    · refine .bind (mirrors_parseVariable he _ ht) fun n u hu => .heed hu fun _ v hv => ?_
      refine .bind (mirrors_accept he (by simp) (by simp) hv) fun b w hw => ?_
      exact .ite (fun _ => ih hw) fun _ => .heedless hw

lemma mirrors_functionBody (bound : Nat) {s : State} (hs : Ends mode e s) :
    Mirrors mode e (functionBody bound (parse fuel))
      (fun x => functionBody (more x + bound) (parse (more x + fuel))) s := by
  simp only [functionBody]
  have hend : ∀ v, Ends mode e v → Mirrors mode e
      (consume .rightParen .parenAfterParameters >>= fun _ => consume .leftBrace .braceBeforeBody >>=
        fun _ => compileBlock bound (parse fuel) >>= fun _ => finishFunction)
      (fun x => consume .rightParen .parenAfterParameters >>= fun _ =>
        consume .leftBrace .braceBeforeBody >>= fun _ =>
          compileBlock (more x + bound) (parse (more x + fuel)) >>= fun _ => finishFunction) v :=
    fun v hv => .bind (mirrors_consume he (by simp) _ hv) fun _ _ hw =>
      .bind (mirrors_consume he (by simp) _ hw) fun _ _ hw =>
        .bind (mirrors_compileBlock he hparse bound hw) fun _ _ hw => .heedless hw
  refine .heed hs fun _ t ht => .bind (mirrors_consume he (by simp) _ ht) fun _ u hu => ?_
  refine .check he (by simp) (by simp) fun b _ => .ite (fun _ => hend u hu) fun _ => ?_
  exact .bind (mirrors_compileParameters he bound hu) fun _ v hv => hend v hv

lemma mirrors_compileFunction (bound : Nat) {s : State} (hs : Ends mode e s) :
    Mirrors mode e (compileFunction bound (parse fuel))
      (fun x => compileFunction (more x + bound) (parse (more x + fuel))) s := by
  simp only [compileFunction_eq]
  refine Yields.bracket (mirrors_functionBody he hparse bound (hs.of_prospect rfl)) ?_
  intro p t scope enclosing henclosing ⟨ht, honto⟩
  have houter : Ends mode e { t with scope, enclosing } := ht.of_prospect rfl
  refine (Mirrors.heedless houter).mono fun _ v ⟨hv, hclosure⟩ => ⟨hv, fun x hx => ?_⟩
  have hleave : leaveFunction (t.onto x) = .ok () (({ t with scope, enclosing } : State).onto x) := by
    have hsame : (t.onto x).enclosing = scope :: enclosing := henclosing
    rw [leaveFunction, modify_apply, hsame]
    rfl
  have hbody : functionBody (more x + bound) (parse (more x + fuel)) { s.onto x with
      scope := .new .function s.previous.lexeme, enclosing := s.scope :: s.enclosing } =
      .ok p (t.onto x) := honto x hx
  beta_reduce
  rw [bind_apply, enterFunction_apply]
  show (functionBody _ _ >>= fun a => leaveFunction >>= fun _ => _) { s.onto x with
      scope := .new .function s.previous.lexeme, enclosing := s.scope :: s.enclosing } = _
  rw [bind_apply, hbody]
  dsimp only
  rw [bind_apply, hleave]
  exact hclosure x hx

lemma mirrors_compileFun (bound : Nat) {s : State} (hs : Ends mode e s) :
    Mirrors mode e (compileFun bound (parse fuel))
      (fun x => compileFun (more x + bound) (parse (more x + fuel))) s :=
  .bind (mirrors_parseVariable he _ hs) fun _ _ ht => .heed ht fun _ _ hu =>
    .bind (mirrors_compileFunction he hparse bound hu) fun _ _ hv => .heedless hv

lemma prints_compileStatement (bound : Nat) {s : State} (hs : Ends mode e s) :
    Prints mode e (compileStatement bound (parse fuel))
      (fun x => compileStatement (more x + bound) (parse (more x + fuel))) s := by
  simp only [compileStatement]
  refine .after (mirrors_accept he (by simp) (by simp) hs) fun _ t _ ht =>
    .ite (fun _ => .of_mirrors (mirrors_compilePrint he hparse ht)) fun _ => ?_
  refine .after (mirrors_accept he (by simp) (by simp) ht) fun _ t _ ht =>
    .ite (fun _ => prints_compileIf he hparse ht) fun _ => ?_
  refine .after (mirrors_accept he (by simp) (by simp) ht) fun _ t _ ht =>
    .ite (fun _ => .of_mirrors (mirrors_compileReturn he hparse ht)) fun _ => ?_
  refine .after (mirrors_accept he (by simp) (by simp) ht) fun _ t _ ht =>
    .ite (fun _ => prints_compileWhile he hparse ht) fun _ => ?_
  refine .after (mirrors_accept he (by simp) (by simp) ht) fun _ t _ ht =>
    .ite (fun _ => prints_compileFor he hparse ht) fun _ => ?_
  refine .after (mirrors_accept he (by simp) (by simp) ht) fun _ t _ ht =>
    .ite (fun _ => .of_mirrors ?_) fun _ => prints_compileExpressionStatement he hparse ht
  exact .heed ht fun _ _ hu => .bind (mirrors_compileBlock he hparse bound hu) fun _ _ hv =>
    .heedless hv

omit he hparse in
/-- The other compilation may have an error to recover from. -/
lemma keeps_recovery {k bound : Nat} (hbound : 0 < bound) {t : State} :
    Keeps mode e k (get >>= fun s : State => if s.panicking then synchronize bound else pure ())
      (fun x => get >>= fun s : State => if s.panicking then synchronize (more x + bound) else pure ())
      t := by
  refine fun ht => Yields.step (get_apply t) fun _ => ?_
  split
  · rename_i hpanic
    exact .of_panicking hpanic
  · refine .of_ok (pure_apply () t) ⟨ht, fun x u hu => ?_⟩
    beta_reduce
    rw [bind_apply, get_apply]
    dsimp only
    split
    · exact ⟨_, synchronize_of_end (by omega) hu.current, hu.current, hu.rest, hu.errors, hu.scope,
        hu.chunk⟩
    · exact ⟨u, rfl, hu⟩

lemma prints_compileDeclaration {s : State} (hs : Ends mode e s) :
    Prints mode e (compileDeclaration fuel (parse fuel))
      (fun x => compileDeclaration (more x + fuel) (parse (more x + fuel))) s := by
  simp only [compileDeclaration]
  have hend : ∀ t, Ends mode e t → Mirrors mode e
      (get >>= fun s : State => if s.panicking then synchronize fuel else pure ())
      (fun x => get >>= fun s : State => if s.panicking then synchronize (more x + fuel) else pure ())
      t :=
    fun t ht => .get (.ite (fun hpanic => .absurd (.of_panicking hpanic)) fun _ => .heedless ht)
  refine .nested (.after (mirrors_accept he (by simp) (by simp) (hs.of_prospect rfl)) fun _ t _ ht =>
    .ite (fun _ => .of_mirrors (.absurd ?_)) fun _ => ?_)
  · -- A class declaration is refused.
    refine .bind (P := fun _ _ => False) ?_ fun _ _ _ h => h.elim
    simp only [refuseClass]
    exact .error_bind _
  refine .after (mirrors_accept he (by simp) (by simp) ht) fun _ t _ ht =>
    .ite (fun _ => .of_mirrors (.bind (mirrors_compileFun he hparse _ ht) fun _ u hu => hend u hu))
      fun _ => ?_
  refine .after (mirrors_accept he (by simp) (by simp) ht) fun _ t _ ht =>
    .ite (fun _ => .of_mirrors (.bind (mirrors_compileVar he hparse ht) fun _ u hu => hend u hu))
      fun _ => ?_
  cases fuel with
  | zero => exact .of_mirrors (.absurd fun _ _ _ h => by cases h)
  | succ fuel =>
    exact .bind (hparse.statement t ht) (fun _ u _ hu => .of_mirrors (hend u hu)) fun _ u k _ =>
      keeps_recovery (Nat.succ_pos _)

end Statements

/-! ## Programs -/

/-- Every phrase is compiled alike, up to a last expression that is printed. -/
theorem prints_parse {mode : Bool} {e : Token} (he : e.kind = .eof) (more : Prospect → Nat)
    (fuel : Nat) : PrintsStmts mode e more fuel := by
  induction fuel with
  | zero =>
    exact ⟨fun _ _ _ => .absurd (fun _ _ _ h => nomatch h),
      fun _ _ => .of_mirrors (.absurd (fun _ _ _ h => nomatch h)),
      fun _ _ => .of_mirrors (.absurd fun _ _ _ h => nomatch h)⟩
  | succ fuel ih =>
    exact ⟨fun p _ hs => mirrors_compileExpression he ih.exprs fuel p hs,
      fun _ hs => prints_compileStatement he ih fuel hs,
      fun _ hs => prints_compileDeclaration he ih hs⟩

end Lox.Compiler
