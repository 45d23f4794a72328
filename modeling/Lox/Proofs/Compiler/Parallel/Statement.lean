import Lox.Proofs.Compiler.Parallel
import Lox.Proofs.Compiler.Reading.Statement

/-!
# Declarations and statements of a source and its beginning

One lemma for each of the compiler's functions says how a compilation of the beginning of a source
follows that of the whole (`Parallels`).  Only a statement that ends with an expression to be printed,
or with a conditional that has no `else` yet, may be ended before the whole is.  What the second
compilation then still writes is shorter than what the first one writes: jumps over and back to code
of the same shape, and one instruction for each local that leaves a block.

A declaration ends a panic.  After it the second compilation is in step again, or the beginning has
ended (`Recovers`).
-/

namespace Lox.Compiler

open FunctionScope

-- The longest sequences of steps whose properties are found by instance resolution are here.
set_option synthInstance.maxSize 2000

section Statements

variable {s t u v : State} {may : Prop} {fuel fuel' : Nat}

/-! ## Locals between statements -/

lemma yields_expression_settled (hs : s.context.Settled) :
    Yields (expression (parse fuel)) s fun _ t => t.context.Settled :=
  (yields_expression (yields_parse fuel).exprs s).mono fun _ _ ⟨_, _, _, he⟩ =>
    (Context.Keeps.of_grows hs he.emits.grows).settled

/-- A statement leaves the locals there are. -/
lemma yields_statement_keeps (hs : s.context.Settled) :
    Yields (parse fuel .statement) s fun _ t =>
      s.context.Keeps t.context ∧ t.scope.depth = s.scope.depth :=
  ((yields_parse fuel).statement s).mono fun _ _ ⟨_, _, _, h⟩ =>
    have hstructured := h.derives.structured
    ⟨(h.emits.extends hs hstructured.1).2 (hstructured.2 rfl), h.emits.widens.depth⟩

lemma yields_declaration_settled (hs : s.context.Settled) :
    Yields (parse fuel .declaration) s fun _ t => t.context.Settled :=
  ((yields_parse fuel).declaration s).mono fun _ _ ⟨_, _, _, h, _⟩ =>
    (h.emits.extends hs h.derives.structured.1).1.settled

lemma yields_initializer_settled (hdepth : 0 < s.scope.depth) (hs : s.context.Settled) :
    Yields (compileForInitializer (parse fuel)) s fun _ t => t.context.Settled :=
  (yields_compileForInitializer (yields_parse fuel) s hdepth).mono fun _ _ ⟨_, _, _, h⟩ =>
    (h.emits.extends hs h.derives.structured.1).1.settled

lemma yields_condition_settled (hs : s.context.Settled) :
    Yields (compileForCondition (parse fuel)) s fun _ t => t.context.Settled := by
  refine (yields_compileForCondition (yields_parse fuel) s).mono ?_
  rintro _ t (⟨_, _, _, hcontext, _⟩ | ⟨_, _, _, _, _, _, _, _, hemits, _, _⟩)
  · exact hcontext ▸ hs
  · exact (Context.Keeps.of_grows hs hemits.grows).settled

lemma yields_increment_settled (start : Nat) (hs : s.context.Settled) :
    Yields (compileForIncrement (parse fuel) start) s fun _ t => t.context.Settled := by
  refine (yields_accept (by simp) s).bind ?_
  rintro b t - (⟨rfl, -, hconsumed⟩ | ⟨rfl, -, rfl⟩)
  · exact .of_ok (pure_apply start t) (hconsumed.context ▸ hs)
  · refine .step (emitJump_apply _ t rfl) fun _ => .step (codeSize_apply _) fun _ => ?_
    refine (yields_expression_settled (s := t.write _ _) hs).bind fun _ u _ hu => ?_
    refine .step (emitOp_apply _ u rfl) fun _ => (yields_consume (by simp) _ _).bind ?_
    rintro _ v - ⟨-, hconsumed⟩
    refine (yields_emitLoop_fits start v).bind fun _ w _ ⟨_, _, hw⟩ => ?_
    refine (yields_patchJump_fits _ w).bind fun _ x _ ⟨_, _, hx⟩ => .of_ok (pure_apply _ x) ?_
    rw [hx, hw, hconsumed.context]
    exact hu

lemma yields_parameters_settled (bound : Nat) (hdepth : 0 < s.scope.depth) (hs : s.context.Settled) :
    Yields (compileParameters bound) s fun _ t => t.context.Settled :=
  (yields_compileParameters bound s hdepth).mono fun _ _ ⟨_, _, _, _, htakes, _⟩ =>
    htakes.settled hs hdepth

/-! ## Statements -/

/-- After a declaration the second compilation is in step, or the beginning has ended. -/
def Recovers {α : Type} (f f' : CompileM α) (s u : State) : Prop :=
  Yields f s fun _ t => Lands f' u fun _ v => InStep t v ∨ Exhausted v

/-- What comes after a declaration. -/
lemma Recovers.bind {α β : Type} {f f' : CompileM α} {g g' : α → CompileM β} {P : α → State → Prop}
    [Steady f] [∀ a, Steady (g a)] (h : Recovers f f' s u) (hP : Yields f s P)
    (hstep : ∀ a b t v, P a t → InStep t v → Recovers (g a) (g' b) t v)
    (hend : ∀ b v, Exhausted v → Lands (g' b) v fun _ w => Exhausted w) :
    Recovers (f >>= g) (f' >>= g') s u := by
  have hboth : Yields f s fun a t => P a t ∧ Lands f' u fun _ v => InStep t v ∨ Exhausted v :=
    fun hs a t hft ht => ⟨hP hs a t hft ht, h hs a t hft ht⟩
  refine Yields.bind hboth fun a t _ ⟨hPt, hlands⟩ => ?_
  cases hrun : f' u with
  | error e v => exact fun _ _ _ _ _ => hlands.abort hrun
  | ok b v =>
    have hrest : Recovers (g a) (g' b) t v := by
      rcases hlands.ok hrun with hin | hover
      · exact hstep a b t v hPt hin
      · exact fun _ _ _ _ _ => (hend b v hover).mono fun _ _ => .inr
    exact hrest.mono fun _ _ => .step hrun

/-- The statements inside are compiled alike, but the second compilation may end one before the
first does. -/
structure ParallelsStmts (fuel fuel' : Nat) : Prop where
  statement : ∀ s u, InStep s u → s.context.Settled →
    Parallels True (parse fuel .statement) (parse fuel' .statement) s u
  declaration : ∀ s u, InStep s u → Inside s u → s.context.Settled →
    Recovers (parse fuel .declaration) (parse fuel' .declaration) s u

/-- An expression that has to be followed by something. -/
lemma Parallels.expression {α : Type} {g g' : Unit → CompileM α} [∀ a, Steady (g a)]
    [∀ b, Numb (g' b)] (h : InStep s u) (hstep : ∀ t v, InStep t v → Parallels may (g ()) (g' ()) t v)
    (hg : Strands (g' ())) :
    Parallels may (expression (parse fuel) >>= g) (expression (parse fuel') >>= g') s u :=
  .before (parallels_expression (parallelsExprs fuel fuel') h) (fun _ => hstep) fun _ => hg

/-- A condition in parentheses. -/
lemma Parallels.condition {α : Type} {g g' : Unit → CompileM α} [∀ a, Steady (g a)]
    [∀ b, Numb (g' b)] {w : Expected} (h : InStep s u) (hs : s.context.Settled)
    (hstep : ∀ t v, InStep t v → t.context.Settled → Parallels may (g ()) (g' ()) t v) :
    Parallels may
      (Compiler.consume .leftParen w >>= fun _ => Compiler.expression (parse fuel) >>= fun _ =>
        Compiler.consume .rightParen .parenAfterCondition >>= g)
      (Compiler.consume .leftParen w >>= fun _ => Compiler.expression (parse fuel') >>= fun _ =>
        Compiler.consume .rightParen .parenAfterCondition >>= g') s u := by
  refine .consume (by simp) _ h fun t v hcontext hv => ?_
  refine (parallels_expression (parallelsExprs fuel fuel') hv).bind_of
    (yields_expression_settled (hcontext ▸ hs)) (fun _ t v ht hv => ?_) ?_
  · exact .consume (by simp) _ hv fun t' v' hcontext hv => hstep t' v' hv (hcontext ▸ ht)
  · exact fun _ _ _ _ _ _ _ => .of_strands (.bind (strands_consume (by simp) _))

lemma parallels_compileExpressionStatement (h : InStep s u) :
    Parallels True (compileExpressionStatement (parse fuel))
      (compileExpressionStatement (parse fuel')) s u := by
  -- The second compilation prints the expression at the end, or misses the semicolon there.
  have hend : ∀ t v, Trails t v → Lags True
      (get >>= fun s : State => if s.interactive && s.scope.kind = .script && s.scope.depth = 0 &&
          s.current.kind = .eof then emitOp .print
        else consume .semicolon .semicolonAfterExpression >>= fun _ => emitOp .pop)
      (get >>= fun s : State => if s.interactive && s.scope.kind = .script && s.scope.depth = 0 &&
          s.current.kind = .eof then emitOp .print
        else consume .semicolon .semicolonAfterExpression >>= fun _ => emitOp .pop) t v := by
    intro t v hv
    by_cases hprints : (v.interactive && v.scope.kind = .script && v.scope.depth = 0 &&
        v.current.kind = .eof) = true
    · obtain ⟨w, hw, hwrote, -⟩ := exists_emitOp .print v
      refine .write (n := 1) (P := True) hv ?_ fun _ => .step (get_apply v) ?_
      · refine .step (get_apply t) fun _ => ?_
        split
        · obtain ⟨t', ht', hwrote', -⟩ := exists_emitOp .print t
          exact .of_ok ht' ⟨trivial, Nat.le_of_eq hwrote'.codeSize.symm⟩
        · refine .skip fun _ t₁ h₁ => ?_
          obtain ⟨t', ht', hwrote', -⟩ := exists_emitOp .pop t₁
          refine .of_ok ht' ⟨trivial, ?_⟩
          rw [hwrote'.codeSize]
          exact Nat.add_le_add_right h₁.codeSize 1
      · rw [if_pos hprints]
        exact .of_ok hw hwrote
    · refine fun _ _ _ _ _ => .step (get_apply v) ?_
      rw [if_neg hprints]
      exact (Strands.bind (strands_consume (by simp) _) v hv.exhausted).mono fun _ _ => .inr
  refine (parallels_expression (parallelsExprs fuel fuel') h).bind (fun _ t v hv => ?_)
    fun _ _ t _ v _ hv => hend t v hv
  rcases hv.place with hin | hover
  · have hmore : ∀ s : State, s.current.kind ≠ .eof → (s.interactive && s.scope.kind = .script &&
        s.scope.depth = 0 && s.current.kind = .eof) = false := fun s hs => by simp [hs]
    refine .look (get_apply t) (get_apply v) ?_
    rw [hmore t hin.more, hmore v (hin.current ▸ hin.more)]
    exact .consume (by simp) _ hv fun _ _ _ hv => .heedless hv
  · exact .of_lags (hend t v (hv.trails hover))

lemma parallels_compilePrint (h : InStep s u) :
    Parallels may (compilePrint (parse fuel)) (compilePrint (parse fuel')) s u :=
  .expression h (fun _ _ hv => .consume (by simp) _ hv fun _ _ _ hv => .heedless hv)
    (.bind (strands_consume (by simp) _))

lemma parallels_compileReturn (h : InStep s u) :
    Parallels may (compileReturn (parse fuel)) (compileReturn (parse fuel')) s u := by
  simp only [compileReturn]
  refine .look (get_apply s) (get_apply u) ?_
  rw [h.scope]
  refine .ite (fun _ => .absurd (.error_bind _)) fun _ => ?_
  refine .accept (by simp) h (fun _ _ _ hv => .heedless (f := emitReturn) hv) (fun _ => ?_) fun hend =>
    .of_strands (.bind (strands_parse_expression fuel' .assignment)) hend
  exact .expression h (fun _ _ hv => .consume (by simp) _ hv fun _ _ _ hv => .heedless hv)
    (.bind (strands_consume (by simp) _))

lemma parallels_parseVariable (w : Expected) (h : InStep s u) :
    Parallels may (parseVariable w) (parseVariable w) s u := by
  refine .consume (by simp) _ h fun t v _ hv => .look (get_apply t) (get_apply v) ?_
  rw [hv.scope, hv.previous]
  exact .ite (fun _ => .heed hv fun _ _ _ hv => .heedless hv) fun _ => .heedless hv

lemma parallels_compileVar (h : InStep s u) :
    Parallels may (compileVar (parse fuel)) (compileVar (parse fuel')) s u := by
  simp only [compileVar]
  refine .after (parallels_parseVariable _ h) fun global t v hv => ?_
  have hend : ∀ t v, InStep t v → Parallels may
      (consume .semicolon .semicolonAfterVariable >>= fun _ => defineVariable global)
      (consume .semicolon .semicolonAfterVariable >>= fun _ => defineVariable global) t v :=
    fun _ _ hv => .consume (by simp) _ hv fun _ _ _ hv => .heedless hv
  have hmissing : Strands (consume .semicolon .semicolonAfterVariable >>= fun _ =>
      defineVariable global) := .bind (strands_consume (by simp) _)
  refine .accept (by simp) hv (fun t v _ hv => .expression hv hend hmissing)
    (fun _ => .heed hv fun _ _ _ hv => hend _ _ hv) fun hover => .of_strands ?_ hover
  exact strands_emitOp _ hmissing

/-! ## Conditionals and loops -/

variable (hparse : ParallelsStmts fuel fuel')

include hparse

lemma parallels_compileIf (h : InStep s u) (hs : s.context.Settled) :
    Parallels True (compileIf (parse fuel)) (compileIf (parse fuel')) s u := by
  simp only [compileIf]
  refine .condition h hs fun t v hv ht => ?_
  refine .emit hv (emitJump_apply .jumpIfFalse t rfl) fun v hv => ?_
  refine .emit hv (emitOp_apply .pop _ rfl) fun v hv => ?_
  refine (hparse.statement _ _ hv ht).bind_of (yields_statement_keeps ht) (fun _ t v ht hv => ?_)
    fun _ _ t _ v _ _ hend => ?_
  · refine .emit hv (emitJump_apply .jump t rfl) fun v hv => ?_
    refine .after_of (.heedless hv) (yields_patchJump_fits _ _) fun _ t' v ⟨_, hw, hcontext⟩ hv => ?_
    have hsize := hw.codeSize
    simp only [size_write, Opcode.size, Opcode.operandWidth] at hsize
    have hsettled : t'.context.Settled := hcontext ▸ ht.1.settled
    refine .emit hv (emitOp_apply .pop t' rfl) fun v hv => ?_
    refine .accept (by simp) hv (fun t₁ v hsame hv => ?_)
      (fun _ => .heedless (f := patchJump _) hv) fun hend => ?_
    · exact (hparse.statement _ _ hv (hsame ▸ hsettled)).bind (fun _ _ _ hv => .heedless hv)
        fun _ _ _ _ _ _ hend => hend.lags_patchJump _
    · -- The source may go on with an `else`.
      have hshort := hend.codeSize
      simp only [size_write, Opcode.size, Opcode.operandWidth] at hshort
      exact .still hend ((lands_patchJump (by simp only [Chunk.maxShort]; omega)).mono fun _ _ => And.left)
  · -- The first branch has ended the source already.
    refine .bind (hend.lags_wrote (exists_emitJump _ rfl t) (exists_emitJump _ rfl v))
      fun _ _ t _ v₁ hrun hend => ?_
    obtain ⟨_, hjump, hw, -⟩ := exists_emitJump .jump rfl v
    rw [hrun] at hjump
    cases hjump
    refine .bind (hend.lags_patchJump _) fun _ _ t _ v₂ hpatch hend => ?_
    refine .bind (hend.lags_wrote (exists_emitOp _ t) (exists_emitOp _ v₂))
      fun _ _ t _ v₃ hpop hend => ?_
    obtain ⟨_, hpop', hw', -⟩ := exists_emitOp .pop v₂
    rw [hpop] at hpop'
    cases hpop'
    have hsize := hw'.codeSize
    rw [codeSize_of_patchJump hpatch, hw.codeSize] at hsize
    exact .still hend (.step (accept_of_end (by simp) hend.current)
      ((lands_patchJump (by simp only [Chunk.maxShort]; omega)).mono fun _ _ => And.left))

lemma parallels_compileWhile (h : InStep s u) (hs : s.context.Settled) :
    Parallels True (compileWhile (parse fuel)) (compileWhile (parse fuel')) s u := by
  refine .emit h (codeSize_apply s) fun u hu => .condition hu hs fun t v hv ht => ?_
  refine .emit hv (emitJump_apply .jumpIfFalse t rfl) fun v hv => ?_
  refine .emit hv (emitOp_apply .pop _ rfl) fun v hv => ?_
  refine (hparse.statement _ _ hv ht).bind (fun _ _ _ hv => .heedless hv) fun _ _ _ _ _ _ hend => ?_
  refine .bind (hend.lags_emitLoop _) fun _ _ _ _ _ _ hend => ?_
  refine .bind (hend.lags_patchJump _) fun _ _ t _ v _ hend => ?_
  exact hend.lags_wrote (exists_emitOp _ t) (exists_emitOp _ v)

omit hparse in
lemma parallels_compileForInitializer (h : InStep s u) :
    Parallels True (compileForInitializer (parse fuel)) (compileForInitializer (parse fuel')) s u := by
  have hmissing : Strands (compileExpressionStatement (parse fuel')) :=
    strands_compileExpressionStatement (strands_parse_expression fuel' .assignment)
  refine .accept (by simp) h (fun _ _ _ hv => .heedless (f := pure ()) hv) (fun hin => ?_) fun hover =>
    .of_strands (.accept (by simp) hmissing) hover
  exact .accept_inside h hin (fun _ _ _ hv => parallels_compileVar hv)
    (parallels_compileExpressionStatement h)

omit hparse in
lemma parallels_compileForCondition (h : InStep s u) :
    Parallels may (compileForCondition (parse fuel)) (compileForCondition (parse fuel')) s u := by
  refine .accept (by simp) h (fun _ _ _ hv => .heedless (f := pure none) hv) (fun _ => ?_) fun hover =>
    .of_strands (.bind (strands_parse_expression fuel' .assignment)) hover
  exact .expression h (fun _ _ hv => .consume (by simp) _ hv fun _ _ _ hv => .heedless hv)
    (.bind (strands_consume (by simp) _))

omit hparse in
lemma parallels_compileForIncrement (start : Nat) (h : InStep s u) :
    Parallels may (compileForIncrement (parse fuel) start) (compileForIncrement (parse fuel') start)
      s u := by
  refine .accept (by simp) h (fun _ _ _ hv => .heedless (f := pure start) hv) (fun _ => ?_) fun hover =>
    .of_strands ?_ hover
  · refine .heed h fun body t v hv => .heed hv fun increment t v hv => ?_
    exact .expression hv (fun _ _ hv => .heed hv fun _ _ _ hv => .consume (by simp) _ hv fun _ _ _ hv =>
      .heedless hv) (strands_emitOp _ (.bind (strands_consume (by simp) _)))
  · exact strands_emitJump rfl fun _ => strands_codeSize fun _ =>
      .bind (strands_parse_expression fuel' .assignment)

omit hparse in
/-- The same locals leave the block of a loop in both compilations. -/
lemma lags_forEnd (start : Nat) (exit? : Option Nat) (h : Trails s u)
    (hleaving : u.context.leaving.length = s.context.leaving.length) :
    Lags True
      (emitLoop start >>= fun _ => match exit? with
        | none => endScope
        | some exit => do
          patchJump exit
          emitOp .pop
          endScope)
      (emitLoop start >>= fun _ => match exit? with
        | none => endScope
        | some exit => do
          patchJump exit
          emitOp .pop
          endScope) s u := by
  have hsize := h.codeSize
  have hloop : s.scope.chunk.code.size + 1 - start + 2 ≤ Chunk.maxShort →
      Lands (emitLoop start) u fun _ v => Wrote 3 u v ∧ v.context = u.context := fun hfits =>
    lands_emitLoop (by omega)
  cases exit? with
  | none =>
    refine .write (n := 3 + s.context.leaving.length)
      (P := s.scope.chunk.code.size + 1 - start + 2 ≤ Chunk.maxShort) h ?_ fun hfits => ?_
    · refine (yields_emitLoop_fits start s).bind fun _ t _ ⟨hfits, hw, hcontext⟩ => ?_
      obtain ⟨t', hend, hw'⟩ := exists_endScope t
      rw [hcontext] at hw'
      exact .of_ok hend ⟨hfits, Nat.le_of_eq (hw.trans hw').codeSize.symm⟩
    · refine (hloop hfits).bind fun _ v _ ⟨hw, hcontext⟩ => ?_
      obtain ⟨v', hend, hw'⟩ := exists_endScope v
      rw [hcontext, hleaving] at hw'
      exact .of_ok hend (hw.trans hw')
  | some exit =>
    refine .write (n := 3 + 0 + 1 + s.context.leaving.length)
      (P := s.scope.chunk.code.size + 1 - start + 2 ≤ Chunk.maxShort ∧
        s.scope.chunk.code.size + 3 - exit - 2 ≤ Chunk.maxShort) h ?_ fun ⟨hfits, hfits'⟩ => ?_
    · refine (yields_emitLoop_fits start s).bind fun _ t₁ _ ⟨hfits, hw₁, hcontext₁⟩ => ?_
      refine (yields_patchJump_fits exit t₁).bind fun _ t₂ _ ⟨hfits', hw₂, hcontext₂⟩ => ?_
      obtain ⟨t₃, hpop, hw₃, hcontext₃⟩ := exists_emitOp .pop t₂
      obtain ⟨t₄, hend, hw₄⟩ := exists_endScope t₃
      rw [hcontext₃, hcontext₂, hcontext₁] at hw₄
      rw [hw₁.codeSize] at hfits'
      exact .step hpop fun _ => .of_ok hend
        ⟨⟨hfits, hfits'⟩, Nat.le_of_eq (((hw₁.trans hw₂).trans hw₃).trans hw₄).codeSize.symm⟩
    · refine (hloop hfits).bind fun _ v₁ _ ⟨hw₁, hcontext₁⟩ => ?_
      have hsize₁ := hw₁.codeSize
      refine (lands_patchJump (by omega)).bind fun _ v₂ _ ⟨hw₂, hcontext₂⟩ => ?_
      obtain ⟨v₃, hpop, hw₃, hcontext₃⟩ := exists_emitOp .pop v₂
      obtain ⟨v₄, hend, hw₄⟩ := exists_endScope v₃
      rw [hcontext₃, hcontext₂, hcontext₁, hleaving] at hw₄
      exact .step hpop (.of_ok hend (((hw₁.trans hw₂).trans hw₃).trans hw₄))

lemma parallels_compileFor (h : InStep s u) (hs : s.context.Settled) :
    Parallels True (compileFor (parse fuel)) (compileFor (parse fuel')) s u := by
  simp only [compileFor]
  have hsteady := steady_exit
  have hnumb : ∀ exit?, Numb _ := maintains_exit
  refine .emit h (modify_apply _ s) fun u hu => .consume (by simp) _ hu fun t v hcontext hv => ?_
  have hbegin : t.context = s.context.beginScope := hcontext
  have ht : t.context.Settled := hbegin ▸ hs.beginScope
  have hdeep : 0 < t.scope.depth := by
    change 0 < t.context.scope.depth
    rw [hbegin]
    exact Nat.succ_pos _
  refine (parallels_compileForInitializer hv).bind_of (yields_initializer_settled hdeep ht)
    (fun _ t v ht hv => ?_) fun _ _ _ _ _ _ _ => .of_strands ?_
  swap
  · -- The first clause cannot be the last one.
    exact strands_codeSize fun _ => .bind (.accept (by simp)
      (.bind (strands_parse_expression fuel' .assignment)))
  refine .emit hv (codeSize_apply t) fun v hv => ?_
  refine .after_of (parallels_compileForCondition hv) (yields_condition_settled ht) fun exit? t v ht hv => ?_
  refine .after_of (parallels_compileForIncrement _ hv) (yields_increment_settled _ ht)
    fun start t v ht hv => ?_
  refine .of_sane fun hsane => ?_
  refine (hparse.statement t v hv ht).bind_of (yields_statement_keeps ht) (fun _ t v _ hv => ?_)
    fun _ _ t' _ v' hkeeps hrun hend => lags_forEnd start exit? hend ?_
  · cases exit? with
    | none => exact .heedless hv
    | some exit => exact .heedless hv
  · -- What the second compilation has compiled is a statement, too.
    have hsame : v.context = t.context := by rw [hv.same]; rfl
    have hkeeps' := yields_statement_keeps (hsame ▸ ht) (hv.sane hsane) _ _ hrun hend.clean
    have hdepth : v.scope.depth = t.scope.depth := by rw [hv.scope]
    rw [hsame, hdepth] at hkeeps'
    exact (hkeeps'.1.length_leaving hkeeps'.2).trans (hkeeps.1.length_leaving hkeeps.2).symm

/-! ## Blocks and functions -/

/-- Declarations up to the end of the block, or of the beginning. -/
lemma recovers_loop_blockStep (rounds rounds' : Nat) (h : InStep s u) (hs : s.context.Settled) :
    Recovers (loop rounds (blockStep (parse fuel))) (loop rounds' (blockStep (parse fuel'))) s u := by
  induction rounds generalizing rounds' s u with
  | zero => exact fun _ _ _ h => nomatch h
  | succ rounds ih =>
    cases rounds' with
    | zero => exact fun _ _ _ _ _ => .of_fault rfl
    | succ rounds' =>
      have hstopped : ∀ v : State, v.current.kind = .eof →
          loop (rounds' + 1) (blockStep (parse fuel')) v = .ok () v := fun v hv =>
        (loop_blockStep_apply _ _ v).trans (if_pos (.inr hv))
      rcases h.place with hin | hover
      · intro hsane a w hrun hw
        rw [loop_blockStep_apply] at hrun
        split at hrun
        · rename_i hstop
          cases hrun
          exact .of_ok ((loop_blockStep_apply _ _ u).trans (if_pos (hin.current ▸ hstop))) (.inl h)
        · rename_i hgoes
          have hrest : Recovers
              (parse fuel .declaration >>= fun _ => loop rounds (blockStep (parse fuel)))
              (parse fuel' .declaration >>= fun _ => loop rounds' (blockStep (parse fuel'))) s u := by
            refine .bind (hparse.declaration s u h hin hs) (yields_declaration_settled hs)
              (fun _ _ t v ht hv => ih rounds' hv ht) fun _ v hv => ?_
            cases rounds' with
            | zero => exact .of_fault rfl
            | succ rounds' =>
              exact .of_ok ((loop_blockStep_apply _ _ v).trans (if_pos (.inr hv.current))) hv
          refine .congr ((loop_blockStep_apply _ _ u).trans (if_neg ?_)) (hrest hsane a w hrun hw)
          rw [hin.current]
          exact hgoes
      · exact fun _ _ _ _ _ => .of_ok (hstopped u hover.1) (.inr (h.trails hover).exhausted)

/-- At the end a block is not closed. -/
lemma parallels_compileBlock (bound bound' : Nat) (h : InStep s u) (hs : s.context.Settled) :
    Parallels may (compileBlock bound (parse fuel)) (compileBlock bound' (parse fuel')) s u := by
  show Parallels may (loop bound (blockStep (parse fuel)) >>= fun _ => consume .rightBrace .braceAfterBlock)
    (loop bound' (blockStep (parse fuel')) >>= fun _ => consume .rightBrace .braceAfterBlock) s u
  refine Yields.bind (recovers_loop_blockStep hparse bound bound' h hs) fun _ t _ hlands => ?_
  cases hrun : loop bound' (blockStep (parse fuel')) u with
  | error e v => exact fun _ _ _ _ _ => hlands.abort hrun
  | ok b v =>
    have hrest : Parallels may (consume .rightBrace .braceAfterBlock)
        (consume .rightBrace .braceAfterBlock) t v := by
      rcases hlands.ok hrun with hin | hover
      · exact parallels_consume (by simp) _ hin
      · exact fun _ _ _ _ _ => (strands_consume (by simp) _ v hover).mono fun _ _ h => .inr (.inr h)
    exact hrest.mono fun _ _ hlands => .step hrun hlands

omit hparse in
lemma parallels_compileParameters (bound bound' : Nat) (h : InStep s u) :
    Parallels True (compileParameters bound) (compileParameters bound') s u := by
  induction bound generalizing bound' s u with
  | zero => exact .absurd fun _ _ _ h => nomatch h
  | succ bound ih =>
    cases bound' with
    | zero => exact .of_fault rfl
    | succ bound' =>
      simp only [compileParameters]
      have hcount : Heedless (modify fun s => { s with scope := { s.scope with
          arity := s.scope.arity + 1 } } : CompileM Unit) := .modify fun _ _ => rfl
      refine .heed h fun _ t v hv => .look (get_apply t) (get_apply v) ?_
      rw [hv.scope]
      refine .ite (fun _ => ?_) fun _ => ?_
      · -- One parameter too many.
        refine .absurd (.bind (P := fun _ _ => False) ?_ fun _ _ _ h => h.elim)
        intro hsane _ _ h hclean
        cases h
        exact hsane.report_errors_ne_nil _ _ hclean
      · refine .after (parallels_parseVariable _ hv) fun n t v hv => .heed hv fun _ t v hv => ?_
        refine .accept (by simp) hv (fun t v _ hv => ih bound' hv)
          (fun _ => .heedless (f := pure ()) hv) fun hend => .idle hend (.of_ok (pure_apply () v) rfl)

lemma parallels_functionBody (bound bound' : Nat) (h : InStep s u) (hs : s.context.Settled) :
    Parallels may (functionBody bound (parse fuel)) (functionBody bound' (parse fuel')) s u := by
  simp only [functionBody]
  have hend : ∀ t v, InStep t v → t.context.Settled → Parallels may
      (consume .rightParen .parenAfterParameters >>= fun _ => consume .leftBrace .braceBeforeBody >>=
        fun _ => compileBlock bound (parse fuel) >>= fun _ => finishFunction)
      (consume .rightParen .parenAfterParameters >>= fun _ => consume .leftBrace .braceBeforeBody >>=
        fun _ => compileBlock bound' (parse fuel') >>= fun _ => finishFunction) t v := by
    refine fun t v hv ht => .consume (by simp) _ hv fun t₁ v hsame hv => ?_
    refine .consume (by simp) _ hv fun t₂ v hsame' hv => ?_
    exact .after (parallels_compileBlock hparse bound bound' hv (hsame' ▸ hsame ▸ ht)) fun _ _ _ hv =>
      .heedless hv
  refine .emit h (modify_apply _ s) fun u hu => .consume (by simp) _ hu fun t v hcontext hv => ?_
  have hbegin : t.context = s.context.beginScope := hcontext
  have ht : t.context.Settled := hbegin ▸ hs.beginScope
  have hdeep : 0 < t.scope.depth := by
    change 0 < t.context.scope.depth
    rw [hbegin]
    exact Nat.succ_pos _
  refine .check (by simp) hv (fun b _ _ => .ite (fun _ => hend t v hv ht) fun _ => ?_) fun hover =>
    .of_strands (.bind (strands_compileParameters bound')) hover
  exact (parallels_compileParameters bound bound' hv).bind_of (yields_parameters_settled bound hdeep ht)
    (fun _ t v ht hv => hend t v hv ht) fun _ _ _ _ _ _ _ => .of_strands
      (.bind (strands_consume (by simp) _))

lemma parallels_compileFunction (bound bound' : Nat) (h : InStep s u) :
    Parallels may (compileFunction bound (parse fuel)) (compileFunction bound' (parse fuel')) s u := by
  simp only [compileFunction_eq]
  have hinside := h.with_scope (.new .function s.previous.lexeme) (s.scope :: s.enclosing)
  have henter : enterFunction u = .ok () { u with
      scope := .new .function s.previous.lexeme, enclosing := s.scope :: s.enclosing } := by
    rw [enterFunction_apply, h.scope, h.enclosing, h.previous]
  have hbody : Parallels False _ _ _ _ :=
    parallels_functionBody hparse bound bound' hinside (Context.settled_new rfl)
  refine Yields.bracket hbody fun p t scope enclosing henclosing hlands => ?_
  cases hrun : functionBody bound' (parse fuel') { u with
      scope := .new .function s.previous.lexeme, enclosing := s.scope :: s.enclosing } with
  | error e v => exact fun _ _ _ _ _ => .step henter (hlands.abort hrun)
  | ok q v =>
    rcases hlands.ok hrun with ⟨rfl, hv⟩ | ⟨hnever, -⟩ | hstranded
    · have hleave : leaveFunction v = .ok () { v with scope, enclosing } := by
        rw [leaveFunction, modify_apply, hv.enclosing, henclosing]
      have hclosure : Parallels may _ _ _ _ := .heedless (f := modifyGetChunk (·.addFunction q) >>=
        fun index => operandOfIndex index >>= fun n => emitOpShort .closure n)
        (hv.with_scope scope enclosing)
      exact Yields.mono hclosure fun _ _ hlands => .step henter (.step hrun (.step hleave hlands))
    · exact hnever.elim
    · exact fun _ _ _ _ _ => .step henter (.step hrun
        ((Numb.spec (f := leaveFunction >>= fun _ => modifyGetChunk (·.addFunction q) >>=
          fun index => operandOfIndex index >>= fun n => emitOpShort .closure n) v hstranded).mono
            fun _ _ h => .inr (.inr h)))

lemma parallels_compileFun (bound bound' : Nat) (h : InStep s u) :
    Parallels may (compileFun bound (parse fuel)) (compileFun bound' (parse fuel')) s u :=
  .after (parallels_parseVariable _ h) fun _ _ _ hv => .heed hv fun _ _ _ hv =>
    .after (parallels_compileFunction hparse bound bound' hv) fun _ _ _ hv => .heedless hv

/-! ## The grammar -/

lemma parallels_compileStatement (bound bound' : Nat) (h : InStep s u) (hs : s.context.Settled) :
    Parallels True (compileStatement bound (parse fuel)) (compileStatement bound' (parse fuel')) s u := by
  rcases h.place with hin | hover
  swap
  · exact .of_lags (.of_strands (strands_compileStatement bound'
      (strands_parse_expression fuel' .assignment)) (h.trails hover))
  simp only [compileStatement]
  refine .accept_inside h hin (fun _ _ _ hv => parallels_compilePrint hv) ?_
  refine .accept_inside h hin (fun _ _ hsame hv => parallels_compileIf hparse hv (hsame ▸ hs)) ?_
  refine .accept_inside h hin (fun _ _ _ hv => parallels_compileReturn hv) ?_
  refine .accept_inside h hin (fun _ _ hsame hv => parallels_compileWhile hparse hv (hsame ▸ hs)) ?_
  refine .accept_inside h hin (fun _ _ hsame hv => parallels_compileFor hparse hv (hsame ▸ hs)) ?_
  refine .accept_inside h hin (fun t v hsame hv => ?_) (parallels_compileExpressionStatement h)
  refine .emit hv (modify_apply _ t) fun v hv => ?_
  have hbegin : t.context.Settled := hsame ▸ hs
  exact .after (parallels_compileBlock hparse bound bound' hv hbegin.beginScope) fun _ _ _ hv =>
    .heedless hv

omit hparse in
instance (bound : Nat) : Steady (declarationBody bound (parse fuel)) := by
  rw [declarationBody]
  infer_instance

lemma parallels_declarationBody (bound bound' : Nat) (h : InStep s u) (hin : Inside s u)
    (hs : s.context.Settled) :
    Parallels True (declarationBody bound (parse fuel)) (declarationBody bound' (parse fuel')) s u := by
  have hclass : ∀ t, Yields (refuseClass bound) t fun _ _ => False := fun t => by
    simp only [refuseClass]
    exact .error_bind _
  refine .decline hin (fun hkind => ?_) ?_
  · refine .step (a := true) (t := s.advance) ?_ fun _ => hclass s.advance
    rw [accept_apply, if_pos hkind]
  refine .accept_inside h hin (fun _ _ _ hv => parallels_compileFun hparse bound bound' hv) ?_
  exact .accept_inside h hin (fun _ _ _ hv => parallels_compileVar hv) (hparse.statement s u h hs)

omit hparse in
/-- A panic ends with the declaration. -/
lemma Recovers.of_parallels {f f' : CompileM Unit} [Steady f] {bound bound' : Nat}
    (h : Parallels True f f' s u) :
    Recovers
      (f >>= fun _ => get >>= fun s : State => if s.panicking then synchronize bound else pure ())
      (f' >>= fun _ => get >>= fun s : State => if s.panicking then synchronize bound' else pure ())
      s u := by
  refine Yields.bind h fun _ t _ hlands => .step (get_apply t) fun _ => ?_
  split
  · rename_i hpanicking
    exact .of_panicking hpanicking
  refine .of_ok (pure_apply () t) (hlands.bind fun _ v _ hv => .step (get_apply v) ?_)
  rcases hv with ⟨-, hin⟩ | ⟨-, hend⟩ | hstranded
  · rw [if_neg (by simp [hin.panicking])]
    exact .of_ok (pure_apply () v) (.inl hin)
  · rw [if_neg (by simp [hend.calm])]
    exact .of_ok (pure_apply () v) (.inr hend.exhausted)
  · rw [if_pos hstranded.panicking]
    cases bound' with
    | zero => exact .of_fault rfl
    | succ bound' =>
      have hover := hstranded.exhausted
      exact .of_ok (synchronize_of_end (Nat.succ_pos _) hover.current)
        (.inr ⟨hover.current, hover.rest, hover.mendable⟩)

omit hparse in
lemma Recovers.nested {f f' : CompileM Unit} (hu : InStep s u)
    (h : InStep { s with nesting := s.nesting + 1 } { u with nesting := u.nesting + 1 } →
      Recovers f f' { s with nesting := s.nesting + 1 } { u with nesting := u.nesting + 1 }) :
    Recovers (nested f) (nested f') s u := by
  refine Yields.nested fun _ => ?_
  have hdeeper := hu.with_nesting (congrArg (· + 1) hu.nesting)
  refine Yields.mono (h hdeeper) fun _ t hlands => .nested hu.mendable (hlands.mono fun _ v hv => ?_)
  rcases hv with hin | hover
  · exact .inl (hin.with_nesting (congrArg (· - 1) hin.nesting))
  · exact .inr ⟨hover.current, hover.rest, hover.mendable⟩

lemma recovers_compileDeclaration (bound bound' : Nat) (h : InStep s u) (hin : Inside s u)
    (hs : s.context.Settled) :
    Recovers (compileDeclaration bound (parse fuel)) (compileDeclaration bound' (parse fuel'))
      s u := by
  rw [compileDeclaration_eq, compileDeclaration_eq]
  exact .nested h fun hdeeper => .of_parallels
    (parallels_declarationBody hparse bound bound' hdeeper ⟨hin.current, hin.more, hin.rest⟩ hs)

end Statements

/-- Every phrase is compiled alike, but the second compilation may end one earlier. -/
theorem parallelsStmts (fuel fuel' : Nat) : ParallelsStmts fuel fuel' := by
  induction fuel generalizing fuel' with
  | zero =>
    exact ⟨fun _ _ _ _ => .absurd (fun _ _ _ h => nomatch h), fun _ _ _ _ _ _ _ _ h => nomatch h⟩
  | succ fuel ih =>
    cases fuel' with
    | zero => exact ⟨fun _ _ _ _ => .of_fault rfl, fun _ _ _ _ _ _ _ _ _ _ => .of_fault rfl⟩
    | succ fuel' =>
      exact ⟨fun _ _ h hs => parallels_compileStatement (ih fuel') fuel fuel' h hs,
        fun _ _ h hin hs => recovers_compileDeclaration (ih fuel') fuel fuel' h hin hs⟩

end Lox.Compiler
