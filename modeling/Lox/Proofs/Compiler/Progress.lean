import Lox.Proofs.Lexer
import Lox.Proofs.Compiler.Advance

/-!
# The compiler keeps its own promises

Two things could break inside a compilation: a jump to be patched could lie outside the code, and
the fuel of the grammar's recursion could run out.  Neither happens, on any source.

A state is `Ready n pending` if the tokens end properly, at most `n` of them follow the current
one, and every pending jump lies inside the code.  Being ready is stable under everything a step
can do (`Ready.of_advances`), so a step is `Safe` if it does not break from ready states, and
safety composes.  Each phrase that is entered before the end of the source consumes a token
(`consumes_parse`), which bounds all loops and the recursion by the number of tokens.

The main statement is `compile_ne_fault`.
-/

namespace Lox.Compiler

section Rules

variable {α β : Type}

/-! ## Consuming -/

/-- The step moves past a token unless it begins at the end token. -/
def Consumes (f : CompileM α) : Prop :=
  ∀ s a t, f s = .ok a t → s.Fed → s.current.kind ≠ .eof → t.rest.length < s.rest.length

lemma Advances.length_le {s t : State} (h : Advances s t) : t.rest.length ≤ s.rest.length :=
  h.rest.length_le

lemma consumes_advance : Consumes advance := by
  rintro s _ _ ⟨⟩ hfed hcurrent
  exact advance_rest_lt hfed hcurrent

/-- It is enough to consume first. -/
lemma Consumes.bind {f : CompileM α} {g : α → CompileM β} (hf : Consumes f)
    (hg : ∀ a, Steady (g a)) : Consumes (f >>= g) := by
  intro s b u h hfed hcurrent
  obtain ⟨a, t, hft, hgu⟩ := bind_ok h
  exact Nat.lt_of_le_of_lt ((hg a).advances hgu).length_le (hf s a t hft hfed hcurrent)

lemma Consumes.nested {f : CompileM Unit} (hf : Consumes f) : Consumes (nested f) := by
  intro s a t h hfed hcurrent
  rw [nested_apply] at h
  split at h
  · cases h
  · split at h
    · rename_i u hu
      cases h
      have hlt := hf _ _ _ hu hfed hcurrent
      exact hlt
    · cases h

/-- A token that was found is consumed; if it was not found, the alternative has to consume. -/
lemma Consumes.accept {k : Token.Kind} {f g : CompileM α} (hf : Steady f) (hg : Consumes g) :
    Consumes (accept k >>= fun b => if b then f else g) := by
  intro s a t h hfed hcurrent
  obtain ⟨b, u, hu, ht⟩ := bind_ok h
  rw [accept_apply] at hu
  split at hu
  · cases hu
    exact Nat.lt_of_le_of_lt (hf.advances ht).length_le (advance_rest_lt hfed hcurrent)
  · cases hu
    exact hg _ _ _ ht hfed hcurrent

/-! ## Safety -/

/-- At most `n` tokens follow the current one, and the pending jumps lie inside the code. -/
structure Ready (n : Nat) (pending : List Nat) (s : State) : Prop where
  fed : s.Fed
  length_le : s.rest.length ≤ n
  inside : ∀ o ∈ pending, o + 2 ≤ s.scope.chunk.code.size

lemma Ready.of_advances {n : Nat} {pending : List Nat} {s t : State} (h : Ready n pending s)
    (hst : Advances s t) : Ready n pending t :=
  ⟨hst.fed h.fed, Nat.le_trans hst.length_le h.length_le,
    fun o ho => Nat.le_trans (h.inside o ho) hst.codeSize⟩

lemma Ready.advance {n : Nat} {pending : List Nat} {s : State} (h : Ready n pending s)
    (hcurrent : s.current.kind ≠ .eof) : ∃ m < n, Ready m pending s.advance := by
  have hnext := h.of_advances (advances_advance s)
  exact ⟨s.advance.rest.length, Nat.lt_of_lt_of_le (advance_rest_lt h.fed hcurrent) h.length_le,
    hnext.fed, Nat.le_refl _, hnext.inside⟩

/-- The step does not break from a ready state. -/
def Safe (f : CompileM α) (n : Nat) (pending : List Nat) : Prop :=
  ∀ s, Ready n pending s → ∀ x t, f s ≠ .error (.fault x) t

namespace Safe

variable {n : Nat} {pending : List Nat}

lemma weaken {f : CompileM α} {m : Nat} {less : List Nat} (h : Safe f n less) (hm : m ≤ n)
    (hless : less ⊆ pending) : Safe f m pending := fun s hs =>
  h s ⟨hs.fed, Nat.le_trans hs.length_le hm, fun o ho => hs.inside o (hless ho)⟩

lemma of_ok {f : CompileM α} (h : ∀ s, ∃ a t, f s = .ok a t) : Safe f n pending := by
  intro s _ x t hf
  obtain ⟨a, u, hu⟩ := h s
  rw [hu] at hf
  cases hf

lemma pure (a : α) : Safe (pure a : CompileM α) n pending :=
  of_ok fun s => ⟨a, s, rfl⟩

lemma get : Safe (get : CompileM State) n pending :=
  of_ok fun s => ⟨s, s, rfl⟩

lemma modify (t : State → State) : Safe (modify t : CompileM Unit) n pending :=
  of_ok fun s => ⟨(), t s, rfl⟩

lemma bind {f : CompileM α} {g : α → CompileM β} (hsteady : Steady f) (hf : Safe f n pending)
    (hg : ∀ a, Safe (g a) n pending) : Safe (f >>= g) n pending := by
  intro s hs x u h
  rw [bind_apply] at h
  cases hfs : f s with
  | ok a t =>
    rw [hfs] at h
    exact hg a t (hs.of_advances (hsteady.advances hfs)) x u h
  | error e t =>
    rw [hfs] at h
    cases h
    exact hf s hs _ _ hfs

lemma ite {c : Prop} [Decidable c] {f g : CompileM α} (hf : Safe f n pending)
    (hg : Safe g n pending) : Safe (if c then f else g) n pending := by
  split
  · exact hf
  · exact hg

/-- After a token was found there are fewer left. -/
lemma accept {k : Token.Kind} {g : Bool → CompileM β} (hk : k ≠ .eof)
    (hfound : ∀ m < n, Safe (g true) m pending) (hmissed : Safe (g false) n pending) :
    Safe (Compiler.accept k >>= g) n pending := by
  intro s hs x u h
  rw [bind_apply, accept_apply] at h
  split at h
  · rename_i hb
    split at hb
    · rename_i hkind
      cases hb
      obtain ⟨m, hm, hready⟩ := hs.advance (by rw [hkind]; exact hk)
      exact hfound m hm _ hready x u h
    · cases hb
      exact hmissed s hs x u h
  · rename_i hb
    split at hb <;> cases hb

lemma emitJump {op : Opcode} {g : Nat → CompileM β} (hop : op.operandWidth = 2)
    (hg : ∀ o, Safe (g o) n (o :: pending)) : Safe (Compiler.emitJump op >>= g) n pending := by
  intro s hs x u h
  rw [bind_apply, emitJump_apply op s hop] at h
  have hstep : Advances s (s.write ⟨op, Chunk.maxShort⟩ s.previous.line) :=
    advances_mapChunk (by simp)
  have hready := hs.of_advances hstep
  refine hg _ _ ⟨hready.fed, hready.length_le, ?_⟩ x u h
  intro o ho
  rcases List.mem_cons.1 ho with rfl | ho
  · simp [State.write, State.mapChunk, Instruction.size, Opcode.size, hop]
  · exact hready.inside o ho

lemma patchJump {o : Nat} (ho : o ∈ pending) : Safe (Compiler.patchJump o) n pending := by
  intro s hs x t h
  have hin := hs.inside o ho
  rw [patchJump_apply, Chunk.jumpDistance, if_neg (by omega)] at h
  dsimp only at h
  split at h
  · rename_i heq
    cases heq
  · cases h
  · cases h

lemma nested {f : CompileM Unit} (hf : Safe f n pending) : Safe (nested f) n pending := by
  intro s hs x t h
  rw [nested_apply] at h
  split at h
  · cases h
  · split at h
    · cases h
    · rename_i e u hu
      cases h
      have hready : Ready n pending { s with nesting := s.nesting + 1 } :=
        ⟨hs.fed, hs.length_le, hs.inside⟩
      exact hf _ hready _ _ hu

/-- Enough turns for a loop that consumes a token in each. -/
lemma loop {step : CompileM Bool} (hsteady : Steady step) (hstep : Safe step n pending)
    (hconsumes : ∀ s t, step s = .ok true t → s.Fed → t.rest.length < s.rest.length)
    {bound : Nat} (hbound : n < bound) : Safe (loop bound step) n pending := by
  induction bound generalizing n with
  | zero => omega
  | succ bound ih =>
    intro s hs x u h
    rw [Compiler.loop, bind_apply] at h
    cases hres : step s with
    | error e t =>
      rw [hres] at h
      cases h
      exact hstep s hs _ _ hres
    | ok b t =>
      rw [hres] at h
      cases b with
      | false => cases h
      | true =>
        have hready := hs.of_advances (hsteady.advances hres)
        have hlt := hconsumes s t hres hs.fed
        have hle := hs.length_le
        refine ih (n := t.rest.length) (hstep.weaken (by omega) (List.Subset.refl _)) (by omega)
          t ⟨hready.fed, Nat.le_refl _, hready.inside⟩ x u h

end Safe

end Rules

/-! ## Steps that cannot break -/

section Vocabulary

variable {n : Nat} {pending : List Nat}

lemma safe_check (k : Token.Kind) : Safe (check k) n pending :=
  .of_ok fun s => ⟨_, _, check_apply k s⟩

lemma safe_currentKind : Safe currentKind n pending :=
  .of_ok fun s => ⟨_, _, currentKind_apply s⟩

lemma safe_previousLine : Safe previousLine n pending :=
  .of_ok fun s => ⟨_, _, previousLine_apply s⟩

lemma safe_codeSize : Safe codeSize n pending :=
  .of_ok fun s => ⟨_, _, codeSize_apply s⟩

lemma safe_advance : Safe advance n pending :=
  .modify _

lemma safe_error (c : CompileError.Cause) : Safe (error c) n pending :=
  .modify _

lemma safe_errorAtCurrent (c : CompileError.Cause) : Safe (errorAtCurrent c) n pending :=
  .modify _

lemma safe_consume (k : Token.Kind) (w : Expected) : Safe (consume k w) n pending :=
  .of_ok fun s => ⟨_, _, consume_apply k w s⟩

lemma safe_accept (k : Token.Kind) : Safe (accept k) n pending := by
  refine .of_ok fun s => ?_
  rw [accept_apply]
  split
  · exact ⟨_, _, rfl⟩
  · exact ⟨_, _, rfl⟩

lemma safe_emitOpAt (op : Opcode) (line : UInt32) : Safe (emitOpAt op line) n pending :=
  .modify _

lemma safe_emitOp (op : Opcode) : Safe (emitOp op) n pending :=
  .modify _

lemma safe_emitByte (b : UInt8) : Safe (emitByte b) n pending :=
  .of_ok fun s => ⟨_, _, emitByte_apply b s⟩

lemma safe_emitShort (v : Nat) : Safe (emitShort v) n pending :=
  .of_ok fun _ => ⟨_, _, rfl⟩

lemma safe_emitOpShort (op : Opcode) (v : Nat) : Safe (emitOpShort op v) n pending :=
  .of_ok fun _ => ⟨_, _, rfl⟩

lemma safe_emitReturn : Safe emitReturn n pending :=
  .of_ok fun s => ⟨_, _, emitReturn_apply s⟩

lemma safe_operandOfIndex (index : Nat) : Safe (operandOfIndex index) n pending := by
  refine .of_ok fun s => ?_
  rw [operandOfIndex_apply]
  split
  · exact ⟨_, _, rfl⟩
  · exact ⟨_, _, rfl⟩

lemma safe_modifyGetChunk (f : Chunk → Nat × Chunk) : Safe (modifyGetChunk f) n pending :=
  .of_ok fun s => ⟨_, _, modifyGetChunk_apply f s⟩

lemma safe_stringOperand (t : Text) : Safe (stringOperand t) n pending :=
  .bind (steady_modifyGetChunk fun _ => Nat.le_refl _) (safe_modifyGetChunk _) safe_operandOfIndex

lemma safe_emitString (t : Text) : Safe (emitString t) n pending :=
  .bind (steady_stringOperand t) (safe_stringOperand t) fun _ => safe_emitOpShort _ _

lemma safe_emitConstant (bits : UInt64) : Safe (emitConstant bits) n pending :=
  .bind (steady_modifyGetChunk fun _ => Nat.le_refl _) (safe_modifyGetChunk _) fun i =>
    .bind (steady_operandOfIndex i) (safe_operandOfIndex i) fun _ => safe_emitOpShort _ _

lemma safe_emitLoop (start : Nat) : Safe (emitLoop start) n pending :=
  .bind (steady_emitOp _) (safe_emitOp _) fun _ => .bind steady_codeSize safe_codeSize fun _ =>
    .ite (.bind (steady_error _) (safe_error _) fun _ => safe_emitShort _) (safe_emitShort _)

lemma safe_emitDrops (ls : List Local) : Safe (emitDrops ls) n pending := by
  induction ls with
  | nil => exact .pure _
  | cons l ls ih => exact .bind (steady_emitOp _) (safe_emitOp _) fun _ => ih

lemma safe_beginScope : Safe beginScope n pending :=
  .modify _

lemma safe_endScope : Safe endScope n pending := by
  intro s hs x t h
  rw [endScope_apply] at h
  have hready : Ready n pending { s with scope := { s.scope with
      depth := s.scope.depth - 1
      locals := (s.scope.locals.span (Local.inBlock s.scope.depth)).2 } } :=
    ⟨hs.fed, hs.length_le, hs.inside⟩
  exact safe_emitDrops _ _ hready _ _ h

lemma safe_declareLocal (name : Text) : Safe (declareLocal name) n pending :=
  .bind .get .get fun _ => .ite (safe_error _) (.ite (safe_error _) (.modify _))

lemma safe_markInitialized : Safe markInitialized n pending :=
  .modify _

lemma safe_parseVariable (w : Expected) : Safe (parseVariable w) n pending :=
  .bind (steady_consume _ w) (safe_consume _ w) fun _ => .bind .get .get fun _ =>
    .ite (.bind (steady_declareLocal _) (safe_declareLocal _) fun _ => .pure _)
      (safe_stringOperand _)

lemma safe_defineVariable (global : Nat) : Safe (defineVariable global) n pending :=
  .bind .get .get fun _ => .ite safe_markInitialized (safe_emitOpShort _ _)

lemma safe_forM_error (cs : List CompileError.Cause) : Safe (cs.forM error) n pending := by
  induction cs with
  | nil => exact .pure _
  | cons c cs ih => exact .bind (steady_error c) (safe_error c) fun _ => ih

lemma safe_resolve (name : Text) : Safe (resolve name) n pending := by
  intro s hs x t h
  rw [resolve_apply] at h
  split at h
  · exact Safe.bind (steady_forM_error _) (safe_forM_error _) (fun _ => .pure _) s hs x t h
  · split at h
    · -- Errors are all that a captured variable can add, so readiness is not needed here.
      rename_i i scope enclosing errors _
      have hok : ∀ (cs : List CompileError.Cause) (u : State), ∃ v, cs.forM error u = .ok () v := by
        intro cs
        induction cs with
        | nil => exact fun u => ⟨u, rfl⟩
        | cons c cs ih => exact fun u => ih (u.report u.previous c)
      obtain ⟨v, hv⟩ := hok errors { s with scope, enclosing }
      rw [bind_apply, hv] at h
      cases h
    · exact Safe.bind (steady_stringOperand _) (safe_stringOperand _) (fun _ => .pure _) s hs x t h

end Vocabulary

/-! ## Every phrase consumes -/

section Consuming

variable {parse : Parts} (hsteady : ∀ ph, Steady (parse ph)) (hconsumes : ∀ ph, Consumes (parse ph))
include hsteady

lemma consumes_compileExpression (bound : Nat) (p : Precedence) :
    Consumes (compileExpression bound parse p) := by
  refine .nested (consumes_advance.bind fun _ => .bind .get fun s => ?_)
  split
  · exact steady_error _
  · refine (steady_compileOpening hsteady _ _).bind fun _ =>
      (steady_loop (steady_continueExpression hsteady bound p) bound).bind fun _ => ?_
    exact .ite ((steady_accept _).bind fun _ => .ite (steady_error _) (.pure _)) (.pure _)

include hconsumes

omit hsteady in
lemma consumes_compileExpressionStatement : Consumes (compileExpressionStatement parse) :=
  (hconsumes _).bind fun _ => .bind .get fun _ => .ite (steady_emitOp _)
    ((steady_consume _ _).bind fun _ => steady_emitOp _)

lemma consumes_compileStatement (bound : Nat) : Consumes (compileStatement bound parse) := by
  refine .accept (steady_compilePrint hsteady) (.accept (steady_compileIf hsteady) ?_)
  refine .accept (steady_compileReturn hsteady) (.accept (steady_compileWhile hsteady) ?_)
  refine .accept (steady_compileFor hsteady) (.accept ?_ ?_)
  · exact steady_beginScope.bind fun _ => (steady_compileBlock hsteady bound).bind fun _ =>
      steady_endScope
  · exact consumes_compileExpressionStatement hconsumes

lemma consumes_compileDeclaration (bound : Nat) : Consumes (compileDeclaration bound parse) := by
  have hend : Steady (get >>= fun s : State =>
      if s.panicking then synchronize bound else pure ()) :=
    .bind .get fun _ => .ite (steady_synchronize bound) (.pure _)
  refine .nested (.accept ((steady_refuseClass bound).bind fun _ => hend) ?_)
  refine .accept ((steady_compileFun hsteady bound).bind fun _ => hend) ?_
  exact .accept ((steady_compileVar hsteady).bind fun _ => hend)
    ((hconsumes _).bind fun _ => hend)

end Consuming

/-- A phrase that is entered before the end of the source consumes at least one token, whether it
is well formed or not. -/
theorem consumes_parse (fuel : Nat) (ph : Phrase) : Consumes (parse fuel ph) := by
  induction fuel generalizing ph with
  | zero =>
    intro s a t h
    cases h
  | succ fuel ih =>
    cases ph with
    | declaration => exact consumes_compileDeclaration (steady_parse fuel) ih fuel
    | statement => exact consumes_compileStatement (steady_parse fuel) ih fuel
    | expression p => exact consumes_compileExpression (steady_parse fuel) fuel p

/-! ## Every phrase is safe -/

/-- How many phrases may be entered without a token in between, beginning with this one. -/
def Phrase.cost : Phrase → Nat
  | .declaration => 3
  | .statement => 2
  | .expression _ => 1

section Grammar

variable {parse : Parts} {fuel : Nat} (hsteady : ∀ ph, Steady (parse ph))
  (hconsumes : ∀ ph, Consumes (parse ph))
  (hsafe : ∀ ph m, 3 * m + ph.cost ≤ fuel → Safe (parse ph) m [])

section Parts

include hsafe

/-- The parts of a phrase with at most `m` tokens to come, whatever jumps are pending. -/
lemma safe_part (ph : Phrase) {m : Nat} {pending : List Nat} (h : 3 * m + ph.cost ≤ fuel) :
    Safe (parse ph) m pending :=
  (hsafe ph m h).weaken (Nat.le_refl _) (List.nil_subset _)

end Parts

include hsteady hsafe

lemma safe_compileVariable (canAssign : Bool) {m : Nat} {pending : List Nat}
    (hm : 3 * m + 1 ≤ fuel) : Safe (compileVariable parse canAssign) m pending := by
  refine .bind .get .get fun s => .bind (steady_resolve _) (safe_resolve _) fun a => ?_
  have hassign : Safe (Compiler.advance >>= fun _ => expression parse >>= fun _ =>
      emitOpShort a.write a.operand) m pending :=
    .bind steady_advance safe_advance fun _ =>
      .bind (hsteady _) (safe_part hsafe (.expression .assignment) hm) fun _ => safe_emitOpShort _ _
  cases canAssign with
  | false => exact safe_emitOpShort _ _
  | true =>
    exact .bind (steady_check _) (safe_check _) fun b => .ite hassign (safe_emitOpShort _ _)

lemma safe_compileOpening (canAssign : Bool) (o : Opening) {m : Nat} {pending : List Nat}
    (hm : 3 * m + 1 ≤ fuel) : Safe (compileOpening parse canAssign o) m pending := by
  cases o with
  | grouping =>
    exact .bind (hsteady _) (safe_part hsafe (.expression .assignment) hm) fun _ =>
      safe_consume _ _
  | unary op =>
    exact .bind steady_previousLine safe_previousLine fun _ =>
      .bind (hsteady _) (safe_part hsafe (.expression .unary) hm) fun _ => safe_emitOpAt _ _
  | «variable» => exact safe_compileVariable hsteady hsafe canAssign hm
  | string => exact .bind .get .get fun _ => safe_emitString _
  | number =>
    refine .bind .get .get fun s => ?_
    split
    · exact safe_error _
    · exact safe_emitConstant _
  | literal op => exact safe_emitOp op
  | unsupported what => exact safe_error _

lemma safe_compileArguments {bound : Nat} (count : Nat) {m : Nat} {pending : List Nat}
    (hm : 3 * m + 1 ≤ fuel) (hbound : m < bound) :
    Safe (compileArguments parse bound count) m pending := by
  induction bound generalizing count m with
  | zero => omega
  | succ bound ih =>
    have hmore : Safe (accept .comma >>= fun b =>
        if b then compileArguments parse bound (count + 1) else pure (count + 1)) m pending :=
      .accept (by simp) (fun l hl => ih _ (by omega) (by omega)) (.pure _)
    rw [compileArguments]
    exact .bind (hsteady _) (safe_part hsafe (.expression .assignment) hm) fun _ =>
      .ite (.bind (steady_error _) (safe_error _) fun _ => hmore) hmore

lemma safe_compileCall {bound : Nat} {m : Nat} {pending : List Nat}
    (hm : 3 * m + 1 ≤ fuel) (hbound : m < bound) : Safe (compileCall bound parse) m pending := by
  refine .bind steady_previousLine safe_previousLine fun line =>
    .bind (steady_check _) (safe_check _) fun b => ?_
  have hend : ∀ n : Nat, Safe (consume .rightParen .parenAfterArguments >>= fun _ =>
      emitOpAt .call line >>= fun _ => emitByte (min n maxArguments).toUInt8) m pending := fun n =>
    .bind (steady_consume _ _) (safe_consume _ _) fun _ =>
      .bind (steady_emitOpAt _ _) (safe_emitOpAt _ _) fun _ => safe_emitByte _
  exact .ite (hend _) (.bind (steady_compileArguments hsteady bound 0)
    (safe_compileArguments hsteady hsafe 0 hm hbound) hend)

lemma safe_compileContinuation {bound : Nat} (c : Continuation) {m : Nat} {pending : List Nat}
    (hm : 3 * m + 1 ≤ fuel) (hbound : m < bound) :
    Safe (compileContinuation bound parse c) m pending := by
  cases c with
  | binary op p =>
    exact .bind steady_previousLine safe_previousLine fun _ =>
      .bind (hsteady _) (safe_part hsafe (.expression p.tighter) hm) fun _ => safe_emitOpAt _ _
  | and =>
    refine .emitJump rfl fun o => .bind (steady_emitOp _) (safe_emitOp _) fun _ => ?_
    exact .bind (hsteady _) (safe_part hsafe (.expression .and) hm) fun _ => .patchJump (by simp)
  | or =>
    refine .emitJump rfl fun o => .emitJump rfl fun o' => ?_
    refine .bind (steady_patchJump _) (.patchJump (by simp)) fun _ =>
      .bind (steady_emitOp _) (safe_emitOp _) fun _ => ?_
    exact .bind (hsteady _) (safe_part hsafe (.expression .or) hm) fun _ => .patchJump (by simp)
  | call => exact safe_compileCall hsteady hsafe hm hbound
  | unsupported what => exact safe_error _

omit hsafe in
lemma continueExpression_consumes (bound : Nat) (p : Precedence) (s t : State)
    (h : continueExpression bound parse p s = .ok true t) (hfed : s.Fed) :
    t.rest.length < s.rest.length := by
  rw [continueExpression, bind_apply, currentKind_apply] at h
  cases hc : s.current.kind.continuation? with
  | none =>
    simp only [hc] at h
    cases h
  | some c =>
    simp only [hc] at h
    split at h
    · have hcurrent : s.current.kind ≠ .eof := by
        intro heof
        rw [heof] at hc
        cases hc
      obtain ⟨_, u, hu, ht⟩ := bind_ok h
      exact Nat.lt_of_le_of_lt (((steady_compileContinuation hsteady bound c).bind fun _ =>
        Steady.pure true).advances ht).length_le (consumes_advance s _ u hu hfed hcurrent)
    · cases h

lemma safe_continueExpression {bound : Nat} (p : Precedence) {m : Nat} {pending : List Nat}
    (hm : 3 * m + 1 ≤ fuel) (hbound : m < bound) :
    Safe (continueExpression bound parse p) m pending := by
  refine .bind steady_currentKind safe_currentKind fun k => ?_
  split
  · exact .pure _
  · exact .ite (.bind steady_advance safe_advance fun _ =>
      .bind (steady_compileContinuation hsteady bound _)
        (safe_compileContinuation hsteady hsafe _ hm hbound) fun _ => .pure _) (.pure _)

/-- An expression after its nesting was counted. -/
lemma safe_compileExpression (p : Precedence) {n : Nat} {pending : List Nat} (hn : 3 * n ≤ fuel) :
    Safe (compileExpression fuel parse p) n pending := by
  refine .nested fun s hs x t h => ?_
  rw [bind_apply, advance_apply] at h
  simp only [bind_apply, get_apply, advance_previous] at h
  cases ho : s.current.kind.opening? with
  | none =>
    simp only [ho] at h
    cases h
  | some o =>
    simp only [ho] at h
    have hcurrent : s.current.kind ≠ .eof := by
      intro heof
      rw [heof] at ho
      cases ho
    obtain ⟨m, hm, hready⟩ := hs.advance hcurrent
    refine Safe.bind (steady_compileOpening hsteady _ _)
      (safe_compileOpening hsteady hsafe _ _ (by omega)) (fun _ =>
        .bind (steady_loop (steady_continueExpression hsteady fuel p) fuel)
          (.loop (steady_continueExpression hsteady fuel p)
            (safe_continueExpression hsteady hsafe p (by omega) (by omega))
            (continueExpression_consumes hsteady fuel p) (by omega)) fun _ => ?_)
      s.advance hready x t h
    exact .ite (.bind (steady_accept _) (safe_accept _) fun _ => .ite (safe_error _) (.pure _))
      (.pure _)

/-! ## Declarations and statements -/

lemma safe_compileVar {m : Nat} {pending : List Nat} (hm : 3 * m + 1 ≤ fuel) :
    Safe (compileVar parse) m pending := by
  refine .bind (steady_parseVariable _) (safe_parseVariable _) fun global =>
    .bind (steady_accept _) (safe_accept _) fun b => ?_
  have hend : Safe (consume .semicolon .semicolonAfterVariable >>= fun _ =>
      defineVariable global) m pending :=
    .bind (steady_consume _ _) (safe_consume _ _) fun _ => safe_defineVariable _
  exact .ite (.bind (hsteady _) (safe_part hsafe (.expression .assignment) hm) fun _ => hend)
    (.bind (steady_emitOp _) (safe_emitOp _) fun _ => hend)

include hconsumes in
lemma safe_compileBlock {bound : Nat} {m : Nat} {pending : List Nat} (hm : 3 * m + 3 ≤ fuel)
    (hbound : m < bound) : Safe (compileBlock bound parse) m pending := by
  have hstep : Steady (parse .declaration >>= fun _ => pure true) :=
    (hsteady _).bind fun _ => .pure _
  refine .bind (steady_loop ?_ bound) (.loop ?_ ?_ ?_ hbound) fun _ => safe_consume _ _
  · exact (steady_check _).bind fun _ => (steady_check _).bind fun _ => .ite (.pure _) hstep
  · exact (steady_check _).bind fun _ => (steady_check _).bind fun _ => .ite (.pure _) hstep
  · exact .bind (steady_check _) (safe_check _) fun _ => .bind (steady_check _) (safe_check _)
      fun _ => .ite (.pure _) (.bind (hsteady _) (safe_part hsafe .declaration hm) fun _ => .pure _)
  · intro s t h hfed
    simp only [bind_apply, check_apply] at h
    split at h
    · cases h
    · rename_i hcond
      have hcurrent : s.current.kind ≠ .eof := by
        intro heof
        simp [heof] at hcond
      obtain ⟨_, u, hu, ht⟩ := bind_ok h
      cases ht
      exact hconsumes _ _ _ _ hu hfed hcurrent

omit hsteady hsafe in
lemma safe_compileParameters {bound : Nat} {m : Nat} {pending : List Nat} (hbound : m < bound) :
    Safe (compileParameters bound) m pending := by
  induction bound generalizing m with
  | zero => omega
  | succ bound ih =>
    have hmore : Safe (parseVariable .parameterName >>= fun parameter =>
        defineVariable parameter >>= fun _ => accept .comma >>= fun b =>
          if b then compileParameters bound else pure ()) m pending :=
      .bind (steady_parseVariable _) (safe_parseVariable _) fun _ =>
        .bind (steady_defineVariable _) (safe_defineVariable _) fun _ =>
        .accept (by simp) (fun l hl => ih (by omega)) (.pure _)
    refine .bind (.modify fun s => .of_scope (Nat.le_refl _) rfl) (.modify _) fun _ =>
      .bind .get .get fun s => ?_
    exact .ite (.bind (steady_errorAtCurrent _) (safe_errorAtCurrent _) fun _ => hmore) hmore

include hconsumes in
lemma safe_functionBody {bound : Nat} {m : Nat} {pending : List Nat} (hm : 3 * m + 3 ≤ fuel)
    (hbound : m < bound) : Safe (functionBody bound parse) m pending := by
  have hfinish : Safe finishFunction m pending :=
    .bind steady_emitReturn safe_emitReturn fun _ => .bind .get .get fun _ => .pure _
  have hend : Safe (consume .rightParen .parenAfterParameters >>= fun _ =>
      consume .leftBrace .braceBeforeBody >>= fun _ =>
        compileBlock bound parse >>= fun _ => finishFunction) m pending :=
    .bind (steady_consume _ _) (safe_consume _ _) fun _ =>
      .bind (steady_consume _ _) (safe_consume _ _) fun _ =>
      .bind (steady_compileBlock hsteady bound)
        (safe_compileBlock hsteady hconsumes hsafe hm hbound) fun _ => hfinish
  refine .bind steady_beginScope safe_beginScope fun _ =>
    .bind (steady_consume _ _) (safe_consume _ _) fun _ =>
    .bind (steady_check _) (safe_check _) fun b => ?_
  exact .ite hend (.bind (steady_compileParameters bound) (safe_compileParameters hbound)
    fun _ => hend)

omit hsteady hsafe in
/-- A function is compiled in a scope of its own, where no jump is pending yet. -/
lemma safe_bracket {α β : Type} {f : CompileM α} {g : α → CompileM β} {m : Nat}
    {pending : List Nat} (hsteady : Steady f) (hf : Safe f m [])
    (hg : ∀ a, Safe (g a) m pending) :
    Safe (enterFunction >>= fun _ => f >>= fun a => leaveFunction >>= fun _ => g a) m pending := by
  intro s hs x u h
  -- Without `g` the bracket advances, so `g` begins in a ready state.
  have hbracket := Steady.bracket (g := fun a => pure a) hsteady fun _ => .pure _
  simp only [bind_apply, enterFunction_apply] at h
  cases hfs : f { s with
      scope := .new .function s.previous.lexeme, enclosing := s.scope :: s.enclosing } with
  | error e t =>
    rw [hfs] at h
    cases h
    have hready : Ready m [] { s with
        scope := .new .function s.previous.lexeme, enclosing := s.scope :: s.enclosing } :=
      ⟨hs.fed, hs.length_le, fun o ho => (nomatch ho)⟩
    exact hf _ hready _ _ hfs
  | ok a t =>
    rw [hfs] at h
    have hleave : ∃ v, leaveFunction t = .ok () v := ⟨_, modify_apply _ t⟩
    obtain ⟨v, hv⟩ := hleave
    simp only [hv] at h
    have hsv : Advances s v := by
      refine hbracket.advances (a := a) ?_
      simp only [bind_apply, enterFunction_apply, hfs, hv]
      rfl
    exact hg a v (hs.of_advances hsv) x u h

include hconsumes in
lemma safe_compileFun {bound : Nat} {m : Nat} {pending : List Nat} (hm : 3 * m + 3 ≤ fuel)
    (hbound : m < bound) : Safe (compileFun bound parse) m pending := by
  refine .bind (steady_parseVariable _) (safe_parseVariable _) fun _ =>
    .bind steady_markInitialized safe_markInitialized fun _ =>
    .bind (steady_compileFunction hsteady bound) ?_ fun _ => safe_defineVariable _
  rw [compileFunction_eq]
  refine safe_bracket (steady_functionBody hsteady bound)
    (safe_functionBody hsteady hconsumes hsafe hm hbound) fun p => ?_
  exact .bind (steady_modifyGetChunk fun _ => Nat.le_refl _) (safe_modifyGetChunk _) fun i =>
    .bind (steady_operandOfIndex i) (safe_operandOfIndex i) fun _ => safe_emitOpShort _ _

omit hsteady hsafe in
/-- Passing over a token of the class body, in any of the three ways. -/
lemma safe_skipBraces {bound : Nat} (depth : Nat) {m : Nat} {pending : List Nat}
    (hbound : m < bound) : Safe (skipBraces bound depth) m pending := by
  induction bound generalizing depth m with
  | zero => omega
  | succ bound ih =>
    cases depth with
    | zero => exact .pure _
    | succ depth =>
      have hskip : ∀ (d : Nat) (s : State), Ready m pending s → s.current.kind ≠ .eof →
          ∀ x t, (advance >>= fun _ => skipBraces bound d) s ≠ .error (.fault x) t := by
        intro d s hs hcurrent x t h
        obtain ⟨l, hl, hready⟩ := hs.advance hcurrent
        exact ih d (by omega) _ hready x t h
      intro s hs x t h
      rw [skipBraces, bind_apply, currentKind_apply] at h
      generalize hk : s.current.kind = k at h
      dsimp only at h
      split at h
      · cases h
      · exact hskip _ s hs (by simp [hk]) x t h
      · exact hskip _ s hs (by simp [hk]) x t h
      · rename_i hne _ _
        exact hskip _ s hs (by rw [hk]; exact hne) x t h

omit hsteady hsafe in
lemma safe_refuseClass {bound : Nat} {m : Nat} {pending : List Nat} (hbound : m < bound) :
    Safe (refuseClass bound) m pending := by
  have hbody : Safe (accept .leftBrace >>= fun b =>
      if b then skipBraces bound 1 >>= fun _ => modify fun s => { s with panicking := false }
      else modify fun s => { s with panicking := false }) m pending :=
    .bind (steady_accept _) (safe_accept _) fun _ =>
      .ite (.bind (steady_skipBraces bound 1) (safe_skipBraces 1 hbound) fun _ => .modify _)
        (.modify _)
  refine .bind (steady_error _) (safe_error _) fun _ => .bind (steady_accept _) (safe_accept _)
    fun _ => .bind (steady_accept _) (safe_accept _) fun _ => ?_
  exact .ite (.bind (steady_accept _) (safe_accept _) fun _ => hbody) hbody

omit hsteady hsafe in
lemma safe_synchronize {bound : Nat} {m : Nat} {pending : List Nat} (hbound : m < bound) :
    Safe (synchronize bound) m pending := by
  refine .bind (.modify advances_calm) (.modify _) fun _ => .loop ?_ ?_ ?_ hbound
  · exact .bind .get fun _ => .ite (.pure _) (steady_advance.bind fun _ => .pure _)
  · exact .bind .get .get fun _ =>
      .ite (.pure _) (.bind steady_advance safe_advance fun _ => .pure _)
  · intro s t h hfed
    simp only [bind_apply, get_apply] at h
    split at h
    · cases h
    · rename_i hcond
      have hcurrent : s.current.kind ≠ .eof := by
        intro heof
        simp [heof] at hcond
      cases h
      exact advance_rest_lt hfed hcurrent

include hconsumes in
lemma safe_compileDeclaration {n : Nat} {pending : List Nat} (hn : 3 * n + 2 ≤ fuel) :
    Safe (compileDeclaration fuel parse) n pending := by
  have hsync : ∀ m, m ≤ n → Safe (get >>= fun s : State =>
      if s.panicking then synchronize fuel else pure ()) m pending := fun m hm =>
    .bind .get .get fun _ => .ite (safe_synchronize (by omega)) (.pure _)
  have hend : ∀ m, m < n → Safe (get >>= fun s : State =>
      if s.panicking then synchronize fuel else pure ()) m pending := fun m hm =>
    hsync m (by omega)
  refine .nested (.accept (by simp) (fun m hm => ?_) (.accept (by simp) (fun m hm => ?_)
    (.accept (by simp) (fun m hm => ?_) ?_)))
  · exact .bind (steady_refuseClass fuel) (safe_refuseClass (by omega)) fun _ => hend m hm
  · exact .bind (steady_compileFun hsteady fuel)
      (safe_compileFun hsteady hconsumes hsafe (by omega) (by omega)) fun _ => hend m hm
  · exact .bind (steady_compileVar hsteady) (safe_compileVar hsteady hsafe (by omega))
      fun _ => hend m hm
  · exact .bind (hsteady _) (safe_part hsafe .statement hn) fun _ => hsync n (Nat.le_refl _)

lemma safe_compilePrint {m : Nat} {pending : List Nat} (hm : 3 * m + 2 ≤ fuel) :
    Safe (compilePrint parse) m pending :=
  .bind (hsteady _) (safe_part hsafe (.expression .assignment) (by simp [Phrase.cost]; omega))
    fun _ => .bind (steady_consume _ _) (safe_consume _ _) fun _ => safe_emitOp _

omit hsteady in
lemma safe_expression {m : Nat} {pending : List Nat} (hm : 3 * m + 2 ≤ fuel) :
    Safe (expression parse) m pending :=
  safe_part hsafe (.expression .assignment) (by simp [Phrase.cost]; omega)

lemma safe_compileIf {m : Nat} {pending : List Nat} (hm : 3 * m + 2 ≤ fuel) :
    Safe (compileIf parse) m pending := by
  refine .bind (steady_consume _ _) (safe_consume _ _) fun _ =>
    .bind (hsteady _) (safe_expression hsafe hm) fun _ =>
    .bind (steady_consume _ _) (safe_consume _ _) fun _ => .emitJump rfl fun else_ =>
    .bind (steady_emitOp _) (safe_emitOp _) fun _ =>
    .bind (hsteady _) (safe_part hsafe .statement hm) fun _ => .emitJump rfl fun end_ =>
    .bind (steady_patchJump _) (.patchJump (by simp)) fun _ =>
    .bind (steady_emitOp _) (safe_emitOp _) fun _ => .bind (steady_accept _) (safe_accept _)
    fun _ => ?_
  exact .ite (.bind (hsteady _) (safe_part hsafe .statement hm) fun _ => .patchJump (by simp))
    (.patchJump (by simp))

lemma safe_compileWhile {m : Nat} {pending : List Nat} (hm : 3 * m + 2 ≤ fuel) :
    Safe (compileWhile parse) m pending :=
  .bind steady_codeSize safe_codeSize fun _ => .bind (steady_consume _ _) (safe_consume _ _)
    fun _ => .bind (hsteady _) (safe_expression hsafe hm) fun _ =>
    .bind (steady_consume _ _) (safe_consume _ _) fun _ => .emitJump rfl fun exit =>
    .bind (steady_emitOp _) (safe_emitOp _) fun _ =>
    .bind (hsteady _) (safe_part hsafe .statement hm) fun _ =>
    .bind (steady_emitLoop _) (safe_emitLoop _) fun _ =>
    .bind (steady_patchJump _) (.patchJump (by simp)) fun _ => safe_emitOp _

lemma safe_compileExpressionStatement {m : Nat} {pending : List Nat} (hm : 3 * m + 1 ≤ fuel) :
    Safe (compileExpressionStatement parse) m pending :=
  .bind (hsteady _) (safe_part hsafe (.expression .assignment) hm) fun _ => .bind .get .get fun _ =>
    .ite (safe_emitOp _) (.bind (steady_consume _ _) (safe_consume _ _) fun _ => safe_emitOp _)

lemma safe_compileForInitializer {m : Nat} {pending : List Nat} (hm : 3 * m + 2 ≤ fuel) :
    Safe (compileForInitializer parse) m pending :=
  .bind (steady_accept _) (safe_accept _) fun _ => .ite (.pure _)
    (.bind (steady_accept _) (safe_accept _) fun _ =>
      .ite (safe_compileVar hsteady hsafe (by omega))
        (safe_compileExpressionStatement hsteady hsafe (by omega)))

/-- The condition leaves its exit jump pending. -/
lemma safe_bind_forCondition {β : Type} {m : Nat} {pending : List Nat}
    {g : Option Nat → CompileM β} (hm : 3 * m + 2 ≤ fuel) (hnone : Safe (g none) m pending)
    (hsome : ∀ o, Safe (g (some o)) m (o :: pending)) :
    Safe (compileForCondition parse >>= g) m pending := by
  have heq : compileForCondition parse >>= g = (accept .semicolon >>= fun b =>
      if b then g none else expression parse >>= fun _ =>
        consume .semicolon .semicolonAfterLoopCondition >>= fun _ =>
        emitJump .jumpIfFalse >>= fun o => emitOp .pop >>= fun _ => g (some o)) := by
    simp only [compileForCondition, bind_assoc]
    congr 1
    funext b
    cases b <;> simp [bind_assoc]
  rw [heq]
  refine .bind (steady_accept _) (safe_accept _) fun _ => .ite hnone ?_
  exact .bind (hsteady _) (safe_expression hsafe hm) fun _ =>
    .bind (steady_consume _ _) (safe_consume _ _) fun _ => .emitJump rfl fun o =>
    .bind (steady_emitOp _) (safe_emitOp _) fun _ => hsome o

lemma safe_compileForIncrement (start : Nat) {m : Nat} {pending : List Nat}
    (hm : 3 * m + 2 ≤ fuel) : Safe (compileForIncrement parse start) m pending :=
  .bind (steady_accept _) (safe_accept _) fun _ => .ite (.pure _) (.emitJump rfl fun body =>
    .bind steady_codeSize safe_codeSize fun _ =>
    .bind (hsteady _) (safe_expression hsafe hm) fun _ =>
    .bind (steady_emitOp _) (safe_emitOp _) fun _ =>
    .bind (steady_consume _ _) (safe_consume _ _) fun _ =>
    .bind (steady_emitLoop _) (safe_emitLoop _) fun _ =>
    .bind (steady_patchJump _) (.patchJump (by simp)) fun _ => .pure _)

lemma safe_compileFor {m : Nat} {pending : List Nat} (hm : 3 * m + 2 ≤ fuel) :
    Safe (compileFor parse) m pending := by
  refine .bind steady_beginScope safe_beginScope fun _ =>
    .bind (steady_consume _ _) (safe_consume _ _) fun _ =>
    .bind (steady_compileForInitializer hsteady)
      (safe_compileForInitializer hsteady hsafe hm) fun _ =>
    .bind steady_codeSize safe_codeSize fun start =>
    safe_bind_forCondition hsteady hsafe hm ?_ fun exit => ?_
  · exact .bind (steady_compileForIncrement hsteady start)
      (safe_compileForIncrement hsteady hsafe start hm) fun _ =>
      .bind (hsteady _) (safe_part hsafe .statement hm) fun _ =>
      .bind (steady_emitLoop _) (safe_emitLoop _) fun _ => safe_endScope
  · exact .bind (steady_compileForIncrement hsteady start)
      (safe_compileForIncrement hsteady hsafe start hm) fun _ =>
      .bind (hsteady _) (safe_part hsafe .statement hm) fun _ =>
      .bind (steady_emitLoop _) (safe_emitLoop _) fun _ =>
      .bind (steady_patchJump _) (.patchJump (by simp)) fun _ =>
      .bind (steady_emitOp _) (safe_emitOp _) fun _ => safe_endScope

lemma safe_compileReturn {m : Nat} {pending : List Nat} (hm : 3 * m + 2 ≤ fuel) :
    Safe (compileReturn parse) m pending := by
  have hvalue : Safe (accept .semicolon >>= fun b =>
      if b then emitReturn else expression parse >>= fun _ =>
        consume .semicolon .semicolonAfterReturnValue >>= fun _ => emitOp .ret) m pending :=
    .bind (steady_accept _) (safe_accept _) fun _ => .ite safe_emitReturn
      (.bind (hsteady _) (safe_expression hsafe hm) fun _ =>
        .bind (steady_consume _ _) (safe_consume _ _) fun _ => safe_emitOp _)
  exact .bind .get .get fun _ => .ite (.bind (steady_error _) (safe_error _) fun _ => hvalue) hvalue

include hconsumes in
lemma safe_compileStatement {n : Nat} {pending : List Nat} (hn : 3 * n + 1 ≤ fuel) :
    Safe (compileStatement fuel parse) n pending := by
  refine .accept (by simp) (fun m hm => safe_compilePrint hsteady hsafe (by omega)) ?_
  refine .accept (by simp) (fun m hm => safe_compileIf hsteady hsafe (by omega)) ?_
  refine .accept (by simp) (fun m hm => safe_compileReturn hsteady hsafe (by omega)) ?_
  refine .accept (by simp) (fun m hm => safe_compileWhile hsteady hsafe (by omega)) ?_
  refine .accept (by simp) (fun m hm => safe_compileFor hsteady hsafe (by omega)) ?_
  refine .accept (by simp) (fun m hm => ?_) (safe_compileExpressionStatement hsteady hsafe hn)
  exact .bind steady_beginScope safe_beginScope fun _ =>
    .bind (steady_compileBlock hsteady fuel)
      (safe_compileBlock hsteady hconsumes hsafe (by omega) (by omega)) fun _ => safe_endScope

end Grammar

/-- Fuel in proportion to the tokens left is enough for every phrase. -/
theorem safe_parse (fuel : Nat) (ph : Phrase) (n : Nat) (h : 3 * n + ph.cost ≤ fuel) :
    Safe (parse fuel ph) n [] := by
  induction fuel generalizing ph n with
  | zero => cases ph <;> simp [Phrase.cost] at h
  | succ fuel ih =>
    cases ph with
    | declaration =>
      simp only [Phrase.cost] at h
      exact safe_compileDeclaration (steady_parse fuel) (consumes_parse fuel) ih (by omega)
    | statement =>
      simp only [Phrase.cost] at h
      exact safe_compileStatement (steady_parse fuel) (consumes_parse fuel) ih (by omega)
    | expression p =>
      simp only [Phrase.cost] at h
      exact safe_compileExpression (steady_parse fuel) ih p (by omega)

/-! ## Programs -/

/-- What a program does again and again until it has accepted the end token. -/
def programStep (fuel : Nat) : CompileM Bool := do
  if ← accept .eof then
    return false
  parse fuel .declaration
  return true

lemma program_eq (fuel : Nat) : program fuel = (do
    advance
    loop fuel (programStep fuel)
    finishFunction) := rfl

lemma steady_programStep (fuel : Nat) : Steady (programStep fuel) :=
  (steady_accept _).bind fun _ => .ite (.pure _) ((steady_parse fuel _).bind fun _ => .pure _)

lemma programStep_consumes (fuel : Nat) (s t : State) (h : programStep fuel s = .ok true t)
    (hfed : s.Fed) : t.rest.length < s.rest.length := by
  rw [programStep, bind_apply, accept_apply] at h
  by_cases heof : s.current.kind = .eof
  · simp only [heof, if_true] at h
    cases h
  · simp only [heof, if_false] at h
    obtain ⟨_, u, hu, ht⟩ := bind_ok h
    cases ht
    exact consumes_parse _ _ _ _ _ hu hfed heof

lemma loop_programStep_apply (bound fuel : Nat) (s : State) :
    loop (bound + 1) (programStep fuel) s =
      if s.current.kind = .eof then .ok () s.advance
      else (parse fuel .declaration >>= fun _ => loop bound (programStep fuel)) s := by
  by_cases hend : s.current.kind = .eof
  · have hstep : programStep fuel s = .ok false s.advance := by
      rw [programStep, bind_apply, accept_apply, if_pos hend]
      rfl
    rw [loop, bind_apply, hstep, if_pos hend]
    rfl
  · have hstep : programStep fuel s = (parse fuel .declaration >>= fun _ => pure true) s := by
      rw [programStep, bind_apply, accept_apply, if_neg hend]
      rfl
    rw [loop, bind_apply, hstep, if_neg hend, bind_apply, bind_apply]
    cases parse fuel .declaration s <;> rfl

lemma finishFunction_apply (s : State) :
    finishFunction s = .ok
      ((s.write ⟨.loadNil, 0⟩ s.previous.line).write ⟨.ret, 0⟩ s.previous.line).scope.toPrototype
      ((s.write ⟨.loadNil, 0⟩ s.previous.line).write ⟨.ret, 0⟩ s.previous.line) := by
  rw [finishFunction, bind_apply, emitReturn_apply]
  rfl

lemma safe_program {fuel n : Nat} (h : 3 * n + 3 ≤ fuel) : Safe (program fuel) n [] := by
  rw [program_eq]
  refine .bind steady_advance safe_advance fun _ =>
    .bind (steady_loop (steady_programStep fuel) fuel)
      (.loop (steady_programStep fuel) ?_ (programStep_consumes fuel) (by omega)) fun _ => ?_
  · exact .bind (steady_accept _) (safe_accept _) fun _ => .ite (.pure _)
      (.bind (steady_parse fuel _) (safe_parse fuel .declaration n h) fun _ => .pure _)
  · exact .bind steady_emitReturn safe_emitReturn fun _ => .bind .get .get fun _ => .pure _

end Lox.Compiler

namespace Lox

lemma Compiler.fed_start (c : Compiler) (source : Text) : (c.start (tokenize source)).Fed := by
  obtain ⟨body, last, htokens, hlast, -⟩ := tokenize_eq_append source
  have hend : (c.current :: (body ++ [last])).getLast (List.cons_ne_nil _ _) = last :=
    List.getLast_concat (l := c.current :: body)
  simp only [State.Fed, Compiler.start, htokens, hend, hlast]

/-- On every source, whatever was compiled before on the same compiler, the compiler does not
break a promise of its own. -/
theorem Compiler.compile_fst_ne_fault (c : Compiler) (source : Text) (f : Fault) :
    (c.compile source).1 ≠ .fault f := by
  intro h
  have hfuel : 3 * (tokenize source).length + 3 ≤ fuelFor (tokenize source).length := by
    simp only [fuelFor]
    omega
  have hsafe := safe_program hfuel (c.start (tokenize source))
    ⟨c.fed_start source, Nat.le_refl _, fun o ho => (nomatch ho)⟩
  rw [Compiler.compile, compileTokens] at h
  dsimp only [EStateM.run] at h
  split at h
  · rename_i hb
    split at h <;> simp at h
  · simp at h
  · rename_i f' t hb
    exact hsafe f' t hb

theorem compile_ne_fault (interactive : Bool) (source : Text) (f : Fault) :
    compile interactive source ≠ .fault f :=
  Compiler.compile_fst_ne_fault (.new interactive) source f

section Sources

open Compiler

lemma compile_of_program {interactive : Bool} {source : Text} {p : Prototype} {t : State}
    (h : program (fuelFor (tokenize source).length)
      ((Compiler.new interactive).start (tokenize source)) = .ok p t) :
    compile interactive source =
      if t.errors.isEmpty then .script p else .rejected t.errors.toList := by
  rw [compile, Compiler.compile, compileTokens]
  dsimp only [EStateM.run]
  rw [h]

lemma exists_program_of_compile {interactive : Bool} {source : Text} {p : Prototype}
    (h : compile interactive source = .script p) :
    ∃ t, program (fuelFor (tokenize source).length)
      ((Compiler.new interactive).start (tokenize source)) = .ok p t ∧ t.errors.toList = [] := by
  rw [compile, Compiler.compile, compileTokens] at h
  dsimp only [EStateM.run] at h
  split at h
  · rename_i script t hrun
    split at h
    · rename_i hclean
      cases h
      exact ⟨t, hrun, by simpa using hclean⟩
    · cases h
  · cases h
  · cases h

end Sources

end Lox
