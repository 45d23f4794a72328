import Lox.Proofs.Compiler.Keeping

/-!
# Sources that end too early

A source may end before it is complete.  The compiler then misses something at the end token and
reports that, and it reports nothing more until the declaration is over: it is *stranded*.  Every
step but those that end a panic is `Numb`: a stranded compilation stays stranded.  A step `Strands`
if it asks for a token or a phrase, so that it cannot be taken at the end of the source.

`CompileError.Mendable` says which errors more source may mend.  A compilation that comes to the end
of its source has no others, if it had none before.
-/

namespace Lox

/-- More source may mend it: something is missing at the end, or a string is not closed. -/
def CompileError.Mendable (e : CompileError) : Prop :=
  e.location = .atEnd ∨ e.cause = .lexical .unterminatedString

namespace Compiler

/-! ## The end of the source -/

/-- More source may mend every error so far. -/
def State.Mendable (s : State) : Prop :=
  ∀ e ∈ s.errors.toList, e.Mendable

/-- The source has ended. -/
structure Exhausted (s : State) : Prop where
  current : s.current.kind = .eof
  rest : s.rest = []
  mendable : s.Mendable

/-- The source has ended in the middle of something, which was reported. -/
structure Stranded (s : State) : Prop where
  exhausted : Exhausted s
  panicking : s.panicking = true

lemma Exhausted.with_scope {s : State} (hs : Exhausted s) (scope : FunctionScope)
    (enclosing : List FunctionScope) : Exhausted { s with scope, enclosing } :=
  ⟨hs.current, hs.rest, hs.mendable⟩

lemma Stranded.with_scope {s : State} (hs : Stranded s) (scope : FunctionScope)
    (enclosing : List FunctionScope) : Stranded { s with scope, enclosing } :=
  ⟨hs.exhausted.with_scope scope enclosing, hs.panicking⟩

lemma report_of_panicking {s : State} (hs : s.panicking = true) (t : Token) (c : CompileError.Cause) :
    s.report t c = s := if_pos hs

lemma Exhausted.advance {s : State} (hs : Exhausted s) : Exhausted s.advance := by
  rw [advance_of_rest_nil hs.rest]
  exact ⟨hs.current, hs.rest, hs.mendable⟩

lemma Stranded.advance {s : State} (hs : Stranded s) : Stranded s.advance := by
  refine ⟨hs.exhausted.advance, ?_⟩
  rw [advance_of_rest_nil hs.exhausted.rest]
  exact hs.panicking

/-- What is missing at the end is reported there. -/
lemma Exhausted.report {s : State} (hs : Exhausted s) {t : Token} (ht : t.kind = .eof)
    (c : CompileError.Cause) : Stranded (s.report t c) := by
  rw [State.report]
  split
  · rename_i hpanicking
    exact ⟨hs, hpanicking⟩
  · refine ⟨⟨hs.current, hs.rest, fun e he => ?_⟩, rfl⟩
    rw [Array.toList_push, List.mem_append, List.mem_singleton] at he
    rcases he with he | rfl
    · exact hs.mendable e he
    · refine .inl ?_
      dsimp only
      rw [CompileError.Location.ofToken, ht]

section Steps

variable {α β : Type}

/-- If the step completes, then it establishes `P`; and if it goes too deep, then more source may
mend the errors so far. -/
abbrev Lands (f : CompileM α) (s : State) (P : α → State → Prop) : Prop :=
  Attains State.Mendable f s P

/-! ## Steps that leave a compilation stranded -/

instance : Durable Stranded State.Mendable where
  left hs := hs.exhausted.mendable
  scope hs := hs.with_scope
  nesting hs _ := ⟨⟨hs.exhausted.current, hs.exhausted.rest, hs.exhausted.mendable⟩, hs.panicking⟩
  advance hs := hs.advance
  error hs _ _ := by rwa [report_of_panicking hs.panicking]
  errorAtCurrent hs _ _ := by rwa [report_of_panicking hs.panicking]

/-- A stranded compilation stays stranded. -/
abbrev Numb (f : CompileM α) : Prop :=
  Maintains Stranded State.Mendable f

lemma Numb.spec {f : CompileM α} [Numb f] (s : State) (hs : Stranded s) :
    Lands f s fun _ t => Stranded t :=
  Maintains.spec s hs

/-! ## Steps that strand a compilation -/

/-- At the end of the source something is missing. -/
def Strands (f : CompileM α) : Prop :=
  ∀ s, Exhausted s → Lands f s fun _ t => Stranded t

namespace Strands

variable {f : CompileM α} {g : α → CompileM β}

lemma numb (hf : Strands f) : Numb f := ⟨fun s hs => hf s hs.exhausted⟩

lemma bind [∀ a, Numb (g a)] (hf : Strands f) : Strands (f >>= g) :=
  fun s hs => (hf s hs).bind fun _ t _ ht => Numb.spec t ht

/-- After a step that concerns the innermost function alone. -/
lemma after (a : State → α) (scope : State → FunctionScope)
    (hf : ∀ s, f s = .ok (a s) { s with scope := scope s }) (hg : ∀ a, Strands (g a)) :
    Strands (f >>= g) :=
  fun s hs => .step (hf s) (hg _ _ (hs.with_scope _ _))

lemma accept {k : Token.Kind} (hk : k ≠ .eof) {g : Bool → CompileM β} (hg : Strands (g false)) :
    Strands (accept k >>= g) :=
  fun s hs => .step (accept_of_end hk hs.current) (hg s hs)

end Strands

lemma strands_consume {k : Token.Kind} (hk : k ≠ .eof) (w : Expected) : Strands (consume k w) := by
  intro s hs
  refine .of_ok (consume_apply k w s) ?_
  rw [if_neg (hs.current ▸ hk.symm)]
  exact hs.report hs.current _

lemma strands_emitOp (op : Opcode) {g : Unit → CompileM β} (hg : Strands (g ())) :
    Strands (emitOp op >>= g) :=
  .after (fun _ => ()) (fun s => { s.scope with chunk := s.scope.chunk.writeOp op s.previous.line })
    (fun _ => rfl) fun _ => hg

lemma strands_emitJump {op : Opcode} (hop : op.operandWidth = 2) {g : Nat → CompileM β}
    (hg : ∀ n, Strands (g n)) : Strands (emitJump op >>= g) :=
  .after (fun s => s.scope.chunk.code.size + 1)
    (fun s => (s.write ⟨op, Chunk.maxShort⟩ s.previous.line).scope)
    (fun s => emitJump_apply op s hop) hg

lemma strands_codeSize {g : Nat → CompileM β} (hg : ∀ n, Strands (g n)) : Strands (codeSize >>= g) :=
  .after (fun s => s.scope.chunk.code.size) State.scope codeSize_apply hg

lemma strands_compileExpression (bound : Nat) (parse : Parts) (p : Precedence) :
    Strands (compileExpression bound parse p) := by
  refine fun s hs => .nested hs.mendable (.step (advance_apply _) (.step (get_apply _) ?_))
  have hinside : Exhausted { s with nesting := s.nesting + 1 } := ⟨hs.current, hs.rest, hs.mendable⟩
  have hprevious : ({ s with nesting := s.nesting + 1 } : State).advance.previous = s.current :=
    advance_previous _
  rw [hprevious, hs.current]
  have hstranded := hinside.advance.report (hprevious ▸ hs.current) (.expected .expression)
  exact .of_ok (error_apply _ _) ⟨⟨hstranded.exhausted.current, hstranded.exhausted.rest,
    hstranded.exhausted.mendable⟩, hstranded.panicking⟩

lemma strands_compileExpressionStatement {parse : Parts} (hparse : Strands (expression parse)) :
    Strands (compileExpressionStatement parse) := .bind hparse

lemma strands_compileStatement (bound : Nat) {parse : Parts} (hparse : Strands (expression parse)) :
    Strands (compileStatement bound parse) := by
  simp only [compileStatement]
  exact .accept (by simp) (.accept (by simp) (.accept (by simp) (.accept (by simp) (.accept (by simp)
    (.accept (by simp) (strands_compileExpressionStatement hparse))))))

lemma strands_parse_expression (fuel : Nat) (p : Precedence) :
    Strands (parse fuel (.expression p)) := by
  cases fuel with
  | zero => exact fun s _ => .of_fault (throw_apply (.fault .tokensExhausted) s)
  | succ fuel => exact strands_compileExpression fuel (parse fuel) p

lemma strands_parse_statement (fuel : Nat) : Strands (parse fuel .statement) := by
  cases fuel with
  | zero => exact fun s _ => .of_fault (throw_apply (.fault .tokensExhausted) s)
  | succ fuel => exact strands_compileStatement fuel (strands_parse_expression fuel .assignment)

/-- A block is not closed. -/
lemma strands_compileBlock (bound : Nat) (parse : Parts) : Strands (compileBlock bound parse) := by
  refine fun s hs => .bind (P := fun _ t => t = s) ?_ fun _ t _ ht => ?_
  · cases bound with
    | zero => exact .of_fault (throw_apply (.fault .tokensExhausted) s)
    | succ bound => exact .of_ok ((loop_blockStep_apply parse bound s).trans (if_pos (.inr hs.current))) rfl
  · exact ht ▸ strands_consume (by simp) _ s hs

lemma strands_errorAtCurrent (c : CompileError.Cause) : Strands (errorAtCurrent c) :=
  fun s hs => .of_ok (errorAtCurrent_apply c s) (hs.report hs.current c)

lemma strands_compileParameters (bound : Nat) : Strands (compileParameters bound) := by
  cases bound with
  | zero => exact fun s _ => .of_fault (throw_apply (.fault .tokensExhausted) s)
  | succ bound =>
    simp only [compileParameters]
    refine .after (fun _ => ()) (fun s => { s.scope with arity := s.scope.arity + 1 }) (fun _ => rfl)
      fun _ => .after id State.scope get_apply fun s => ?_
    split
    · exact .bind (strands_errorAtCurrent _)
    · exact .bind (.bind (strands_consume (by simp) _))

/-! ## Stranded phrases -/

section Phrases

variable (fuel bound : Nat)

instance (p : Precedence) : Numb (parse fuel (.expression p)) := (strands_parse_expression fuel p).numb

instance : Numb (parse fuel .statement) := (strands_parse_statement fuel).numb

instance : Numb (compileBlock bound (parse fuel)) := (strands_compileBlock bound (parse fuel)).numb

lemma strands_compileArguments (count : Nat) : Strands (compileArguments (parse fuel) bound count) := by
  cases bound with
  | zero => exact fun s _ => .of_fault (throw_apply (.fault .tokensExhausted) s)
  | succ bound =>
    simp only [compileArguments]
    exact .bind (strands_parse_expression fuel .assignment)

end Phrases

end Steps

end Compiler

end Lox
