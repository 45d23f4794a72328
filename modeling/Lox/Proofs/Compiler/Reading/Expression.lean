import Lox.Proofs.Compiler.Reading

/-!
# Reading expressions

If an expression is compiled without an error, then the tokens it consumed are derivable from the
grammar, and the code it appended is the code of the derivation's tree (`ReadsExpr`).  The proofs
follow the compiler's recursion, one lemma for each of its functions.

Precedence climbing reads an operand and then extends it to the right as long as the next
operator binds tightly enough.  The invariant of that loop (`Operand`) is the tightest level the
operand belongs to: whatever operator comes next takes its left operand from a level that is no
tighter.
-/

namespace Lox

/-! ## The tables -/

/-- The level of the grammar that a continuation takes its left operand from. -/
def Continuation.left : Continuation → Precedence
  | .binary _ p => p
  | .and => .equality
  | .or => .and
  | .call | .unsupported _ => .call

/-- The tokens that begin an expression in this way. -/
def Opening.Means (k : Token.Kind) : Opening → Prop
  | .grouping => k = .leftParen
  | .unary op => ∃ u, UnaryOperator.ofKind? k = some u ∧ op = u.opcode
  | .variable => k = .identifier
  | .string => k = .string
  | .number => k = .number
  | .literal op => ∃ l, Literal.ofKind? k = some l ∧ op = l.opcode
  | .unsupported _ => True

lemma means_of_opening? {k : Token.Kind} {o : Opening} (h : k.opening? = some o) : o.Means k := by
  cases k <;> cases h <;> first | exact rfl | exact ⟨_, rfl, rfl⟩ | exact trivial

/-- The tokens that continue an expression in this way. -/
def Continuation.Means (k : Token.Kind) : Continuation → Prop
  | .binary op p => ∃ b, BinaryOperator.ofKind? k = some b ∧ op = b.opcode ∧ p = b.precedence
  | .and => k = .andWord
  | .or => k = .orWord
  | .call => k = .leftParen
  | .unsupported _ => True

lemma means_of_continuation? {k : Token.Kind} {c : Continuation} (h : k.continuation? = some c) :
    c.Means k := by
  cases k <;> cases h <;> first | exact rfl | exact ⟨_, rfl, rfl, rfl⟩ | exact trivial

/-- A continuation takes its left operand from the level behind its own, at most. -/
lemma Continuation.left_rank_le (c : Continuation) : c.left.rank ≤ c.precedence.rank + 1 := by
  cases c with
  | binary op p => exact Nat.le_succ _
  | and | or => decide
  | call | unsupported => exact Nat.le_succ _

/-- A looser operator than `p` takes its left operand from a level that `p` belongs to. -/
lemma left_rank_le_of_lt {c : Continuation} {p : Precedence} (h : c.precedence.rank < p.rank) :
    c.left.rank ≤ p.rank :=
  Nat.le_trans c.left_rank_le h

/-- After a binary operator, the next one takes its left operand from a level that the operator
belongs to, unless it binds more tightly. -/
lemma left_rank_le_binary {c : Continuation} {b : BinaryOperator}
    (h : c.precedence.rank < b.precedence.tighter.rank) : c.left.rank ≤ b.precedence.rank := by
  have htighter : b.precedence.tighter.rank = b.precedence.rank + 1 := by cases b <;> rfl
  have hlow : Precedence.equality.rank ≤ b.precedence.rank := by cases b <;> decide
  rw [htighter] at h
  cases c with
  | binary op p => exact Nat.le_of_lt_succ h
  | and => exact hlow
  | or => exact Nat.le_trans (by decide) hlow
  | call | unsupported => exact Nat.le_of_lt_succ h

lemma left_rank_le_call {k : Token.Kind} {c : Continuation} (hk : k.continuation? = some c) :
    c.left.rank ≤ Precedence.call.rank := by
  have hmeans := means_of_continuation? hk
  cases c with
  | binary op p =>
    obtain ⟨b, -, -, rfl⟩ := hmeans
    change b.precedence.rank ≤ _
    cases b <;> decide
  | and | or => decide
  | call | unsupported => exact Nat.le_refl _

namespace Compiler

open FunctionScope

/-! ## Expressions -/

/-- An expression of a level was read. -/
structure ReadsExpr (p : Precedence) (s : State) (e : Expr) (ts : List Token) (c : Code)
    (t : State) : Prop where
  derives : Expr.Derives (.level p) [e] ts
  emits : Expr.Emits s.context [e] c t.context
  reads : Reads s ts c t
  /-- The next token does not belong to it. -/
  stops : ∀ k, t.current.kind.continuation? = some k → k.precedence.rank < p.rank
  height : s.nesting + e.height ≤ maxNesting

/-- An operand of an expression of level `p` was read after the tokens `before` that belong to
it; it is an expression of level `q`. -/
structure Operand (p q : Precedence) (before : List Token) (s : State) (e : Expr) (ts : List Token)
    (c : Code) (t : State) : Prop where
  derives : Expr.Derives (.level q) [e] (before ++ ts)
  emits : Expr.Emits s.context [e] c t.context
  reads : Reads s ts c t
  level : p.rank ≤ q.rank
  /-- The operand can be extended by whatever operator comes next. -/
  next : ∀ k, t.current.kind.continuation? = some k → p.rank ≤ k.precedence.rank →
    k.left.rank ≤ q.rank
  height : s.nesting + e.height ≤ maxNesting + 1

section Expressions

/-- The expressions inside are read as they should be. -/
def YieldsExprs (fuel : Nat) : Prop :=
  ∀ p : Precedence, p.rank ≤ Precedence.unary.rank → ∀ s,
    Yields (parse fuel (.expression p)) s fun _ t => ∃ e ts c, ReadsExpr p s e ts c t

variable {fuel : Nat} (hparse : YieldsExprs fuel)

include hparse

lemma yields_expression (s : State) :
    Yields (expression (parse fuel)) s fun _ t => ∃ e ts c, ReadsExpr .assignment s e ts c t :=
  hparse .assignment (Nat.zero_le _) s

/-- What follows the name of a variable. -/
lemma yields_compileVariable (p : Precedence) (s : State)
    (hprevious : s.previous.kind = .identifier) (hnesting : s.nesting ≤ maxNesting) :
    Yields (compileVariable (parse fuel) (p = .assignment)) s fun _ t =>
      ∃ q e ts c, Operand p q [s.previous] s e ts c t := by
  refine .step (get_apply s) fun _ => (yields_resolve _ s).bind ?_
  rintro a t - ⟨hresolves, hstays, hreads⟩
  refine .step (check_apply .equal t) fun _ => ?_
  split
  · rename_i hassign
    simp only [Bool.and_eq_true, decide_eq_true_eq] at hassign
    refine (yields_advance t).bind ?_
    rintro _ u hadv ⟨hprev, hconsumed⟩
    replace hconsumed := hconsumed (by rw [hassign.2]; simp)
    refine (yields_expression hparse u).bind ?_
    rintro _ v - ⟨e, ts, c, he⟩
    refine .of_ok (emitOpShort_apply _ _ v hresolves.operandWidth.2) ?_
    have hnest : u.nesting = s.nesting := by rw [hadv.nesting, hstays]
    have hemits := he.emits
    rw [hconsumed.context] at hemits
    have hall := hreads.trans (hconsumed.reads.trans (he.reads.trans
      (.write v ⟨a.write, a.operand⟩ v.previous.line)))
    simp only [List.nil_append, List.append_nil, List.singleton_append] at hall
    refine ⟨.assignment, _, _, _, .assign hprevious hassign.2 he.derives,
      .assign hresolves hemits, hall, ?_, ?_, ?_⟩
    · simp [hassign.1]
    · intro k hk
      exact absurd (he.stops k hk) (Nat.not_lt_zero _)
    · have := he.height
      simp only [Expr.height]
      omega
  · refine .of_ok (emitOpShort_apply _ _ t hresolves.operandWidth.1) ?_
    have hall := hreads.trans (.write t ⟨a.read, a.operand⟩ t.previous.line)
    refine ⟨.primary, _, _, _, .var hprevious, .var hresolves, hall, p.rank_le,
      fun k _ _ => k.left.rank_le, ?_⟩
    simp only [Expr.height]
    omega

/-- What the opening token of an expression stands for. -/
lemma yields_compileOpening {p : Precedence} (hp : p.rank ≤ Precedence.unary.rank) (s : State)
    {o : Opening} (ho : s.previous.kind.opening? = some o) (hnesting : s.nesting ≤ maxNesting) :
    Yields (compileOpening (parse fuel) (p = .assignment) o) s fun _ t =>
      ∃ q e ts c, Operand p q [s.previous] s e ts c t := by
  match o, ho with
  | .grouping, ho =>
    refine (yields_expression hparse s).bind ?_
    rintro _ t - ⟨e, ts, c, he⟩
    refine (yields_consume (by simp) _ t).mono ?_
    rintro _ u ⟨hright, hconsumed⟩
    have hall := he.reads.trans hconsumed.reads
    rw [List.append_nil] at hall
    have hderives : Expr.Derives (.level .primary) [e] (s.previous :: ts ++ [t.current]) :=
      .grouping (means_of_opening? ho) hright he.derives
    refine ⟨.primary, e, ts ++ [t.current], c, hderives, ?_, hall,
      p.rank_le, fun k _ _ => k.left.rank_le, Nat.le_succ_of_le he.height⟩
    rw [hconsumed.context]
    exact he.emits
  | .unary op, ho =>
    obtain ⟨u, hu, rfl⟩ := means_of_opening? ho
    refine .step (previousLine_apply s) fun _ => (hparse .unary (Nat.le_refl _) s).bind ?_
    rintro _ t - ⟨e, ts, c, he⟩
    have hwidth : u.opcode.operandWidth = 0 := by cases u <;> rfl
    refine .of_ok (emitOpAt_apply _ _ t hwidth) ?_
    have hall := he.reads.trans (.write t ⟨u.opcode, 0⟩ s.previous.line)
    rw [List.append_nil] at hall
    refine ⟨.unary, _, _, _, .unary hu he.derives, .unary he.emits, hall, hp, ?_, ?_⟩
    · intro k hk _
      have hlt := he.stops k hk
      exact left_rank_le_of_lt hlt
    · have := he.height
      simp only [Expr.height]
      omega
  | .variable, ho => exact yields_compileVariable hparse p s (means_of_opening? ho) hnesting
  | .string, ho =>
    refine .step (get_apply s) fun _ => (yields_emitString _ s).mono ?_
    rintro _ t ⟨hle, line, hwrites⟩
    refine ⟨.primary, _, _, _, .string (means_of_opening? ho), ?_, hwrites.reads, p.rank_le,
      fun k _ _ => k.left.rank_le, by simp only [Expr.height]; omega⟩
    rw [hwrites.context]
    exact .string hle
  | .number, ho =>
    refine .step (get_apply s) fun _ => ?_
    split
    · exact .error _ _
    · rename_i bits hbits
      refine (yields_emitConstant _ s).mono ?_
      rintro _ t ⟨hle, line, hwrites⟩
      refine ⟨.primary, _, _, _, .number (means_of_opening? ho), ?_, hwrites.reads, p.rank_le,
        fun k _ _ => k.left.rank_le, by simp only [Expr.height]; omega⟩
      rw [hwrites.context]
      exact .number hbits hle
  | .literal op, ho =>
    obtain ⟨l, hl, rfl⟩ := means_of_opening? ho
    have hwidth : l.opcode.operandWidth = 0 := by cases l <;> rfl
    exact .of_ok (emitOp_apply _ s hwidth) ⟨.primary, _, _, _, .literal hl, .literal,
      .write s _ s.previous.line, p.rank_le, fun k _ _ => k.left.rank_le,
      by simp only [Expr.height]; omega⟩
  | .unsupported what, _ => exact .error _ _

/-- The arguments of a call from the `count`-th on. -/
lemma yields_compileArguments (bound count : Nat) (hcount : count ≤ maxArguments) (s : State) :
    Yields (compileArguments (parse fuel) bound count) s fun n t =>
      ∃ e es ts c, n = count + (e :: es).length ∧ n ≤ maxArguments ∧
        Expr.Derives .arguments (e :: es) ts ∧ Expr.Emits s.context (e :: es) c t.context ∧
        Reads s ts c t ∧ s.nesting + Expr.heightOfAll (e :: es) ≤ maxNesting := by
  induction bound generalizing count s with
  | zero =>
    intro _ _ _ h
    cases h
  | succ bound ih =>
    rw [compileArguments]
    refine (yields_expression hparse s).bind ?_
    rintro _ t hst ⟨e, ts, c, he⟩
    split
    · exact .error_bind _
    · rename_i hne
      refine (yields_accept (by simp) t).bind ?_
      rintro b u htu (⟨rfl, hcomma, hconsumed⟩ | ⟨rfl, -, rfl⟩)
      · refine (ih (count + 1) (by omega) u).mono ?_
        rintro n v ⟨e', es, us, d, rfl, hle, hderives, hemits, hreads, hheight⟩
        rw [hconsumed.context] at hemits
        have hall := he.reads.trans (hconsumed.reads.trans hreads)
        simp only [List.nil_append, List.singleton_append] at hall
        refine ⟨e, e' :: es, _, _, ?_, hle, .argument hcomma he.derives hderives,
          .cons he.emits hemits, hall, ?_⟩
        · simp only [List.length_cons]
          omega
        · rw [htu.nesting, hst.nesting] at hheight
          have := he.height
          simp only [Expr.heightOfAll] at hheight ⊢
          omega
      · refine .of_ok (pure_apply _ u) ⟨e, [], ts, c, rfl, by omega, .lastArgument he.derives,
          he.emits, he.reads, ?_⟩
        simpa [Expr.heightOfAll] using he.height

/-- An argument list whose parenthesis was consumed, and the call. -/
lemma yields_compileCall (bound : Nat) (s : State) (hnesting : s.nesting ≤ maxNesting) :
    Yields (compileCall bound (parse fuel)) s fun _ t =>
      ∃ args ts c line right, right.kind = .rightParen ∧ args.length ≤ maxArguments ∧
        Expr.Derives .arguments args ts ∧ Expr.Emits s.context args c t.context ∧
        Reads s (ts ++ [right]) (c ++ [(⟨.call, args.length⟩, line)]) t ∧
        s.nesting + Expr.heightOfAll args ≤ maxNesting := by
  have hend : ∀ (args : List Expr) (ts : List Token) (c : Code) (t : State),
      args.length ≤ maxArguments → Expr.Derives .arguments args ts →
      Expr.Emits s.context args c t.context → Reads s ts c t →
      s.nesting + Expr.heightOfAll args ≤ maxNesting →
      Yields (consume .rightParen .parenAfterArguments >>= fun _ =>
        emitOpAt .call s.previous.line >>= fun _ =>
          emitByte (min args.length maxArguments).toUInt8) t fun _ t =>
        ∃ args ts c line right, right.kind = .rightParen ∧ args.length ≤ maxArguments ∧
          Expr.Derives .arguments args ts ∧ Expr.Emits s.context args c t.context ∧
          Reads s (ts ++ [right]) (c ++ [(⟨.call, args.length⟩, line)]) t ∧
          s.nesting + Expr.heightOfAll args ≤ maxNesting := by
    intro args ts c t hle hderives hemits hreads hheight
    refine (yields_consume (by simp) _ t).bind ?_
    rintro _ u - ⟨hright, hconsumed⟩
    rw [Nat.min_eq_left hle]
    refine .of_ok (emitCall_apply s.previous.line args.length u) ?_
    have hall := hreads.trans (hconsumed.reads.trans
      (.write u ⟨.call, args.length⟩ s.previous.line))
    simp only [List.nil_append, List.append_nil] at hall
    refine ⟨args, ts, c, _, _, hright, hle, hderives, ?_, hall, hheight⟩
    rw [context_write, hconsumed.context]
    exact hemits
  refine .step (previousLine_apply s) fun _ => .step (check_apply _ s) fun _ => ?_
  dsimp only
  split
  · exact .step (pure_apply 0 s) fun _ =>
      hend [] [] [] s (Nat.zero_le _) .noArgument .nil (.refl s) hnesting
  · refine (yields_compileArguments hparse bound 0 (Nat.zero_le _) s).bind ?_
    rintro _ t - ⟨e, es, ts, c, rfl, hle, hderives, hemits, hreads, hheight⟩
    rw [Nat.zero_add] at hle ⊢
    exact hend _ ts c t hle hderives hemits hreads hheight

/-- What a continuation adds to the operand before it. -/
lemma yields_compileContinuation {p q : Precedence} {s t u : State} {e : Expr} {ts : List Token}
    {c : Code} {k : Continuation} (bound : Nat) (hoperand : Operand p q [] s e ts c t)
    (hk : t.current.kind.continuation? = some k) (hrank : p.rank ≤ k.precedence.rank)
    (hconsumed : Consumed t u) (hnesting : u.nesting = s.nesting) (hle : s.nesting ≤ maxNesting) :
    Yields (compileContinuation bound (parse fuel) k) u fun _ v =>
      ∃ q e ts c, Operand p q [] s e ts c v := by
  have hleft : Expr.Derives (.level k.left) [e] ts :=
    hoperand.derives.loosen (hoperand.next k hk hrank)
  have hreads := hoperand.reads.trans hconsumed.reads
  rw [List.append_nil] at hreads
  have hcontext : u.context = t.context := hconsumed.context
  have hheight := hoperand.height
  match k, hk, hrank, hleft with
  | .binary op p', hk, hrank, hleft =>
    obtain ⟨b, hb, rfl, rfl⟩ := means_of_continuation? hk
    have htighter : b.precedence.tighter.rank ≤ Precedence.unary.rank := by cases b <;> decide
    refine .step (previousLine_apply u) fun _ => (hparse _ htighter u).bind ?_
    rintro _ v - ⟨r, us, d, hr⟩
    have hwidth : b.opcode.operandWidth = 0 := by cases b <;> rfl
    refine .of_ok (emitOpAt_apply _ _ v hwidth) ?_
    have hemits := hr.emits
    rw [hcontext] at hemits
    have hall := hreads.trans (hr.reads.trans (.write v ⟨b.opcode, 0⟩ u.previous.line))
    simp only [List.append_nil, List.append_assoc, List.singleton_append] at hall
    rw [← List.append_assoc] at hall
    refine ⟨b.precedence, _, ts ++ t.current :: us, _, .binary hb hleft hr.derives,
      .binary hoperand.emits hemits, hall, hrank, ?_, ?_⟩
    · intro k' hk' _
      exact left_rank_le_binary (hr.stops k' hk')
    · have := hr.height
      simp only [Expr.height]
      omega
  | .and, hk, hrank, hleft =>
    refine .step (emitJump_apply _ u rfl) fun _ => .step (emitOp_apply _ _ rfl) fun _ => ?_
    rw [hreads.size_eq]
    have hjump := hreads.trans ((Reads.write u ⟨.jumpIfFalse, Chunk.maxShort⟩ u.previous.line).trans
      (.write _ ⟨.pop, 0⟩ u.previous.line))
    refine (hparse .and (by decide) _).bind ?_
    rintro _ v - ⟨r, us, d, hr⟩
    have hemits := hr.emits
    rw [context_write, context_write, hcontext] at hemits
    have hall : Reads s (ts ++ t.current :: us) (c ++ (⟨.jumpIfFalse, Chunk.maxShort⟩,
        u.previous.line) :: (⟨.pop, 0⟩, u.previous.line) :: d) v := by
      simpa using hjump.trans hr.reads
    refine (yields_patchJump rfl hall).mono ?_
    rintro _ w ⟨hsize, hstays, hw, hpatched⟩
    rw [Code.size_pop_cons] at hsize hpatched
    refine ⟨.and, _, ts ++ t.current :: us, _, .and (means_of_continuation? hk) hleft hr.derives, ?_,
      hpatched, hrank, ?_, ?_⟩
    · rw [hw]
      exact .and hoperand.emits hemits hsize
    · intro k' hk' _
      rw [hstays] at hk'
      exact left_rank_le_of_lt (hr.stops k' hk')
    · have := hr.height
      change u.nesting + r.height ≤ maxNesting at this
      simp only [Expr.height]
      omega
  | .or, hk, hrank, hleft =>
    refine .step (emitJump_apply _ u rfl) fun _ => .step (emitJump_apply _ _ rfl) fun _ => ?_
    have hjumps := hreads.trans
      ((Reads.write u ⟨.jumpIfFalse, Chunk.maxShort⟩ u.previous.line).trans
        (.write _ ⟨.jump, Chunk.maxShort⟩ u.previous.line))
    have hboth : Reads s (ts ++ [t.current]) (c ++ (⟨.jumpIfFalse, Chunk.maxShort⟩,
        u.previous.line) :: [(⟨.jump, Chunk.maxShort⟩, u.previous.line)])
        ((u.write ⟨.jumpIfFalse, Chunk.maxShort⟩ u.previous.line).write ⟨.jump, Chunk.maxShort⟩
          u.previous.line) := by
      simpa using hjumps
    have hsecond := (hreads.trans (.write u ⟨.jumpIfFalse, Chunk.maxShort⟩ u.previous.line)).size_eq
    rw [hsecond, hreads.size_eq]
    refine (yields_patchJump rfl hboth).bind ?_
    rintro _ v huv ⟨-, hstays, hcontext', hpatched⟩
    refine .step (emitOp_apply _ v rfl) fun _ => (hparse .or (by decide) _).bind ?_
    rintro _ w - ⟨r, us, d, hr⟩
    have hemits := hr.emits
    rw [context_write, hcontext', context_write, context_write, hcontext] at hemits
    have hall : Reads s (ts ++ t.current :: us) ((c ++ [(⟨.jumpIfFalse, 3⟩, u.previous.line)]) ++
        (⟨.jump, Chunk.maxShort⟩, u.previous.line) :: (⟨.pop, 0⟩, v.previous.line) :: d) w := by
      have := hpatched.trans ((Reads.write v ⟨.pop, 0⟩ v.previous.line).trans hr.reads)
      simpa [Instruction.size, Opcode.size, Opcode.operandWidth] using this
    have hoffset : s.scope.chunk.code.size + Code.size (c ++ [(⟨.jumpIfFalse, Chunk.maxShort⟩,
        u.previous.line)]) = s.scope.chunk.code.size + Code.size (c ++ [(⟨.jumpIfFalse, 3⟩,
        u.previous.line)]) := by
      simp [Instruction.size]
    rw [hoffset]
    refine (yields_patchJump rfl hall).mono ?_
    rintro _ x ⟨hsize, hstays', hx, hdone⟩
    rw [Code.size_pop_cons] at hsize hdone
    refine ⟨.or, _, ts ++ t.current :: us, _, .or (means_of_continuation? hk) hleft hr.derives, ?_,
      by simpa using hdone, hrank, ?_, ?_⟩
    · rw [hx]
      exact .or hoperand.emits hemits hsize
    · intro k' hk' _
      rw [hstays'] at hk'
      exact left_rank_le_of_lt (hr.stops k' hk')
    · have hnest : v.nesting = u.nesting := by rw [hstays]; rfl
      have := hr.height
      change v.nesting + r.height ≤ maxNesting at this
      simp only [Expr.height]
      omega
  | .call, hk, hrank, hleft =>
    refine (yields_compileCall hparse bound u (by omega)).mono ?_
    rintro _ v ⟨args, us, d, line, right, hright, hle, hderives, hemits, hr, hh⟩
    rw [hcontext] at hemits
    have hall := hreads.trans hr
    simp only [List.append_assoc, List.singleton_append] at hall
    have hcall := Expr.Derives.call (means_of_continuation? hk) hright hleft hderives
    simp only [List.append_assoc, List.cons_append] at hcall
    refine ⟨.call, _, _, _, hcall, ?_, hall, ?_, ?_, ?_⟩
    · rw [← List.append_assoc]
      exact .call (hoperand.emits.cons_list hemits) hle
    · exact hrank
    · exact fun k' hk' _ => left_rank_le_call hk'
    · simp only [Expr.height]
      omega
  | .unsupported what, _, _, _ => exact .error _ _

/-- One round of extending the operand. -/
lemma yields_continueExpression {p q : Precedence} {s t : State} {e : Expr} {ts : List Token}
    {c : Code} (bound : Nat) (hoperand : Operand p q [] s e ts c t)
    (hnesting : t.nesting = s.nesting) (hle : s.nesting ≤ maxNesting) :
    Yields (continueExpression bound (parse fuel) p) t fun b u =>
      if b then ∃ q e ts c, Operand p q [] s e ts c u
      else u = t ∧ ∀ k, t.current.kind.continuation? = some k → k.precedence.rank < p.rank := by
  refine .step (currentKind_apply t) fun _ => ?_
  split
  · rename_i hnone
    refine .of_ok (pure_apply false t) ⟨rfl, ?_⟩
    intro k hk
    simp [hnone] at hk
  · rename_i k hk
    split
    · rename_i hrank
      refine (yields_advance t).bind ?_
      rintro _ u htu ⟨-, hconsumed⟩
      have hnotEof : t.current.kind ≠ .eof := by
        intro heof
        rw [heof] at hk
        cases hk
      refine (yields_compileContinuation hparse bound hoperand hk hrank (hconsumed hnotEof)
        (htu.nesting.trans hnesting) hle).bind ?_
      intro _ v _ hv
      exact .of_ok (pure_apply true v) hv
    · rename_i hrank
      refine .of_ok (pure_apply false t) ⟨rfl, ?_⟩
      intro k' hk'
      rw [hk] at hk'
      cases hk'
      exact Nat.lt_of_not_le hrank

/-- Extending the operand as far as it goes. -/
lemma yields_loop_continueExpression {p q : Precedence} {s t : State} {e : Expr} {ts : List Token}
    {c : Code} (bound rounds : Nat) (hoperand : Operand p q [] s e ts c t)
    (hnesting : t.nesting = s.nesting) (hle : s.nesting ≤ maxNesting) :
    Yields (loop rounds (continueExpression bound (parse fuel) p)) t fun _ u =>
      (∃ q e ts c, Operand p q [] s e ts c u) ∧
        ∀ k, u.current.kind.continuation? = some k → k.precedence.rank < p.rank := by
  induction rounds generalizing q t e ts c with
  | zero =>
    intro _ _ _ h
    cases h
  | succ rounds ih =>
    refine (yields_continueExpression hparse bound hoperand hnesting hle).bind ?_
    intro b u htu hu
    cases b with
    | true =>
      obtain ⟨q, e, ts, c, hoperand⟩ := hu
      exact ih hoperand (htu.nesting.trans hnesting)
    | false =>
      obtain ⟨rfl, hstops⟩ := hu
      exact .of_ok (pure_apply () u) ⟨⟨q, e, ts, c, hoperand⟩, hstops⟩

/-- An expression of a precedence. -/
lemma yields_compileExpression (bound : Nat) {p : Precedence}
    (hp : p.rank ≤ Precedence.unary.rank) (s : State) :
    Yields (compileExpression bound (parse fuel) p) s fun _ t =>
      ∃ e ts c, ReadsExpr p s e ts c t := by
  refine .nested fun hnesting => ?_
  have hsteady := steady_opened fuel bound p
  refine (yields_advance _).bind ?_
  rintro _ t hst ⟨hprevious, hconsumed⟩
  refine .step (get_apply t) fun _ => ?_
  split
  · exact .error _ _
  · rename_i o ho
    have hnotEof : s.current.kind ≠ .eof := by
      intro heof
      rw [hprevious] at ho
      change s.current.kind.opening? = some o at ho
      rw [heof] at ho
      cases ho
    have hconsumed := hconsumed hnotEof
    have hnest : t.nesting = s.nesting + 1 := hst.nesting
    refine (yields_compileOpening hparse hp t ho (by omega)).bind ?_
    rintro _ u htu ⟨q, e, ts, c, hopened⟩
    have hoperand : Operand p q [] { s with nesting := s.nesting + 1 } e (s.current :: ts) c u := by
      refine ⟨hprevious ▸ hopened.derives, ?_, ?_, hopened.level, hopened.next, ?_⟩
      · rw [← hconsumed.context]
        exact hopened.emits
      · exact hconsumed.reads.trans hopened.reads
      · have := hopened.height
        rw [hnest] at this
        exact this
    refine (yields_loop_continueExpression hparse bound bound hoperand
      (htu.nesting.trans hst.nesting) hnesting).bind ?_
    rintro _ v huv ⟨⟨q', e', ts', c', hresult⟩, hstops⟩
    have hread : ReadsExpr p s e' ts' c' { v with nesting := v.nesting - 1 } := by
      refine ⟨hresult.derives.loosen hresult.level, hresult.emits, hresult.reads.of_nested,
        hstops, ?_⟩
      have := hresult.height
      change s.nesting + 1 + e'.height ≤ maxNesting + 1 at this
      omega
    split
    · refine (yields_accept (by simp) v).bind ?_
      rintro b w - (⟨rfl, -, -⟩ | ⟨rfl, -, rfl⟩)
      · exact .error _ _
      · exact .of_ok (pure_apply () w) ⟨e', ts', c', hread⟩
    · exact .of_ok (pure_apply () v) ⟨e', ts', c', hread⟩

end Expressions

end Compiler

end Lox
