import Lox.Proofs.Compiler.Acceptance
import Lox.Proofs.Compiler.Reading.Expression

/-!
# Accepting expressions

An expression that the grammar derives is read to its end, and no further, if the token behind it
cannot belong to it (`Stops`).  The proofs follow the derivation, and the compiler along with it.

The derivation of a left-associative operator has its left operand as a part, while the compiler
has read the left operand before it meets the operator.  So what is proved along a derivation is
not about reading the expression alone, but about reading it and going on (`accepts_reading`).
-/

namespace Lox

/-! ## What may follow an expression -/

/-- The first of the tokens cannot belong to an expression of the level that stands before them. -/
def Stops (p : Precedence) : List Token → Prop
  | [] => False
  | t :: _ => t.kind ≠ .equal ∧ ∀ k, t.kind.continuation? = some k → k.precedence.rank < p.rank

/-- If the first of the tokens is an operator, then it can take an expression of the level that
stands before them as its left operand. -/
def Follows (q : Precedence) : List Token → Prop
  | [] => False
  | t :: _ => t.kind ≠ .equal ∧ ∀ k, t.kind.continuation? = some k → k.left.rank ≤ q.rank

lemma Stops.follows {p : Precedence} {ts : List Token} (h : Stops p ts) : Follows p ts := by
  cases ts with
  | nil => exact h
  | cons t ts => exact ⟨h.1, fun k hk => left_rank_le_of_lt (h.2 k hk)⟩

/-- An operator follows what it takes as its left operand. -/
lemma follows_of_continuation {k : Continuation} {t : Token} (hk : t.kind.continuation? = some k)
    (ts : List Token) : Follows k.left (t :: ts) := by
  refine ⟨fun hequal => ?_, fun k' hk' => ?_⟩
  · rw [hequal] at hk
    cases hk
  · rw [hk] at hk'
    cases hk'
    exact Nat.le_refl _

lemma Follows.mono {p q : Precedence} {ts : List Token} (h : Follows p ts)
    (hpq : p.rank ≤ q.rank) : Follows q ts := by
  cases ts with
  | nil => exact h
  | cons t ts => exact ⟨h.1, fun k hk => Nat.le_trans (h.2 k hk) hpq⟩

lemma Follows.exists_cons {q : Precedence} {ts : List Token} (h : Follows q ts) :
    ∃ t us, ts = t :: us ∧ t.kind ≠ .equal := by
  cases ts with
  | nil => exact h.elim
  | cons t us => exact ⟨t, us, rfl, h.1⟩

/-- A token that is not an operator. -/
lemma stops_of_kind {p : Precedence} {t : Token} {ts : List Token} {k : Token.Kind}
    (ht : t.kind = k) (hequal : k ≠ .equal) (hk : k.continuation? = none) : Stops p (t :: ts) := by
  refine ⟨ht ▸ hequal, fun k' hk' => ?_⟩
  rw [ht, hk] at hk'
  cases hk'

/-- The right operand of a binary operator ends where the operator's own expression does. -/
lemma Follows.stops_tighter {b : BinaryOperator} {ts : List Token}
    (h : Follows b.precedence ts) : Stops b.precedence.tighter ts := by
  cases ts with
  | nil => exact h
  | cons t ts =>
    refine ⟨h.1, fun k hk => ?_⟩
    have hleft := h.2 k hk
    revert hk hleft
    cases t.kind <;> simp only [Token.Kind.continuation?, Option.some.injEq, reduceCtorEq,
      false_implies] <;> rintro rfl <;> cases b <;> decide

/-- So do the operands of the operators that associate to the right and of those that come
before their operands. -/
lemma Follows.stops {q : Precedence} {ts : List Token} (h : Follows q ts)
    (hq : q = .assignment ∨ q = .or ∨ q = .and ∨ q = .unary) : Stops q ts := by
  cases ts with
  | nil => exact h
  | cons t ts =>
    refine ⟨h.1, fun k hk => ?_⟩
    have hleft := h.2 k hk
    revert hk hleft
    cases t.kind <;> simp only [Token.Kind.continuation?, Option.some.injEq, reduceCtorEq,
      false_implies] <;> rintro rfl <;> rcases hq with rfl | rfl | rfl | rfl <;> decide

/-! ## The tables -/

lemma opening?_of_unary {k : Token.Kind} {u : UnaryOperator} (h : UnaryOperator.ofKind? k = some u) :
    k.opening? = some (.unary u.opcode) := by
  cases k <;> cases h <;> rfl

lemma opening?_of_literal {k : Token.Kind} {l : Literal} (h : Literal.ofKind? k = some l) :
    k.opening? = some (.literal l.opcode) := by
  cases k <;> cases h <;> rfl

lemma continuation?_of_binary {k : Token.Kind} {b : BinaryOperator}
    (h : BinaryOperator.ofKind? k = some b) :
    k.continuation? = some (.binary b.opcode b.precedence) := by
  cases k <;> cases h <;> rfl

namespace Compiler

/-! ## Reading an expression and going on -/

/-- What comes after the opening of an expression. -/
def extending (fuel bound : Nat) (p : Precedence) (rounds : Nat) : CompileM Unit := do
  loop rounds (continueExpression bound (parse fuel) p)
  if p = .assignment then
    if ← accept .equal then
      error .invalidAssignmentTarget

/-- An expression, once it is known not to be nested too deeply. -/
def reading (fuel bound : Nat) (p : Precedence) (rounds : Nat) : CompileM Unit := do
  advance
  match (← get).previous.kind.opening? with
  | none => error (.expected .expression)
  | some opening =>
    compileOpening (parse fuel) (p = .assignment) opening
    extending fuel bound p rounds

lemma compileExpression_eq (fuel bound : Nat) (p : Precedence) :
    compileExpression bound (parse fuel) p = nested (reading fuel bound p bound) := rfl

instance (fuel bound : Nat) (p : Precedence) (rounds : Nat) :
    Steady (extending fuel bound p rounds) :=
  inferInstanceAs (Steady (loop rounds (continueExpression bound (parse fuel) p) >>= fun _ =>
    if p = .assignment then
      accept .equal >>= fun b => if b then error .invalidAssignmentTarget else pure ()
    else pure ()))

/-- The expressions inside are accepted as they should be. -/
def AcceptsExprs (fuel : Nat) : Prop :=
  ∀ p : Precedence, p.rank ≤ Precedence.unary.rank → ∀ e ts rest s,
    Expr.Derives (.level p) [e] ts → Awaits s (ts ++ rest) → Stops p rest →
    Accepts (parse fuel (.expression p)) s fun _ t => Awaits t rest

section Expressions

variable {fuel : Nat} (hparse : AcceptsExprs fuel)

include hparse

lemma accepts_expression {e : Expr} {ts rest : List Token} {s : State}
    (h : Expr.Derives (.level .assignment) [e] ts) (hs : Awaits s (ts ++ rest))
    (hrest : Stops .assignment rest) :
    Accepts (expression (parse fuel)) s fun _ t => Awaits t rest :=
  hparse .assignment (Nat.zero_le _) e ts rest s h hs hrest

/-- The arguments of a call from the `count`-th on. -/
lemma accepts_compileArguments {es : List Expr} {ts rest : List Token} {right : Token}
    (h : Expr.Derives .arguments es ts) (hes : es ≠ []) (hright : right.kind = .rightParen)
    (bound count : Nat) {s : State} (hs : Awaits s (ts ++ right :: rest)) :
    Accepts (compileArguments (parse fuel) bound count) s fun _ t => Awaits t (right :: rest) := by
  -- The derivation of a list of arguments is taken apart from the left.
  obtain ⟨nt, hnt⟩ : ∃ nt, nt = Expr.Nonterminal.arguments := ⟨_, rfl⟩
  rw [← hnt] at h
  induction h generalizing bound count s with
  | noArgument => exact absurd rfl hes
  | @lastArgument e ts he =>
    cases bound with
    | zero => exact .fault _
    | succ bound =>
      have hstops : Stops .assignment (right :: rest) := stops_of_kind hright (by simp) rfl
      rw [compileArguments]
      refine (accepts_expression hparse he hs hstops).bind fun _ t ht => ?_
      dsimp only
      split
      · refine .quiet ht fun _ u hu _ => ?_
        exact .decline hu (by simp [hright]) (.of_ok (pure_apply _ u) hu.clean hu)
      · exact .decline ht (by simp [hright]) (.of_ok (pure_apply _ t) ht.clean ht)
  | @argument comma e e' es ts us hcomma he hargs _ ih =>
    cases bound with
    | zero => exact .fault _
    | succ bound =>
      have hstops : ∀ rest, Stops .assignment (comma :: rest) :=
        fun rest => stops_of_kind hcomma (by simp) rfl
      obtain ⟨first, us', hus, -⟩ := hargs.exists_cons (by simp)
      rw [compileArguments]
      rw [List.append_assoc, List.cons_append] at hs
      refine (accepts_expression hparse he hs (hstops _)).bind fun _ t ht => ?_
      rw [hus, List.cons_append] at ht
      have hnext : ∀ u, Awaits u (first :: (us' ++ right :: rest)) →
          Accepts (compileArguments (parse fuel) bound (count + 1)) u fun _ t =>
            Awaits t (right :: rest) := by
        intro u hu
        refine ih (by simp) bound (count + 1) ?_ rfl
        rwa [hus]
      dsimp only
      split
      · exact .quiet ht fun _ u hu _ => .accept hu hcomma fun v hv _ => hnext v hv
      · exact .accept ht hcomma fun v hv _ => hnext v hv
  | _ => cases hnt

/-- An argument list whose parenthesis was consumed, and the call. -/
lemma accepts_compileCall {es : List Expr} {ts us : List Token} {right next : Token}
    (h : Expr.Derives .arguments es ts) (hright : right.kind = .rightParen) (bound : Nat)
    {s : State} (hs : Awaits s (ts ++ right :: next :: us)) :
    Accepts (compileCall bound (parse fuel)) s fun _ t => Awaits t (next :: us) := by
  refine .quiet hs fun line t ht _ => .step (check_apply _ t) ?_
  have hend : ∀ (n : Nat) (u : State), Awaits u (right :: next :: us) →
      Accepts (consume .rightParen .parenAfterArguments >>= fun _ =>
        emitOpAt .call line >>= fun _ => emitByte (min n maxArguments).toUInt8) u fun _ v =>
        Awaits v (next :: us) :=
    fun n u hu => .consume hu hright fun v hv _ => .quietly hv
  cases es with
  | nil =>
    cases h
    rw [ht.current, hright, decide_eq_true rfl]
    exact .step (pure_apply 0 t) (hend 0 t ht)
  | cons e es =>
    obtain ⟨first, ts', rfl, o, ho, -⟩ := h.exists_cons (by simp)
    have hfirst : first.kind ≠ .rightParen := by
      intro hkind
      rw [hkind] at ho
      cases ho
    rw [ht.current, decide_eq_false hfirst]
    exact (accepts_compileArguments hparse h (by simp) hright bound 0 ht).bind hend

omit hparse in
/-- A variable that is not assigned to. -/
lemma accepts_compileVariable {t : Token} {rest : List Token} {s : State} (canAssign : Bool)
    (hs : Awaits s (t :: rest)) (ht : t.kind ≠ .equal) :
    Accepts (compileVariable (parse fuel) canAssign) s fun _ u => Awaits u (t :: rest) := by
  refine .step (get_apply s) (.quiet hs fun access u hu _ => .step (check_apply _ u) ?_)
  rw [hu.current, decide_eq_false ht, Bool.and_false, if_neg Bool.false_ne_true]
  exact .quietly hu

omit hparse in
/-- The opening token of an expression is consumed, and then what belongs to it. -/
lemma accepts_opening {p : Precedence} {t : Token} {us rest : List Token} {o : Opening}
    {bound rounds : Nat} {s : State} {Q : Unit → State → Prop} (hs : Awaits s (t :: us))
    (hus : us ≠ []) (ho : t.kind.opening? = some o)
    (hgo : ∀ rounds t, Awaits t rest → Accepts (extending fuel bound p rounds) t Q)
    (hinside : ∀ u, Awaits u us → u.previous = t →
      Accepts (compileOpening (parse fuel) (p = .assignment) o) u fun _ v => Awaits v rest) :
    Accepts (reading fuel bound p rounds) s Q := by
  obtain ⟨u, us, rfl⟩ := List.exists_cons_of_ne_nil hus
  refine .advance hs fun v hv hprevious => .step (get_apply v) ?_
  rw [hprevious, ho]
  exact (hinside v hv hprevious).bind fun _ w hw => hgo rounds w hw

omit hparse in
/-- One more round of extending an operand: the next token is an operator that binds tightly
enough. -/
lemma accepts_extending {p : Precedence} {k : Continuation} {op : Token} {us rest : List Token}
    {Q : Unit → State → Prop} (hk : op.kind.continuation? = some k)
    (hrank : p.rank ≤ k.precedence.rank) {bound : Nat} (rounds : Nat) {s : State}
    (hs : Awaits s (op :: us)) (hus : us ≠ [])
    (hgo : ∀ rounds t, Awaits t rest → Accepts (extending fuel bound p rounds) t Q)
    (hoperand : ∀ t, Awaits t us →
      Accepts (compileContinuation bound (parse fuel) k) t fun _ u => Awaits u rest) :
    Accepts (extending fuel bound p rounds) s Q := by
  obtain ⟨next, us, rfl⟩ := List.exists_cons_of_ne_nil hus
  cases rounds with
  | zero =>
    rw [Accepts, extending, bind_apply]
    trivial
  | succ rounds =>
    have hround : Accepts (continueExpression bound (parse fuel) p) s fun b t =>
        b = true ∧ Awaits t rest := by
      refine .step (currentKind_apply s) ?_
      rw [hs.current, hk]
      dsimp only
      rw [if_pos hrank]
      refine .advance hs fun t ht _ => (hoperand t ht).bind fun _ u hu => ?_
      exact .of_ok (pure_apply true u) hu.clean ⟨rfl, hu⟩
    rw [extending, loop, bind_assoc]
    refine hround.bind fun b t hgone => ?_
    obtain ⟨rfl, ht⟩ := hgone
    exact hgo rounds t ht

/-- An expression of a level is read, and then it is gone on with.  The induction is on the
derivation; an operator's left operand is read and gone on with, and going on begins with the
operator. -/
lemma accepts_reading {p q : Precedence} {nt : Expr.Nonterminal} {es : List Expr} {e : Expr}
    {ts rest : List Token} (h : Expr.Derives nt es ts) (hnt : nt = .level q) (hes : es = [e])
    (hpq : p.rank ≤ q.rank) (hrest : Follows q rest) (bound rounds : Nat) {s : State} (hs : Awaits s (ts ++ rest))
    {Q : Unit → State → Prop}
    (hgo : ∀ rounds t, Awaits t rest → Accepts (extending fuel bound p rounds) t Q) :
    Accepts (reading fuel bound p rounds) s Q := by
  induction h generalizing q e rest rounds s with
  | @tighter q' e' ts he ih =>
    cases hnt
    cases hes
    have hle : q'.rank ≤ q'.tighter.rank := by cases q' <;> decide
    exact ih rfl rfl (Nat.le_trans hpq hle) (hrest.mono hle) rounds hs hgo
  | @assign name equal e' ts hname hequal he _ =>
    cases hnt
    have hassign : p = .assignment := Precedence.rank_injective (Nat.le_zero.1 hpq)
    refine accepts_opening (o := .variable) hs (by simp) (by rw [hname]; rfl) hgo fun u hu _ => ?_
    obtain ⟨first, ts', rfl, -⟩ := he.exists_cons (by simp)
    refine .step (get_apply u) (.quiet hu fun access v hv _ => .step (check_apply _ v) ?_)
    rw [hv.current, hequal, hassign]
    refine .advance hv fun w hw _ => ?_
    exact (accepts_expression hparse he hw (hrest.stops (.inl rfl))).bind fun _ x hx => .quietly hx
  | @or op l r ts us hop hl hr ih _ =>
    cases hnt
    have hk : op.kind.continuation? = some .or := by
      rw [hop]
      rfl
    have hfollows := follows_of_continuation hk (us ++ rest)
    rw [List.append_assoc, List.cons_append] at hs
    refine ih rfl rfl (Nat.le_trans hpq (by decide)) hfollows rounds hs fun rounds t ht => ?_
    obtain ⟨first, us', hus, -⟩ := hr.exists_cons (by simp)
    refine accepts_extending hk hpq rounds ht (by simp [hus]) hgo fun u hu => ?_
    refine .quiet hu fun _ v hv _ => .quiet hv fun _ w hw _ => .quiet hw fun _ x hx _ => ?_
    refine .quiet hx fun _ y hy _ => ?_
    exact (hparse .or (by decide) r us rest y hr hy (hrest.stops (.inr (.inl rfl)))).bind
      fun _ z hz => .quietly hz
  | @and op l r ts us hop hl hr ih _ =>
    cases hnt
    have hk : op.kind.continuation? = some .and := by
      rw [hop]
      rfl
    have hfollows := follows_of_continuation hk (us ++ rest)
    rw [List.append_assoc, List.cons_append] at hs
    refine ih rfl rfl (Nat.le_trans hpq (by decide)) hfollows rounds hs fun rounds t ht => ?_
    obtain ⟨first, us', hus, -⟩ := hr.exists_cons (by simp)
    refine accepts_extending hk hpq rounds ht (by simp [hus]) hgo fun u hu => ?_
    refine .quiet hu fun _ v hv _ => .quiet hv fun _ w hw _ => ?_
    exact (hparse .and (by decide) r us rest w hr hw (hrest.stops (.inr (.inr (.inl rfl))))).bind
      fun _ x hx => .quietly hx
  | @binary b op l r ts us hop hl hr ih _ =>
    cases hnt
    have hk := continuation?_of_binary hop
    have hfollows := follows_of_continuation hk (us ++ rest)
    rw [List.append_assoc, List.cons_append] at hs
    refine ih rfl rfl hpq hfollows rounds hs fun rounds t ht => ?_
    obtain ⟨first, us', hus, -⟩ := hr.exists_cons (by simp)
    refine accepts_extending hk hpq rounds ht (by simp [hus]) hgo fun u hu => ?_
    have htighter : b.precedence.tighter.rank ≤ Precedence.unary.rank := by cases b <;> decide
    refine .quiet hu fun _ v hv _ => ?_
    exact (hparse _ htighter r us rest v hr hv hrest.stops_tighter).bind fun _ w hw => .quietly hw
  | @unary u op e' ts hop he _ =>
    cases hnt
    obtain ⟨first, ts', hts, -⟩ := he.exists_cons (by simp)
    refine accepts_opening hs (by simp [hts]) (opening?_of_unary hop) hgo fun v hv _ => ?_
    refine .quiet hv fun _ w hw _ => ?_
    exact (hparse .unary (Nat.le_refl _) e' ts rest w he hw
      (hrest.stops (.inr (.inr (.inr rfl))))).bind fun _ x hx => .quietly hx
  | @call left right f args ts us hleft hright hf hargs ih _ =>
    cases hnt
    have hk : left.kind.continuation? = some .call := by
      rw [hleft]
      rfl
    have hfollows := follows_of_continuation hk (us ++ right :: rest)
    simp only [List.append_assoc, List.cons_append, List.nil_append] at hs
    refine ih rfl rfl hpq hfollows rounds hs fun rounds t ht => ?_
    refine accepts_extending hk hpq rounds ht (by simp) hgo fun u hu => ?_
    obtain ⟨next, rest', rfl, -⟩ := hrest.exists_cons
    exact accepts_compileCall hparse hargs hright bound hu
  | @literal l t hl =>
    obtain ⟨next, rest', rfl, -⟩ := hrest.exists_cons
    exact accepts_opening hs (by simp) (opening?_of_literal hl) hgo fun u hu _ =>
      Accepts.quietly (f := emitOp l.opcode) hu
  | @number t ht =>
    obtain ⟨next, rest', rfl, -⟩ := hrest.exists_cons
    refine accepts_opening (o := .number) hs (by simp) (by rw [ht]; rfl) hgo fun u hu _ => ?_
    refine .step (get_apply u) ?_
    split
    · exact .quietly hu
    · exact .quietly hu
  | @string t ht =>
    obtain ⟨next, rest', rfl, -⟩ := hrest.exists_cons
    refine accepts_opening (o := .string) hs (by simp) (by rw [ht]; rfl) hgo fun u hu _ => ?_
    exact .step (get_apply u) (.quietly hu)
  | @var t ht =>
    obtain ⟨next, rest', rfl, hequal⟩ := hrest.exists_cons
    exact accepts_opening (o := .variable) hs (by simp) (by rw [ht]; rfl) hgo fun u hu _ =>
      accepts_compileVariable _ hu hequal
  | @grouping left right e' ts hleft hright he _ =>
    obtain ⟨next, rest', rfl, -⟩ := hrest.exists_cons
    simp only [List.append_assoc, List.cons_append, List.nil_append] at hs
    refine accepts_opening (o := .grouping) hs (by simp) (by rw [hleft]; rfl) hgo fun u hu _ => ?_
    have hstops : Stops .assignment (right :: next :: rest') := stops_of_kind hright (by simp) rfl
    refine (accepts_expression hparse he hu hstops).bind fun _ v hv => ?_
    exact .consumed hv hright
  | noArgument | lastArgument | argument => cases hnt

/-- An expression of a precedence. -/
lemma accepts_compileExpression (bound : Nat) {p : Precedence} {e : Expr} {ts rest : List Token}
    {s : State} (h : Expr.Derives (.level p) [e] ts) (hs : Awaits s (ts ++ rest)) (hrest : Stops p rest) :
    Accepts (compileExpression bound (parse fuel) p) s fun _ t => Awaits t rest := by
  rw [compileExpression_eq]
  refine .nested hs fun s' hs' _ => ?_
  refine accepts_reading hparse h rfl rfl (Nat.le_refl _) hrest.follows bound bound hs'
    fun rounds t ht => ?_
  obtain ⟨next, rest', rfl, hequal⟩ := hrest.follows.exists_cons
  -- The next token does not belong to the expression, so there is nothing to go on with.
  cases rounds with
  | zero =>
    rw [Accepts, extending, bind_apply]
    trivial
  | succ rounds =>
    have hround : continueExpression bound (parse fuel) p t = .ok false t := by
      rw [continueExpression, bind_apply, currentKind_apply, ht.current]
      cases hk : next.kind.continuation? with
      | none => simp only [hk, pure_apply]
      | some k => simp only [hk, if_neg (Nat.not_le_of_lt (hrest.2 k hk)), pure_apply]
    rw [extending, loop, bind_assoc]
    refine .step hround (.step (pure_apply () t) ?_)
    by_cases hassign : p = .assignment
    · rw [if_pos hassign]
      exact .decline ht hequal (.of_ok (pure_apply () t) ht.clean ht)
    · rw [if_neg hassign]
      exact .of_ok (pure_apply () t) ht.clean ht

end Expressions

end Compiler

end Lox
