import Lox.Proofs.Compiler.Acceptance.Expression
import Lox.Proofs.Compiler.Reading.Statement

/-!
# Accepting statements

A statement or declaration that the grammar derives is read to its end, if each `else` in it
belongs to the nearest conditional and the token behind it is not an `else` that it could take.
Every derivable sequence has such a derivation, so a derivable source is rejected only for reasons
that are beyond the grammar (`compile_of_derives`).  Together with `compile_eq_script` this says
exactly which sources the grammar admits: `compile_iff_derivable`.
-/

namespace Lox

/-! ## What statements begin and end with -/

/-- The tokens that a declaration or statement can begin with. -/
def Token.Kind.BeginsStmt (k : Token.Kind) : Prop :=
  k.BeginsExpr ∨ k ∈ [Token.Kind.funWord, .varWord, .printWord, .ifWord, .whileWord, .forWord,
    .returnWord, .leftBrace]

/-- None of these tokens begins a declaration. -/
lemma Token.Kind.BeginsStmt.ne {k : Token.Kind} (h : k.BeginsStmt) :
    k ≠ .elseWord ∧ k ≠ .rightBrace ∧ k ≠ .eof ∧ k ≠ .classWord := by
  rcases h with ⟨o, ho, -⟩ | h
  · refine ⟨?_, ?_, ?_, ?_⟩ <;> rintro rfl <;> cases ho
  · refine ⟨?_, ?_, ?_, ?_⟩ <;> rintro rfl <;> simp at h

/-- No keyword of a statement or declaration begins an expression, and no punctuation but an
opening parenthesis does. -/
lemma Token.Kind.BeginsExpr.ne {k : Token.Kind} (h : k.BeginsExpr) :
    ∀ k' ∈ [Token.Kind.funWord, .varWord, .printWord, .ifWord, .whileWord, .forWord, .returnWord,
      .leftBrace, .semicolon, .rightParen], k ≠ k' := by
  obtain ⟨o, ho, -⟩ := h
  rintro k' hk' rfl
  cases k <;> simp [Token.Kind.opening?] at ho hk'

lemma Stmt.Derives.exists_cons {nt : Nonterminal} {tree : Stmt} {ts : List Token}
    (h : Derives false nt tree ts) (hnt : nt = .declaration ∨ nt = .statement) :
    ∃ t us, ts = t :: us ∧ t.kind.BeginsStmt := by
  induction h with
  | done | next | noInitializer => simp at hnt
  | ofStatement _ ih => exact ih (.inr rfl)
  | declareFun hword | declareVar _ hword | declareNil _ hword | print hword | branch hword
  | branchElse hword | whileLoop hword | forLoop hword | ret hword | retNil hword | block hword =>
    exact ⟨_, _, rfl, .inr (by simp [hword])⟩
  | discard _ _ he =>
    obtain ⟨t, us, rfl, ht⟩ := he.exists_cons (by simp)
    exact ⟨t, _, rfl, .inl ht⟩
  | echo hi => cases hi

/-- No statement begins with the keyword of a declaration. -/
lemma Stmt.Derives.head_ne {nt : Nonterminal} {tree : Stmt} {ts : List Token}
    (h : Derives false nt tree ts) (hnt : nt = .statement) :
    ∃ t us, ts = t :: us ∧ t.kind ≠ .classWord ∧ t.kind ≠ .funWord ∧ t.kind ≠ .varWord := by
  cases h with
  | print hword | branch hword | branchElse hword | whileLoop hword | forLoop hword | ret hword
  | retNil hword | block hword => exact ⟨_, _, rfl, by simp [hword]⟩
  | discard _ _ he =>
    obtain ⟨t, us, rfl, hbegins⟩ := he.exists_cons (by simp)
    exact ⟨t, _, rfl, (Token.Kind.BeginsStmt.ne (.inl hbegins)).2.2.2, hbegins.ne _ (by simp),
      hbegins.ne _ (by simp)⟩
  | echo hi => cases hi
  | declareVar hnt' | declareNil hnt' => simp [hnt] at hnt'
  | _ => cases hnt

lemma exists_append_cons (ts : List Token) (t : Token) (us : List Token) :
    ∃ t' us', ts ++ t :: us = t' :: us' := by
  cases ts <;> exact ⟨_, _, rfl⟩

lemma Stmt.Derives.exists_append_cons {nt : Nonterminal} {tree : Stmt} {ts : List Token}
    (h : Derives false nt tree ts) (hnt : nt = .initializer) (rest : List Token) :
    ∃ t us, ts ++ rest = t :: us := by
  cases h with
  | declareVar | declareNil | noInitializer => exact ⟨_, _, rfl⟩
  | discard _ _ he =>
    obtain ⟨t, us, rfl, -⟩ := he.exists_cons (by simp)
    exact ⟨_, _, rfl⟩
  | _ => cases hnt

lemma Parameters.exists_cons {p : Text} {ps : List Text} {ts : List Token}
    (h : Parameters (p :: ps) ts) : ∃ t us, ts = t :: us ∧ t.kind = .identifier := by
  cases h with
  | last hname => exact ⟨_, _, rfl, hname⟩
  | cons hname => exact ⟨_, _, rfl, hname⟩

/-- There is a token behind the statement, and it is not an `else` that the statement could take. -/
def Stmt.Closes (tree : Stmt) : List Token → Prop
  | [] => False
  | t :: _ => tree.EndsOpen → t.kind ≠ .elseWord

lemma Stmt.Closes.ne_nil {tree : Stmt} {rest : List Token} (h : tree.Closes rest) : rest ≠ [] := by
  rintro rfl
  exact h

lemma Stmt.Closes.exists_cons {tree : Stmt} {rest : List Token} (h : tree.Closes rest) :
    ∃ t us, rest = t :: us :=
  List.exists_cons_of_ne_nil h.ne_nil

/-- What may follow a statement may follow one that takes fewer `else`s. -/
lemma Stmt.Closes.mono {tree tree' : Stmt} {rest : List Token} (h : tree.Closes rest)
    (hopen : tree'.EndsOpen → tree.EndsOpen) : tree'.Closes rest := by
  cases rest with
  | nil => exact h
  | cons t us => exact fun hopen' => h (hopen hopen')

lemma Stmt.closes_cons {tree : Stmt} {t : Token} {us : List Token} (h : t.kind ≠ .elseWord) :
    tree.Closes (t :: us) :=
  fun _ => h

/-- Declarations before something that is not an `else` begin with something that is not one
either. -/
lemma Stmt.Derives.closes_append {tree tree' : Stmt} {ts us : List Token} {t : Token}
    (h : Derives false .declarations tree ts) (ht : t.kind ≠ .elseWord) :
    tree'.Closes (ts ++ t :: us) := by
  cases h with
  | done => exact closes_cons ht
  | declareVar hnt | declareNil hnt | discard hnt => simp at hnt
  | next hfirst _ =>
    obtain ⟨t', us', rfl, hbegins⟩ := hfirst.exists_cons (.inl rfl)
    exact closes_cons hbegins.ne.1

lemma Stmt.endsOpen_branch {e : Expr} {yes no : Stmt} (hskip : no ≠ .skip) (h : no.EndsOpen) :
    (Stmt.branch e yes no).EndsOpen := by
  cases no <;> first | exact absurd rfl hskip | exact h

namespace Compiler

-- The longest sequences of steps whose steadiness is found by instance resolution are here.
set_option synthInstance.maxSize 500

/-- The statements inside are accepted as they should be. -/
structure AcceptsStmts (fuel : Nat) : Prop where
  exprs : AcceptsExprs fuel
  statement : ∀ tree ts rest s, Stmt.Derives false .statement tree ts → tree.NearestElse →
    tree.Closes rest → Awaits s (ts ++ rest) →
    Accepts (parse fuel .statement) s fun _ t => Awaits t rest
  declaration : ∀ tree ts rest s, Stmt.Derives false .declaration tree ts → tree.NearestElse →
    tree.Closes rest → Awaits s (ts ++ rest) →
    Accepts (parse fuel .declaration) s fun _ t => Awaits t rest

section Statements

variable {fuel : Nat} (hparse : AcceptsStmts fuel)

/-! ## Declarations -/

/-- The name of a variable that is declared. -/
lemma accepts_parseVariable {β : Type} {g : Nat → CompileM β} [∀ n, Steady (g n)]
    {Q : β → State → Prop} {w : Expected} {name u : Token} {ts : List Token} {s : State}
    (hs : Awaits s (name :: u :: ts)) (hname : name.kind = .identifier)
    (h : ∀ n t, Awaits t (u :: ts) → Accepts (g n) t Q) : Accepts (parseVariable w >>= g) s Q := by
  refine Accepts.bind (P := fun _ t => Awaits t (u :: ts)) ?_ h
  refine .consume hs hname fun t ht _ => .step (get_apply t) ?_
  split
  · exact .quiet ht fun _ v hv _ => .of_ok (pure_apply 0 v) hv.clean hv
  · exact .quietly ht

/-- An expression with a semicolon behind it. -/
lemma stops_semicolon {p : Precedence} {t : Token} {ts : List Token} (ht : t.kind = .semicolon) :
    Stops p (t :: ts) :=
  stops_of_kind ht (by simp) rfl

lemma stops_rightParen {p : Precedence} {t : Token} {ts : List Token} (ht : t.kind = .rightParen) :
    Stops p (t :: ts) :=
  stops_of_kind ht (by simp) rfl

include hparse

/-- A variable declaration after its keyword. -/
lemma accepts_compileVar {name semicolon : Token} {ts rest : List Token} {s : State}
    (hname : name.kind = .identifier) (hsemicolon : semicolon.kind = .semicolon)
    (hinit : ts = [] ∨ ∃ equal e us, equal.kind = .equal ∧
      Expr.Derives (.level .assignment) [e] us ∧ ts = equal :: us)
    (hrest : rest ≠ []) (hs : Awaits s (name :: ts ++ semicolon :: rest)) :
    Accepts (compileVar (parse fuel)) s fun _ t => Awaits t rest := by
  obtain ⟨next, rest, rfl⟩ := List.exists_cons_of_ne_nil hrest
  rcases hinit with rfl | ⟨equal, e, us, hequal, he, rfl⟩
  · refine accepts_parseVariable hs hname fun n t ht => .decline ht (by simp [hsemicolon]) ?_
    exact .quiet ht fun _ u hu _ => .consume hu hsemicolon fun v hv _ => .quietly hv
  · obtain ⟨first, us, rfl, -⟩ := he.exists_cons (by simp)
    refine accepts_parseVariable hs hname fun n t ht => .accept ht hequal fun u hu _ => ?_
    refine (accepts_expression hparse.exprs he hu (stops_semicolon hsemicolon)).bind
      fun _ v hv => ?_
    exact .consume hv hsemicolon fun w hw _ => .quietly hw

omit hparse in
/-- Declarations one after another, and then something else. -/
lemma accepts_loop_declarations {step : CompileM Bool} [Steady step] {next : Token}
    {rest after : List Token} (hnext : next.kind ≠ .elseWord)
    (hstep : ∀ tree ts rest s, Stmt.Derives false .declaration tree ts → tree.NearestElse →
      tree.Closes rest → Awaits s (ts ++ rest) → Accepts step s fun b t => b = true ∧ Awaits t rest)
    (hstop : ∀ s, Awaits s (next :: rest) → Accepts step s fun b t =>
      b = false ∧ Awaits t after)
    {nt : Stmt.Nonterminal} {tree : Stmt} {ts : List Token} (h : Stmt.Derives false nt tree ts)
    (hnt : nt = .declarations) (hnearest : tree.NearestElse) (rounds : Nat) {s : State}
    (hs : Awaits s (ts ++ next :: rest)) :
    Accepts (loop rounds step) s fun _ t => Awaits t after := by
  induction h generalizing rounds s with
  | done =>
    cases rounds with
    | zero => exact .fault _
    | succ rounds =>
      refine (hstop s hs).bind fun b t ⟨hb, ht⟩ => ?_
      subst hb
      exact .of_ok (pure_apply () t) ht.clean ht
  | @next tree' rest' ts us hfirst hmore _ ih =>
    cases rounds with
    | zero => exact .fault _
    | succ rounds =>
      rw [List.append_assoc] at hs
      refine (hstep _ ts _ s hfirst hnearest.1 (hmore.closes_append hnext) hs).bind
        fun b t ⟨hb, ht⟩ => ?_
      subst hb
      exact ih rfl hnearest.2 rounds ht
  | declareVar hnt' | declareNil hnt' | discard hnt' => simp [hnt] at hnt'
  | _ => cases hnt

/-- Declarations up to the closing brace. -/
lemma accepts_compileBlock {tree : Stmt} {ts : List Token} {close next : Token} {rest : List Token}
    (h : Stmt.Derives false .declarations tree ts) (hnearest : tree.NearestElse)
    (hclose : close.kind = .rightBrace) (bound : Nat) {s : State}
    (hs : Awaits s (ts ++ close :: next :: rest)) :
    Accepts (compileBlock bound (parse fuel)) s fun _ t => Awaits t (next :: rest) := by
  refine Accepts.bind (P := fun _ t => Awaits t (close :: next :: rest)) ?_
    fun _ t ht => .consumed ht hclose
  refine accepts_loop_declarations (by simp [hclose]) ?_ ?_ h rfl hnearest bound hs
  · intro tree ts rest s htree hnearest hcloses hs
    obtain ⟨t, ts, rfl, hbegins⟩ := htree.exists_cons (.inl rfl)
    obtain ⟨-, hbrace, heof, -⟩ := hbegins.ne
    refine .step (check_apply _ s) (.step (check_apply _ s) ?_)
    rw [hs.current, decide_eq_false hbrace, decide_eq_false heof]
    refine (hparse.declaration tree _ rest s htree hnearest hcloses hs).bind fun _ u hu => ?_
    exact .of_ok (pure_apply true u) hu.clean ⟨rfl, hu⟩
  · intro s hs
    refine .step (check_apply _ s) (.step (check_apply _ s) ?_)
    rw [hs.current, hclose]
    exact .of_ok (pure_apply false s) hs.clean ⟨rfl, hs⟩

omit hparse in
/-- One parameter, and what comes after it. -/
lemma accepts_parameter {name u : Token} {ts : List Token} {bound : Nat} {s : State}
    {Q : Unit → State → Prop} (hname : name.kind = .identifier) (hs : Awaits s (name :: u :: ts))
    (h : ∀ t, Awaits t (u :: ts) → Accepts (accept .comma >>= fun b =>
      if b then compileParameters bound else pure ()) t Q) :
    Accepts (compileParameters (bound + 1)) s Q := by
  have hparameter : ∀ t, Awaits t (name :: u :: ts) →
      Accepts (parseVariable .parameterName >>= fun parameter =>
        defineVariable parameter >>= fun _ => accept .comma >>= fun b =>
          if b then compileParameters bound else pure ()) t Q :=
    fun t ht => accepts_parseVariable ht hname fun n v hv => .quiet hv fun _ w hw _ => h w hw
  have hcounted := hs.of_scopes s.nesting { s.scope with arity := s.scope.arity + 1 } s.enclosing
  refine .step (modify_apply _ s) (.step (get_apply _) ?_)
  split
  · exact .quiet hcounted fun _ t ht _ => hparameter t ht
  · exact hparameter _ hcounted

omit hparse in
/-- The parameters of a function, at least one. -/
lemma accepts_compileParameters {ps : List Text} {ts : List Token} {right : Token}
    {rest : List Token} (h : Parameters ps ts) (hps : ps ≠ []) (hright : right.kind = .rightParen)
    (bound : Nat) {s : State} (hs : Awaits s (ts ++ right :: rest)) :
    Accepts (compileParameters bound) s fun _ t => Awaits t (right :: rest) := by
  induction h generalizing bound s with
  | none => exact absurd rfl hps
  | @last name hname =>
    cases bound with
    | zero => exact .fault _
    | succ bound =>
      refine accepts_parameter hname hs fun t ht => ?_
      exact .decline ht (by simp [hright]) (.of_ok (pure_apply () t) ht.clean ht)
  | @cons name comma p ps ts hname hcomma hrest ih =>
    cases bound with
    | zero => exact .fault _
    | succ bound =>
      obtain ⟨first, ts, rfl, -⟩ := hrest.exists_cons
      refine accepts_parameter hname hs fun t ht => ?_
      exact .accept ht hcomma fun u hu _ => ih (by simp) bound hu

/-- A function from its parameter list on, in the scope of its own. -/
lemma accepts_functionBody {left right open_ close next : Token} {ps : List Text} {body : Stmt}
    {ts us rest : List Token} (hleft : left.kind = .leftParen) (hright : right.kind = .rightParen)
    (hopen : open_.kind = .leftBrace) (hclose : close.kind = .rightBrace) (hps : Parameters ps ts)
    (hbody : Stmt.Derives false .declarations body us) (hnearest : body.NearestElse) (bound : Nat)
    {s : State} (hs : Awaits s (left :: (ts ++ right :: open_ :: (us ++ close :: next :: rest)))) :
    Accepts (functionBody bound (parse fuel)) s fun _ t => Awaits t (next :: rest) := by
  -- What follows the parameters.
  have hend : ∀ t, Awaits t (right :: open_ :: (us ++ close :: next :: rest)) →
      Accepts (consume .rightParen .parenAfterParameters >>= fun _ =>
        consume .leftBrace .braceBeforeBody >>= fun _ =>
          compileBlock bound (parse fuel) >>= fun _ => finishFunction) t fun _ u =>
        Awaits u (next :: rest) := by
    intro t ht
    obtain ⟨first, more, hmore⟩ : ∃ first more, us ++ close :: next :: rest = first :: more := by
      cases us <;> exact ⟨_, _, rfl⟩
    rw [hmore] at ht
    refine .consume ht hright fun u hu _ => .consume hu hopen fun v hv _ => ?_
    rw [← hmore] at hv
    exact (accepts_compileBlock hparse hbody hnearest hclose bound hv).bind fun _ w hw => .quietly hw
  rw [functionBody]
  dsimp only
  refine .quiet hs fun _ t ht _ => ?_
  cases ps with
  | nil =>
    cases hps
    refine .consume ht hleft fun u hu _ => .step (check_apply _ u) ?_
    rw [hu.current, hright, decide_eq_true rfl]
    exact hend u hu
  | cons p ps =>
    obtain ⟨name, ts, rfl, hname⟩ := hps.exists_cons
    refine .consume ht hleft fun u hu _ => .step (check_apply _ u) ?_
    rw [hu.current, hname, decide_eq_false (by simp)]
    exact (accepts_compileParameters hps (by simp) hright bound hu).bind fun _ v hv => hend v hv

/-- A function declaration after its keyword. -/
lemma accepts_compileFun {name left right open_ close next : Token} {ps : List Text} {body : Stmt}
    {ts us rest : List Token} (hname : name.kind = .identifier) (hleft : left.kind = .leftParen)
    (hright : right.kind = .rightParen) (hopen : open_.kind = .leftBrace)
    (hclose : close.kind = .rightBrace) (hps : Parameters ps ts)
    (hbody : Stmt.Derives false .declarations body us) (hnearest : body.NearestElse) (bound : Nat)
    {s : State}
    (hs : Awaits s (name :: left :: (ts ++ right :: open_ :: (us ++ close :: next :: rest)))) :
    Accepts (compileFun bound (parse fuel)) s fun _ t => Awaits t (next :: rest) := by
  refine accepts_parseVariable hs hname fun n t ht => .quiet ht fun _ u hu _ => ?_
  refine Accepts.bind (P := fun _ t => Awaits t (next :: rest)) ?_ fun _ v hv => .quietly hv
  rw [compileFunction_eq]
  refine .bracket hu (fun v hv => ?_) fun p v hv => .quiet hv fun _ w hw _ => .quietly hw
  exact accepts_functionBody hparse hleft hright hopen hclose hps hbody hnearest bound hv

/-! ## Statements -/

/-- A condition in parentheses, and what comes after it. -/
lemma accepts_condition {β : Type} {g : Unit → CompileM β} [Steady (g ())] {Q : β → State → Prop}
    {w w' : Expected} {left right next : Token} {e : Expr} {ts rest : List Token} {s : State}
    (hleft : left.kind = .leftParen) (hright : right.kind = .rightParen)
    (he : Expr.Derives (.level .assignment) [e] ts)
    (hs : Awaits s (left :: (ts ++ right :: next :: rest)))
    (h : ∀ t, Awaits t (next :: rest) → Accepts (g ()) t Q) :
    Accepts (consume .leftParen w >>= fun _ => expression (parse fuel) >>= fun _ =>
      consume .rightParen w' >>= g) s Q := by
  obtain ⟨first, ts, rfl, -⟩ := he.exists_cons (by simp)
  refine .consume hs hleft fun t ht _ => ?_
  exact (accepts_expression hparse.exprs he ht (stops_rightParen hright)).bind fun _ u hu =>
    .consume hu hright fun v hv _ => h v hv

/-- A conditional after its keyword, without an `else`. -/
lemma accepts_compileIf {left right : Token} {e : Expr} {yes : Stmt} {ts us rest : List Token}
    {s : State} (hleft : left.kind = .leftParen) (hright : right.kind = .rightParen)
    (he : Expr.Derives (.level .assignment) [e] ts) (hyes : Stmt.Derives false .statement yes us)
    (hnearest : yes.NearestElse) (hcloses : (Stmt.branch e yes .skip).Closes rest)
    (hs : Awaits s (left :: (ts ++ right :: (us ++ rest)))) :
    Accepts (compileIf (parse fuel)) s fun _ t => Awaits t rest := by
  obtain ⟨first, us, rfl, -⟩ := hyes.exists_cons (.inr rfl)
  obtain ⟨next, rest, rfl⟩ := hcloses.exists_cons
  rw [compileIf]
  dsimp only
  refine accepts_condition hparse hleft hright he hs fun t ht => ?_
  refine .quiet ht fun _ u hu _ => .quiet hu fun _ v hv _ => ?_
  refine (hparse.statement yes _ _ v hyes hnearest (hcloses.mono fun _ => trivial) hv).bind
    fun _ w hw => ?_
  refine .quiet hw fun _ x hx _ => .quiet hx fun _ y hy _ => .quiet hy fun _ z hz _ => ?_
  refine .decline hz (hcloses trivial) ?_
  rw [if_neg Bool.false_ne_true]
  exact .quietly hz

/-- A conditional after its keyword, with an `else`. -/
lemma accepts_compileIf_else {left right else_ : Token} {e : Expr} {yes no : Stmt}
    {ts us vs rest : List Token} {s : State} (hleft : left.kind = .leftParen)
    (hright : right.kind = .rightParen) (helse : else_.kind = .elseWord)
    (he : Expr.Derives (.level .assignment) [e] ts) (hyes : Stmt.Derives false .statement yes us)
    (hno : Stmt.Derives false .statement no vs) (hnearest : yes.NearestElse)
    (hnearest' : no.NearestElse) (hopen : ¬ yes.EndsOpen) (hcloses : no.Closes rest)
    (hs : Awaits s (left :: (ts ++ right :: (us ++ else_ :: (vs ++ rest))))) :
    Accepts (compileIf (parse fuel)) s fun _ t => Awaits t rest := by
  obtain ⟨first, us, rfl, -⟩ := hyes.exists_cons (.inr rfl)
  obtain ⟨first', vs, rfl, -⟩ := hno.exists_cons (.inr rfl)
  rw [compileIf]
  dsimp only
  refine accepts_condition hparse hleft hright he hs fun t ht => ?_
  refine .quiet ht fun _ u hu _ => .quiet hu fun _ v hv _ => ?_
  have hinner : yes.Closes (else_ :: (first' :: vs ++ rest)) := fun h => absurd h hopen
  refine (hparse.statement yes _ _ v hyes hnearest hinner hv).bind fun _ w hw => ?_
  refine .quiet hw fun _ x hx _ => .quiet hx fun _ y hy _ => .quiet hy fun _ z hz _ => ?_
  refine .accept hz helse fun z' hz' _ => ?_
  exact (hparse.statement no _ rest z' hno hnearest' hcloses hz').bind fun _ _ h => .quietly h

/-- A while loop after its keyword. -/
lemma accepts_compileWhile {left right : Token} {e : Expr} {body : Stmt} {ts us rest : List Token}
    {s : State} (hleft : left.kind = .leftParen) (hright : right.kind = .rightParen)
    (he : Expr.Derives (.level .assignment) [e] ts)
    (hbody : Stmt.Derives false .statement body us) (hnearest : body.NearestElse)
    (hcloses : body.Closes rest) (hs : Awaits s (left :: (ts ++ right :: (us ++ rest)))) :
    Accepts (compileWhile (parse fuel)) s fun _ t => Awaits t rest := by
  obtain ⟨first, us, rfl, -⟩ := hbody.exists_cons (.inr rfl)
  refine .quiet hs fun _ t ht _ => accepts_condition hparse hleft hright he ht fun u hu => ?_
  refine .quiet hu fun _ v hv _ => .quiet hv fun _ w hw _ => ?_
  refine (hparse.statement body _ rest w hbody hnearest hcloses hw).bind fun _ x hx => ?_
  exact .quiet hx fun _ y hy _ => .quiet hy fun _ z hz _ => .quietly hz

/-- An expression statement. -/
lemma accepts_compileExpressionStatement {semicolon next : Token} {e : Expr} {ts rest : List Token}
    {s : State} (hsemicolon : semicolon.kind = .semicolon)
    (he : Expr.Derives (.level .assignment) [e] ts)
    (hs : Awaits s (ts ++ semicolon :: next :: rest)) :
    Accepts (compileExpressionStatement (parse fuel)) s fun _ t => Awaits t (next :: rest) := by
  refine (accepts_expression hparse.exprs he hs (stops_semicolon hsemicolon)).bind fun _ t ht => ?_
  refine .step (get_apply t) ?_
  rw [ht.interactive]
  exact .consume ht hsemicolon fun u hu _ => .quietly hu

/-- The first clause of a for loop. -/
lemma accepts_compileForInitializer {nt : Stmt.Nonterminal} {init : Stmt} {ts rest : List Token}
    {s : State} (h : Stmt.Derives false nt init ts) (hnt : nt = .initializer) (hrest : rest ≠ [])
    (hs : Awaits s (ts ++ rest)) :
    Accepts (compileForInitializer (parse fuel)) s fun _ t => Awaits t rest := by
  obtain ⟨next, rest, rfl⟩ := List.exists_cons_of_ne_nil hrest
  cases h with
  | noInitializer hsemicolon =>
    exact .accept hs hsemicolon fun t ht _ => .of_ok (pure_apply () t) ht.clean ht
  | declareVar _ hword hname hequal hsemicolon he =>
    simp only [List.append_assoc, List.cons_append, List.nil_append] at hs
    refine .decline hs (by simp [hword]) (.accept hs hword fun t ht _ => ?_)
    exact accepts_compileVar hparse hname hsemicolon (.inr ⟨_, _, _, hequal, he, rfl⟩)
      (List.cons_ne_nil _ _) ht
  | declareNil _ hword hname hsemicolon =>
    refine .decline hs (by simp [hword]) (.accept hs hword fun t ht _ => ?_)
    exact accepts_compileVar hparse hname hsemicolon (.inl rfl) (List.cons_ne_nil _ _) ht
  | discard _ hsemicolon he =>
    simp only [List.append_assoc, List.cons_append, List.nil_append] at hs
    obtain ⟨first, ts, rfl, hbegins⟩ := he.exists_cons (by simp)
    refine .decline hs (hbegins.ne _ (by simp)) (.decline hs (hbegins.ne _ (by simp)) ?_)
    exact accepts_compileExpressionStatement hparse hsemicolon he hs
  | _ => cases hnt

/-- The condition clause of a for loop. -/
lemma accepts_compileForCondition {condition : Option Expr} {semicolon next : Token}
    {ts rest : List Token} {s : State} (h : Expr.Optional condition ts)
    (hsemicolon : semicolon.kind = .semicolon) (hs : Awaits s (ts ++ semicolon :: next :: rest)) :
    Accepts (compileForCondition (parse fuel)) s fun _ t => Awaits t (next :: rest) := by
  cases h with
  | none => exact .accept hs hsemicolon fun t ht _ => .of_ok (pure_apply none t) ht.clean ht
  | some he =>
    obtain ⟨first, ts, rfl, hbegins⟩ := he.exists_cons (by simp)
    refine .decline hs (hbegins.ne _ (by simp)) ?_
    refine (accepts_expression hparse.exprs he hs (stops_semicolon hsemicolon)).bind fun _ t ht => ?_
    refine .consume ht hsemicolon fun u hu _ => .quiet hu fun _ v hv _ => .quiet hv fun _ w hw _ => ?_
    exact .of_ok (pure_apply _ w) hw.clean hw

/-- The last clause of a for loop. -/
lemma accepts_compileForIncrement {increment : Option Expr} {right next : Token}
    {ts rest : List Token} {s : State} (start : Nat) (h : Expr.Optional increment ts)
    (hright : right.kind = .rightParen) (hs : Awaits s (ts ++ right :: next :: rest)) :
    Accepts (compileForIncrement (parse fuel) start) s fun _ t => Awaits t (next :: rest) := by
  cases h with
  | none => exact .accept hs hright fun t ht _ => .of_ok (pure_apply start t) ht.clean ht
  | some he =>
    obtain ⟨first, ts, rfl, hbegins⟩ := he.exists_cons (by simp)
    refine .decline hs (hbegins.ne _ (by simp)) ?_
    refine .quiet hs fun _ t ht _ => .quiet ht fun increment u hu _ => ?_
    refine (accepts_expression hparse.exprs he hu (stops_rightParen hright)).bind fun _ v hv => ?_
    refine .quiet hv fun _ w hw _ => .consume hw hright fun x hx _ => .quiet hx fun _ y hy _ => ?_
    exact .quiet hy fun _ z hz _ => .of_ok (pure_apply increment z) hz.clean hz

/-- A for loop after its keyword. -/
lemma accepts_compileFor {left semicolon right : Token} {init body : Stmt}
    {condition increment : Option Expr} {ts us vs ws rest : List Token} {s : State}
    (hleft : left.kind = .leftParen) (hsemicolon : semicolon.kind = .semicolon)
    (hright : right.kind = .rightParen) (hinit : Stmt.Derives false .initializer init ts)
    (hcondition : Expr.Optional condition us) (hincrement : Expr.Optional increment vs)
    (hbody : Stmt.Derives false .statement body ws) (hnearest : body.NearestElse)
    (hcloses : body.Closes rest)
    (hs : Awaits s (left :: (ts ++ (us ++ semicolon :: (vs ++ right :: (ws ++ rest)))))) :
    Accepts (compileFor (parse fuel)) s fun _ t => Awaits t rest := by
  have hsteady := steady_exit
  obtain ⟨first, ws, rfl, -⟩ := hbody.exists_cons (.inr rfl)
  obtain ⟨t₁, l₁, h₁⟩ := hinit.exists_append_cons rfl
    (us ++ semicolon :: (vs ++ right :: (first :: ws ++ rest)))
  obtain ⟨t₂, l₂, h₂⟩ := exists_append_cons vs right (first :: ws ++ rest)
  rw [compileFor]
  dsimp only
  refine .quiet hs fun _ t ht _ => ?_
  rw [h₁] at ht
  refine .consume ht hleft fun u hu _ => ?_
  rw [← h₁] at hu
  refine (accepts_compileForInitializer hparse hinit rfl (by simp) hu).bind fun _ v hv => ?_
  refine .quiet hv fun _ w hw _ => ?_
  rw [h₂] at hw
  refine (accepts_compileForCondition hparse hcondition hsemicolon hw).bind fun exit? x hx => ?_
  rw [← h₂] at hx
  refine (accepts_compileForIncrement hparse _ hincrement hright hx).bind fun _ y hy => ?_
  refine (hparse.statement body _ rest y hbody hnearest hcloses hy).bind fun _ z hz => ?_
  refine .quiet hz fun _ z' hz' _ => ?_
  cases exit? with
  | none => exact .quietly hz'
  | some exit => exact Accepts.quietly (f := do patchJump exit; emitOp .pop; endScope) hz'

/-- A return statement after its keyword. -/
lemma accepts_compileReturn {semicolon next : Token} {ts rest : List Token} {s : State}
    (hsemicolon : semicolon.kind = .semicolon)
    (hvalue : ts = [] ∨ ∃ e, Expr.Derives (.level .assignment) [e] ts)
    (hs : Awaits s (ts ++ semicolon :: next :: rest)) :
    Accepts (compileReturn (parse fuel)) s fun _ t => Awaits t (next :: rest) := by
  have hend : ∀ t, Awaits t (ts ++ semicolon :: next :: rest) →
      Accepts (accept .semicolon >>= fun b => if b then emitReturn else
        expression (parse fuel) >>= fun _ =>
          consume .semicolon .semicolonAfterReturnValue >>= fun _ => emitOp .ret) t fun _ u =>
        Awaits u (next :: rest) := by
    intro t ht
    rcases hvalue with rfl | ⟨e, he⟩
    · exact .accept ht hsemicolon fun u hu _ => Accepts.quietly (f := emitReturn) hu
    · obtain ⟨first, ts, rfl, hbegins⟩ := he.exists_cons (by simp)
      refine .decline ht (hbegins.ne _ (by simp)) ?_
      refine (accepts_expression hparse.exprs he ht (stops_semicolon hsemicolon)).bind
        fun _ u hu => ?_
      exact .consume hu hsemicolon fun v hv _ => .quietly hv
  rw [compileReturn]
  refine .step (get_apply s) ?_
  dsimp only
  split
  · exact .quiet hs fun _ t ht _ => hend t ht
  · exact hend s hs

/-- A statement. -/
lemma accepts_compileStatement (bound : Nat) {nt : Stmt.Nonterminal} {tree : Stmt}
    {ts rest : List Token} {s : State} (h : Stmt.Derives false nt tree ts) (hnt : nt = .statement)
    (hnearest : tree.NearestElse) (hcloses : tree.Closes rest) (hs : Awaits s (ts ++ rest)) :
    Accepts (compileStatement bound (parse fuel)) s fun _ t => Awaits t rest := by
  cases h with
  | print hword hsemicolon he =>
    obtain ⟨next, rest, rfl⟩ := hcloses.exists_cons
    obtain ⟨first, ts, rfl, -⟩ := he.exists_cons (by simp)
    simp only [List.append_assoc, List.cons_append, List.nil_append] at hs
    refine .accept hs hword fun t ht _ => ?_
    refine (accepts_expression hparse.exprs he ht (stops_semicolon hsemicolon)).bind fun _ u hu => ?_
    exact .consume hu hsemicolon fun v hv _ => .quietly hv
  | discard _ hsemicolon he =>
    obtain ⟨next, rest, rfl⟩ := hcloses.exists_cons
    obtain ⟨first, ts, rfl, hbegins⟩ := he.exists_cons (by simp)
    simp only [List.append_assoc, List.cons_append, List.nil_append] at hs
    have hne := hbegins.ne
    refine .decline hs (hne _ (by simp)) (.decline hs (hne _ (by simp)) ?_)
    refine .decline hs (hne _ (by simp)) (.decline hs (hne _ (by simp)) ?_)
    refine .decline hs (hne _ (by simp)) (.decline hs (hne _ (by simp)) ?_)
    exact accepts_compileExpressionStatement hparse hsemicolon he hs
  | branch hword hleft hright he hyes =>
    simp only [List.append_assoc, List.cons_append] at hs
    refine .decline hs (by simp [hword]) (.accept hs hword fun t ht _ => ?_)
    exact accepts_compileIf hparse hleft hright he hyes hnearest.1 hcloses ht
  | branchElse hword hleft hright helse he hyes hno =>
    simp only [List.append_assoc, List.cons_append] at hs
    refine .decline hs (by simp [hword]) (.accept hs hword fun t ht _ => ?_)
    have hskip := hno.ne_skip
    refine accepts_compileIf_else hparse hleft hright helse he hyes hno hnearest.1 hnearest.2.1
      (hnearest.2.2.resolve_left hskip) (hcloses.mono fun hopen => ?_) ht
    exact Stmt.endsOpen_branch hskip hopen
  | whileLoop hword hleft hright he hbody =>
    simp only [List.append_assoc, List.cons_append] at hs
    refine .decline hs (by simp [hword]) (.decline hs (by simp [hword]) ?_)
    refine .decline hs (by simp [hword]) (.accept hs hword fun t ht _ => ?_)
    exact accepts_compileWhile hparse hleft hright he hbody hnearest hcloses ht
  | forLoop hword hleft hsemicolon hright hinit hcondition hincrement hbody =>
    simp only [List.append_assoc, List.cons_append] at hs
    refine .decline hs (by simp [hword]) (.decline hs (by simp [hword]) ?_)
    refine .decline hs (by simp [hword]) (.decline hs (by simp [hword]) ?_)
    refine .accept hs hword fun t ht _ => ?_
    exact accepts_compileFor hparse hleft hsemicolon hright hinit hcondition hincrement hbody
      hnearest.2 hcloses ht
  | ret hword hsemicolon he =>
    obtain ⟨next, rest, rfl⟩ := hcloses.exists_cons
    obtain ⟨first, ts, rfl, -⟩ := he.exists_cons (by simp)
    simp only [List.append_assoc, List.cons_append, List.nil_append] at hs
    refine .decline hs (by simp [hword]) (.decline hs (by simp [hword]) ?_)
    refine .accept hs hword fun t ht _ => ?_
    exact accepts_compileReturn hparse hsemicolon (.inr ⟨_, he⟩) ht
  | retNil hword hsemicolon =>
    obtain ⟨next, rest, rfl⟩ := hcloses.exists_cons
    refine .decline hs (by simp [hword]) (.decline hs (by simp [hword]) ?_)
    refine .accept hs hword fun t ht _ => ?_
    exact accepts_compileReturn hparse hsemicolon (.inl rfl) ht
  | @block open_ close body ts hopen hclose hbody =>
    obtain ⟨next, rest, rfl⟩ := hcloses.exists_cons
    simp only [List.append_assoc, List.cons_append, List.nil_append] at hs
    obtain ⟨t', us', hts⟩ := exists_append_cons ts close (next :: rest)
    rw [hts] at hs
    refine .decline hs (by simp [hopen]) (.decline hs (by simp [hopen]) ?_)
    refine .decline hs (by simp [hopen]) (.decline hs (by simp [hopen]) ?_)
    refine .decline hs (by simp [hopen]) (.accept hs hopen fun t ht _ => ?_)
    rw [← hts] at ht
    refine .quiet ht fun _ u hu _ => ?_
    exact (accepts_compileBlock hparse hbody hnearest hclose bound hu).bind fun _ v hv => .quietly hv
  | echo hi => cases hi
  | declareVar hnt' | declareNil hnt' => simp [hnt] at hnt'
  | _ => cases hnt

/-- A declaration or statement. -/
lemma accepts_compileDeclaration (bound : Nat) {nt : Stmt.Nonterminal} {tree : Stmt}
    {ts rest : List Token} {s : State} (h : Stmt.Derives false nt tree ts)
    (hnt : nt = .declaration) (hnearest : tree.NearestElse) (hcloses : tree.Closes rest)
    (hs : Awaits s (ts ++ rest)) :
    Accepts (compileDeclaration bound (parse fuel)) s fun _ t => Awaits t rest := by
  refine .nested hs fun s hs _ => ?_
  -- There was no error, so there is no panic to end.
  have hend : ∀ t, Awaits t rest → Accepts (get >>= fun s : State =>
      if s.panicking then synchronize bound else pure ()) t fun _ u => Awaits u rest := by
    intro t ht
    refine .step (get_apply t) ?_
    rw [ht.calm]
    exact .of_ok (pure_apply () t) ht.clean ht
  obtain ⟨next, rest, rfl⟩ := hcloses.exists_cons
  cases h with
  | declareFun hword hname hleft hright hopen hclose hps hbody =>
    simp only [List.append_assoc, List.cons_append, List.nil_append] at hs
    refine .decline hs (by simp [hword]) (.accept hs hword fun t ht _ => ?_)
    exact (accepts_compileFun hparse hname hleft hright hopen hclose hps hbody hnearest bound ht).bind
      fun _ u hu => hend u hu
  | declareVar _ hword hname hequal hsemicolon he =>
    simp only [List.append_assoc, List.cons_append, List.nil_append] at hs
    refine .decline hs (by simp [hword]) (.decline hs (by simp [hword]) ?_)
    refine .accept hs hword fun t ht _ => ?_
    exact (accepts_compileVar hparse hname hsemicolon (.inr ⟨_, _, _, hequal, he, rfl⟩)
      (List.cons_ne_nil _ _) ht).bind fun _ u hu => hend u hu
  | declareNil _ hword hname hsemicolon =>
    refine .decline hs (by simp [hword]) (.decline hs (by simp [hword]) ?_)
    refine .accept hs hword fun t ht _ => ?_
    exact (accepts_compileVar hparse hname hsemicolon (.inl rfl) (List.cons_ne_nil _ _) ht).bind
      fun _ u hu => hend u hu
  | ofStatement h =>
    obtain ⟨t, us, rfl, hclass, hfun, hvar⟩ := h.head_ne rfl
    refine .decline hs hclass (.decline hs hfun (.decline hs hvar ?_))
    exact (hparse.statement tree _ _ s h hnearest hcloses hs).bind fun _ u hu => hend u hu
  | discard hnt' => simp [hnt] at hnt'
  | _ => cases hnt

end Statements

/-- Every phrase that the grammar derives is accepted. -/
theorem accepts_parse (fuel : Nat) : AcceptsStmts fuel := by
  induction fuel with
  | zero =>
    exact ⟨fun _ _ _ _ _ _ _ _ _ => .fault _, fun _ _ _ _ _ _ _ _ => .fault _,
      fun _ _ _ _ _ _ _ _ => .fault _⟩
  | succ fuel ih =>
    exact ⟨fun p _ e ts rest s h hs hrest => accepts_compileExpression ih.exprs fuel h hs hrest,
      fun tree ts rest s h => accepts_compileStatement ih fuel h rfl,
      fun tree ts rest s h => accepts_compileDeclaration ih fuel h rfl⟩

/-! ## Programs -/

lemma accepts_programStep (fuel : Nat) {tree : Stmt} {ts rest : List Token} {s : State}
    (h : Stmt.Derives false .declaration tree ts) (hnearest : tree.NearestElse)
    (hcloses : tree.Closes rest) (hs : Awaits s (ts ++ rest)) :
    Accepts (programStep fuel) s fun b t => b = true ∧ Awaits t rest := by
  obtain ⟨t, ts, rfl, hbegins⟩ := h.exists_cons (.inl rfl)
  refine .decline hs hbegins.ne.2.2.1 ?_
  refine ((accepts_parse fuel).declaration tree _ rest s h hnearest hcloses hs).bind fun _ u hu => ?_
  exact .of_ok (pure_apply true u) hu.clean ⟨rfl, hu⟩

/-- The end token is consumed and stays. -/
lemma accepts_programStep_eof (fuel : Nat) {last : Token} {s : State} (hlast : last.kind = .eof)
    (hs : Awaits s [last]) :
    Accepts (programStep fuel) s fun b t => b = false ∧ Awaits t [last] := by
  have haccept := accept_apply .eof s
  rw [if_pos (by rw [hs.current, hlast])] at haccept
  obtain ⟨hcurrent, hrest⟩ := List.cons.inj hs.tokens
  have hadvance : s.advance = { s with previous := s.current, rest := [] } := by
    rw [State.advance, hrest]
    rfl
  rw [hadvance] at haccept
  refine .step haccept (.of_ok (pure_apply false _) hs.clean ⟨rfl, ?_⟩)
  exact ⟨by simp [hcurrent], hs.plain, hs.clean, hs.calm, hs.interactive⟩

lemma accepts_program (fuel : Nat) {tree : Stmt} {ts : List Token} {last : Token} {s : State}
    (h : Stmt.Derives false .declarations tree ts) (hnearest : tree.NearestElse)
    (hlast : last.kind = .eof) (hs : Awaits s (s.current :: ts ++ [last])) :
    Accepts (program fuel) s fun _ t => Awaits t [last] := by
  rw [program_eq]
  obtain ⟨t, us, hts⟩ := exists_append_cons ts last []
  rw [List.cons_append, hts] at hs
  refine .advance hs fun u hu _ => ?_
  rw [← hts] at hu
  refine (accepts_loop_declarations (by simp [hlast]) ?_ ?_ h rfl hnearest fuel hu).bind
    fun _ v hv => .quietly hv
  · exact fun tree ts rest s h hnearest hcloses hs => accepts_programStep fuel h hnearest hcloses hs
  · exact fun s hs => accepts_programStep_eof fuel hlast hs

end Compiler

open Compiler

/-- A source that the grammar derives is accepted, unless it breaks a static rule or exceeds a
limit, and then this is the first error. -/
theorem compile_of_derives {source : Text} {tree : Stmt} {body : List Token} {last : Token}
    (htokens : tokenize source = body ++ [last]) (h : Stmt.Derives false .declarations tree body)
    (hnearest : tree.NearestElse) :
    (∃ p, compile false source = .script p) ∨
      ∃ e es, compile false source = .rejected (e :: es) ∧ e.cause.BeyondGrammar := by
  obtain ⟨body', last', htokens', hlast, -⟩ := tokenize_eq_append source
  obtain ⟨rfl, hlasts⟩ := List.append_inj' (htokens'.symm.trans htokens) rfl
  cases hlasts
  have hstart : Awaits ((Compiler.new false).start (tokenize source))
      (Token.blank :: body' ++ [last]) := by
    refine ⟨by rw [htokens]; rfl, ?_, rfl, rfl, rfl⟩
    simp only [List.cons_append, List.forall_mem_cons, List.forall_mem_append]
    exact ⟨by simp [Token.IsPlain, Token.blank], h.isPlain, by simp [Token.IsPlain, hlast]⟩
  have hprogram := accepts_program (fuelFor (tokenize source).length) h hnearest hlast hstart
  have hfault := compile_ne_fault false source
  rw [Accepts] at hprogram
  rw [compile, Compiler.compile, compileTokens] at hfault ⊢
  dsimp only [EStateM.run] at hfault ⊢
  split at hprogram
  · rename_i script t hrun
    rw [hrun]
    dsimp only
    rcases hprogram with ⟨hclean, -⟩ | ⟨e, es, hes, hcause⟩
    · rw [if_pos (by simpa using hclean)]
      exact .inl ⟨script, rfl⟩
    · rw [if_neg (by intro hempty; simp at hempty; simp [hempty] at hes), hes]
      exact .inr ⟨e, es, rfl, hcause⟩
  · rename_i line t hrun
    rw [hrun]
    dsimp only
    rw [Array.toList_push]
    rcases hprogram with hclean | ⟨e, es, hes, hcause⟩
    · rw [hclean]
      exact .inr ⟨_, [], rfl, trivial⟩
    · rw [hes]
      exact .inr ⟨e, _, rfl, hcause⟩
  · rename_i f t hrun
    rw [hrun] at hfault
    exact absurd rfl (hfault f)

/-- The compiler accepts exactly the grammar.  What it accepts has no lexical error and is a
program; and of a program, it reports no error before it reports one that is beyond the grammar. -/
theorem compile_iff_derivable (source : Text) :
    ∃ body last, tokenize source = body ++ [last] ∧ last.kind = .eof ∧
      (∀ p, compile false source = .script p →
        (∀ t ∈ tokenize source, t.IsPlain) ∧ Derivable body) ∧
      (Derivable body → (∃ p, compile false source = .script p) ∨
        ∃ e es, compile false source = .rejected (e :: es) ∧ e.cause.BeyondGrammar) := by
  obtain ⟨body, last, htokens, hlast, -⟩ := tokenize_eq_append source
  refine ⟨body, last, htokens, hlast, fun p hp => ?_, ?_⟩
  · obtain ⟨body', last', tree, c, g, line, htokens', -, hderives, -⟩ := compile_eq_script hp
    obtain ⟨rfl, -⟩ := List.append_inj' (htokens.symm.trans htokens') rfl
    refine ⟨?_, tree, hderives⟩
    rw [htokens, List.forall_mem_append]
    exact ⟨hderives.isPlain, by simp [Token.IsPlain, hlast]⟩
  · rintro ⟨tree, h⟩
    obtain ⟨tree', h', hnearest⟩ := h.exists_nearest
    exact compile_of_derives htokens h' hnearest

/-- The number one, negated so many times. -/
def negations (n : Nat) : Text :=
  List.replicate n '!'.toUInt8 ++ "1;"

lemma Expr.derives_negations (n : Nat) {ts : List Token}
    (h : ts.map (·.kind) = List.replicate n .bang ++ [.number]) :
    ∃ e, Expr.Derives (.level .unary) [e] ts := by
  induction n generalizing ts with
  | zero =>
    obtain ⟨t, rfl, ht⟩ := List.map_eq_singleton_iff.1 h
    have hnumber : Expr.Derives (.level .primary) [.number t.lexeme] [t] := .number ht
    exact ⟨_, hnumber.loosen (by decide)⟩
  | succ n ih =>
    obtain ⟨op, ts, rfl, hop, hts⟩ := List.map_eq_cons_iff.1 h
    obtain ⟨e, he⟩ := ih hts
    have hnegation : UnaryOperator.ofKind? op.kind = some .not := hop ▸ rfl
    exact ⟨_, .unary hnegation he⟩

lemma derivable_negations (n : Nat) {ts : List Token}
    (h : ts.map (·.kind) = List.replicate n .bang ++ [.number] ++ [.semicolon]) : Derivable ts := by
  obtain ⟨negated, after, rfl, hnegated, hafter⟩ := List.map_eq_append_iff.1 h
  obtain ⟨semicolon, rfl, hsemicolon⟩ := List.map_eq_singleton_iff.1 hafter
  obtain ⟨e, he⟩ := Expr.derives_negations n hnegated
  have hstatement : Stmt.Derives false .statement (.discard e) (negated ++ [semicolon]) :=
    .discard (.inl rfl) hsemicolon (he.loosen (by decide))
  have hprogram := Stmt.Derives.next (.ofStatement hstatement) .done
  rw [List.append_nil] at hprogram
  exact ⟨_, hprogram⟩

/-- Of two programs, the short one is accepted and the long one goes beyond a limit. -/
theorem compile_iff_derivable_negations :
    (∃ body last, tokenize (negations 3) = body ++ [last] ∧ Derivable body ∧
      ∃ p, compile false (negations 3) = .script p) ∧
      ∃ body last, tokenize (negations 300) = body ++ [last] ∧ Derivable body ∧
        ∃ e es, compile false (negations 300) = .rejected (e :: es) ∧ e.cause.BeyondGrammar ∧
          e.cause = .limit .nesting := by
  obtain ⟨few, eof, hfew, -, haccepted, -⟩ := compile_iff_derivable (negations 3)
  obtain ⟨p, hp⟩ := Compilation.exists_of_isSome (c := compile false (negations 3)) (by decide +kernel)
  obtain ⟨many, last, hmany, -, -, hrejected⟩ := compile_iff_derivable (negations 300)
  have hkinds : (tokenize (negations 300)).map (·.kind) =
      List.replicate 300 .bang ++ [.number] ++ [.semicolon] ++ [.eof] := by
    decide +kernel
  rw [hmany, List.map_append] at hkinds
  have hderivable := derivable_negations 300 (List.append_inj' hkinds rfl).1
  have hcauses : (compile false (negations 300)).errors.map (·.cause) = [.limit .nesting] := by
    decide +kernel
  refine ⟨⟨few, eof, hfew, (haccepted p hp).2, p, hp⟩, many, last, hmany, hderivable, ?_⟩
  rcases hrejected hderivable with ⟨q, hq⟩ | ⟨e, es, herrors, hbeyond⟩
  · rw [hq] at hcauses
    cases hcauses
  · rw [herrors] at hcauses
    exact ⟨e, es, herrors, hbeyond, (List.cons.inj hcauses).1⟩

end Lox
