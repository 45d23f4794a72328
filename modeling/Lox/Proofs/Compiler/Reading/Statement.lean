import Lox.Proofs.Compiler.Progress
import Lox.Proofs.Compiler.Reading.Expression

/-!
# Reading statements

The statements and declarations that are compiled without an error are derivable from the
grammar, and the code they appended is the code of the derivation's tree (`ReadsStmt`).  Where a
conditional without `else` leaves the grammar ambiguous, the compiler takes an `else` for the
nearest conditional, so the tree has that property too.

`yields_parse` ties the recursion of the grammar together, and `compile_eq_script` says what an
accepted source and its script have to do with each other.
-/

namespace Lox.Compiler

open FunctionScope

-- The longest sequences of steps whose steadiness is found by instance resolution are here.
set_option synthInstance.maxSize 500

/-! ## Statements -/

/-- A statement was read after the tokens `before` that belong to it. -/
structure ReadsStmt (nt : Stmt.Nonterminal) (before : List Token) (s : State) (tree : Stmt)
    (ts : List Token) (c : Code) (t : State) : Prop where
  derives : Stmt.Derives s.interactive nt tree (before ++ ts)
  nearest : tree.NearestElse
  emits : Stmt.Emits s.context tree c t.context
  reads : Reads s ts c t
  /-- An `else` that could belong to it does belong to it. -/
  stops : tree.EndsOpen → t.current.kind ≠ .elseWord
  height : tree.AllExprs fun e => e.height ≤ maxNesting
  nesting : s.nesting ≤ maxNesting → s.nesting + tree.nesting ≤ maxNesting

/-- A statement together with the token it began with. -/
lemma ReadsStmt.of_consumed {nt : Stmt.Nonterminal} {s u t : State} {tree : Stmt}
    {ts : List Token} {c : Code} (hconsumed : Consumed s u) (hsu : Advances s u)
    (h : ReadsStmt nt [s.current] u tree ts c t) : ReadsStmt nt [] s tree (s.current :: ts) c t where
  derives := hsu.interactive ▸ h.derives
  nearest := h.nearest
  emits := hconsumed.context ▸ h.emits
  reads := hconsumed.reads.trans h.reads
  stops := h.stops
  height := h.height
  nesting := hsu.nesting ▸ h.nesting

lemma ReadsExpr.height_le {p : Precedence} {s t : State} {e : Expr} {ts : List Token} {c : Code}
    (h : ReadsExpr p s e ts c t) : e.height ≤ maxNesting := by
  have := h.height
  omega

/-- The statements inside are read as they should be. -/
structure YieldsStmts (fuel : Nat) : Prop where
  exprs : YieldsExprs fuel
  statement : ∀ s, Yields (parse fuel .statement) s fun _ t =>
    ∃ tree ts c, ReadsStmt .statement [] s tree ts c t
  declaration : ∀ s, Yields (parse fuel .declaration) s fun _ t =>
    ∃ tree ts c, ReadsStmt .declaration [] s tree ts c t ∧ s.nesting + 1 + tree.nesting ≤ maxNesting

section Statements

variable {fuel : Nat} (hparse : YieldsStmts fuel)

include hparse

/-- A variable declaration after its keyword. -/
lemma yields_compileVar {nt : Stmt.Nonterminal} (hnt : nt = .declaration ∨ nt = .initializer)
    (s : State) (hprevious : s.previous.kind = .varWord) :
    Yields (compileVar (parse fuel)) s fun _ t =>
      ∃ tree ts c, ReadsStmt nt [s.previous] s tree ts c t := by
  -- What is left to do once the value is on the stack.
  have hend : ∀ (global? : Option Nat) (e : Expr) (ts : List Token) (c : Code) (g : Context)
      (t : State), s.current.kind = .identifier → s.context.Names s.current.lexeme global? g →
      Expr.Emits g [e] c t.context → Reads s (s.current :: ts) c t → e.height ≤ maxNesting →
      (∀ semicolon : Token, semicolon.kind = .semicolon →
        Stmt.Derives s.interactive nt (.declareVar s.current.lexeme e)
          (s.previous :: s.current :: ts ++ [semicolon])) →
      Yields (consume .semicolon .semicolonAfterVariable >>= fun _ =>
        defineVariable (global?.getD 0)) t fun _ t =>
        ∃ tree ts c, ReadsStmt nt [s.previous] s tree ts c t := by
    intro global? e ts c g t hkind hnames hemits hreads hheight hderives
    refine (yields_consume (by simp) _ t).bind ?_
    rintro _ u - ⟨hsemicolon, hconsumed⟩
    have hdepth : 0 < u.scope.depth ↔ global? = none := by
      have hu : u.scope.depth = s.context.scope.depth := by
        change u.context.scope.depth = _
        rw [hconsumed.context, hemits.grows.scope.depth, hnames.widens.depth]
      rw [hu]
      exact hnames.depth_pos
    refine (yields_defineVariable hdepth).mono ?_
    rintro _ v ⟨line, hwrites⟩
    have hall : Reads s (s.current :: ts ++ [t.current]) (c ++ defineCode global? line) v := by
      simpa using hreads.trans (hconsumed.reads.trans hwrites.reads)
    refine ⟨_, _, _, hderives _ hsemicolon, trivial, ?_, hall, fun h => h.elim, hheight, id⟩
    rw [hwrites.context, hconsumed.context]
    exact .declareVar hnames hemits
  refine (yields_parseVariable _ s).bind ?_
  rintro n t hst ⟨hkind, global?, rfl, hnames, -, hreads⟩
  refine (yields_accept (by simp) t).bind ?_
  rintro b u htu (⟨rfl, hequal, hconsumed⟩ | ⟨rfl, -, rfl⟩)
  · refine (yields_expression hparse.exprs u).bind ?_
    rintro _ v - ⟨e, ts, c, he⟩
    have hemits := he.emits
    rw [hconsumed.context] at hemits
    have hall := hreads.trans (hconsumed.reads.trans he.reads)
    simp only [List.nil_append, List.singleton_append] at hall
    exact hend global? e _ c _ v hkind hnames hemits hall he.height_le
      fun semicolon hsemicolon => .declareVar hnt hprevious hkind hequal hsemicolon he.derives
  · refine .step (emitOp_apply _ u rfl) fun _ => ?_
    exact hend global? (.literal .nil) [] _ _ _ hkind hnames .literal
      (hreads.trans (.write u _ u.previous.line)) (by decide)
      fun semicolon hsemicolon => .declareNil hnt hprevious hkind hsemicolon

omit hparse in
/-- Declarations one after another.  `Stop` is what ends them. -/
lemma yields_loop_declarations (Stop : State → State → Prop) {step : CompileM Bool} [Steady step]
    (hstep : ∀ s, Yields step s fun b t =>
      if b then ∃ tree ts c, ReadsStmt .declaration [] s tree ts c t ∧
        s.nesting + 1 + tree.nesting ≤ maxNesting
      else Stop s t)
    (rounds : Nat) (s : State) :
    Yields (loop rounds step) s fun _ t =>
      ∃ tree ts c u, ReadsStmt .declarations [] s tree ts c u ∧ Stop u t := by
  induction rounds generalizing s with
  | zero =>
    intro _ _ _ h
    cases h
  | succ rounds ih =>
    refine (hstep s).bind ?_
    intro b t hst ht
    cases b with
    | false =>
      refine .of_ok (pure_apply () t) ⟨.skip, [], [], s, ?_, ht⟩
      exact ⟨.done, trivial, .skip, .refl s, fun h => h.elim, trivial, id⟩
    | true =>
      obtain ⟨tree, ts, c, hfirst, hdepth⟩ := ht
      refine (ih t).mono ?_
      rintro _ v ⟨tree', ts', c', u, hrest, hstop⟩
      have hderives : Stmt.Derives s.interactive .declarations (.seq tree tree') (ts ++ ts') :=
        .next hfirst.derives (hst.interactive ▸ hrest.derives)
      have hnesting : s.nesting ≤ maxNesting → s.nesting + (Stmt.seq tree tree').nesting ≤ maxNesting := by
        intro hle
        have hdepth' := hrest.nesting (hst.nesting.symm ▸ hle)
        rw [hst.nesting] at hdepth'
        rw [Stmt.nesting]
        omega
      exact ⟨.seq tree tree', ts ++ ts', c ++ c', u, ⟨hderives, ⟨hfirst.nearest, hrest.nearest⟩,
        .seq hfirst.emits hrest.emits, hfirst.reads.trans hrest.reads, fun h => h.elim,
        ⟨hfirst.height, hrest.height⟩, hnesting⟩, hstop⟩

/-- Declarations up to the closing brace. -/
lemma yields_compileBlock (bound : Nat) (s : State) :
    Yields (compileBlock bound (parse fuel)) s fun _ t =>
      ∃ tree ts c u, ReadsStmt .declarations [] s tree ts c u ∧ u.current.kind = .rightBrace ∧
        Consumed u t := by
  refine (yields_loop_declarations (fun u t => t = u) (fun u => ?_) bound s).bind ?_
  · refine .step (check_apply _ u) fun _ => .step (check_apply _ u) fun _ => ?_
    split
    · exact .of_ok (pure_apply false u) rfl
    · refine (hparse.declaration u).bind ?_
      intro _ t _ ht
      exact .of_ok (pure_apply true t) ht
  · rintro _ t - ⟨tree, ts, c, u, hread, rfl⟩
    refine (yields_consume (by simp) _ t).mono ?_
    rintro _ v ⟨hbrace, hconsumed⟩
    exact ⟨tree, ts, c, t, hread, hbrace, hconsumed⟩

omit hparse in
/-- The parameters of a function, at least one. -/
lemma yields_compileParameters (bound : Nat) (s : State) (hdepth : 0 < s.scope.depth) :
    Yields (compileParameters bound) s fun _ t =>
      ∃ p ps ts, Parameters (p :: ps) ts ∧ s.context.Takes (p :: ps) t.context ∧
        Reads s ts [] t := by
  induction bound generalizing s with
  | zero =>
    intro _ _ _ h
    cases h
  | succ bound ih =>
    refine .step (modify_apply _ s) fun _ => .step (get_apply _) fun _ => ?_
    split
    · -- One parameter too many: the error is given, whatever follows.
      refine .bind (P := fun _ _ => False) ?_ fun _ _ _ h => h.elim
      intro hs _ _ h ht
      cases h
      exact absurd ht (hs.report_errors_ne_nil _ _)
    · rename_i harity
      refine (yields_parseVariable _ _).bind ?_
      rintro n t htu ⟨hkind, global?, rfl, hnames, -, hreads⟩
      have hlocal : global? = none := hnames.depth_pos.1 hdepth
      subst hlocal
      have hdeep : 0 < t.scope.depth := by
        change 0 < t.context.scope.depth
        rw [hnames.widens.depth]
        exact hdepth
      obtain ⟨hadmits, hdeclare⟩ := hnames.eq_declare
      refine (yields_defineVariable (iff_of_true hdeep rfl)).bind ?_
      rintro _ u - ⟨line, hwrites⟩
      have hcontext : u.context = (s.context.countParameter.declare s.current.lexeme).complete := by
        rw [hwrites.context, hdeclare]
        rfl
      have hcount : Writes s [] s.context.countParameter { s with scope := { s.scope with
          arity := s.scope.arity + 1 } } := .of_scope rfl rfl
      have hone : Reads s [s.current] [] u := hcount.reads.trans (hreads.trans hwrites.reads)
      refine (yields_accept (by simp) u).bind ?_
      rintro b v - (⟨rfl, hcomma, hconsumed⟩ | ⟨rfl, -, rfl⟩)
      · have hdeeper : 0 < v.scope.depth := by
          change 0 < v.context.scope.depth
          rw [hconsumed.context, hcontext, (Context.widens_complete _).depth]
          exact hdepth
        refine (ih v hdeeper).mono ?_
        rintro _ w ⟨p, ps, ts, hps, htakes, hrest⟩
        rw [hconsumed.context, hcontext] at htakes
        exact ⟨s.current.lexeme, p :: ps, s.current :: u.current :: ts, .cons hkind hcomma hps,
          .cons (Nat.le_of_not_lt harity) hadmits htakes,
          hone.trans (hconsumed.reads.trans hrest)⟩
      · refine .of_ok (pure_apply () v) ⟨s.current.lexeme, [], [s.current], .last hkind, ?_, hone⟩
        refine .cons (Nat.le_of_not_lt harity) hadmits ?_
        rw [hcontext]
        exact .nil

omit hparse in
/-- Parameters, if there are any, up to the closing parenthesis. -/
lemma yields_parameters {α : Type} {f : CompileM α} [Steady f] {P : α → State → Prop} (bound : Nat)
    (s : State) (hdepth : 0 < s.scope.depth)
    (h : ∀ ps ts t, Advances s t → Parameters ps ts → s.context.Takes ps t.context →
      Reads s ts [] t → Yields f t P) :
    Yields (check .rightParen >>= fun b => if b then f else compileParameters bound >>= fun _ => f)
      s P := by
  refine .step (check_apply _ s) fun _ => ?_
  split
  · exact h [] [] s (.refl s) .none .nil (.refl s)
  · refine (yields_compileParameters bound s hdepth).bind ?_
    rintro _ t hst ⟨p, ps, ts, hps, htakes, hreads⟩
    exact h (p :: ps) ts t hst hps htakes hreads

/-- A function was read from its parameter list on, in the scope of its own. -/
structure ReadsFunction (s : State) (ps : List Text) (body : Stmt) (ts : List Token) (c : Code)
    (g : Context) (t : State) : Prop where
  derives : ∀ word name : Token, word.kind = .funWord → name.kind = .identifier →
    Stmt.Derives s.interactive .declaration (.declareFun name.lexeme ps body) (word :: name :: ts)
  nearest : body.NearestElse
  takes : s.context.beginScope.Takes ps g
  emits : Stmt.Emits g body c t.context
  reads : Reads s ts c t
  height : body.AllExprs fun e => e.height ≤ maxNesting
  nesting : s.nesting ≤ maxNesting → s.nesting + body.nesting ≤ maxNesting

lemma yields_functionBody (bound : Nat) (s : State) :
    Yields (functionBody bound (parse fuel)) s fun p t =>
      ∃ ps body ts c g u, ReadsFunction s ps body ts c g u ∧
        t = (u.write ⟨.loadNil, 0⟩ u.previous.line).write ⟨.ret, 0⟩ u.previous.line ∧
        p = t.scope.toPrototype := by
  rw [functionBody]
  dsimp only
  refine (yields_beginScope s).bind ?_
  rintro _ s₁ h₁ hbegin
  refine (yields_consume (by simp) _ s₁).bind ?_
  rintro _ s₂ h₂ ⟨hleft, hconsumed₂⟩
  have hcontext : s₂.context = s.context.beginScope := by
    rw [hconsumed₂.context, hbegin.context]
  have hdeep : 0 < s₂.scope.depth := by
    change 0 < s₂.context.scope.depth
    rw [hcontext]
    exact Nat.succ_pos _
  refine yields_parameters bound s₂ hdeep ?_
  intro ps ts s₃ h₃ hps htakes hreads₃
  refine (yields_consume (by simp) _ s₃).bind ?_
  rintro _ s₄ h₄ ⟨hright, hconsumed₄⟩
  refine (yields_consume (by simp) _ s₄).bind ?_
  rintro _ s₅ h₅ ⟨hopen, hconsumed₅⟩
  refine (yields_compileBlock hparse bound s₅).bind ?_
  rintro _ s₆ h₆ ⟨body, us, c, t, hbody, hclose, hconsumed₆⟩
  have hreads : Reads s (s₁.current :: ts ++ s₃.current :: s₄.current :: us ++ [t.current]) c s₆ := by
    have hhead := hbegin.reads.trans (hconsumed₂.reads.trans (hreads₃.trans (hconsumed₄.reads.trans
      (hconsumed₅.reads.trans (hbody.reads.trans hconsumed₆.reads)))))
    simpa using hhead
  have hinteractive : s₅.interactive = s.interactive := by
    rw [h₅.interactive, h₄.interactive, h₃.interactive, h₂.interactive, h₁.interactive]
  have hfunction : ReadsFunction s ps body (s₁.current :: ts ++ s₃.current :: s₄.current :: us ++
      [t.current]) c s₅.context s₆ := by
    have hnesting : s₅.nesting = s.nesting := by
      rw [h₅.nesting, h₄.nesting, h₃.nesting, h₂.nesting, h₁.nesting]
    refine ⟨fun word name hword hname => ?_, hbody.nearest, ?_, ?_, hreads, hbody.height,
      hnesting ▸ hbody.nesting⟩
    · exact .declareFun hword hname hleft hright hopen hclose hps (hinteractive ▸ hbody.derives)
    · rw [hconsumed₅.context, hconsumed₄.context, ← hcontext]
      exact htakes
    · rw [hconsumed₆.context]
      exact hbody.emits
  exact .step (emitReturn_apply s₆) fun _ => .of_ok rfl ⟨ps, body, _, c, _, s₆, hfunction, rfl, rfl⟩

/-- A function from its parameter list on, and the closure instruction. -/
lemma yields_compileFunction (bound : Nat) (s : State) :
    Yields (compileFunction bound (parse fuel)) s fun _ t =>
      ∃ ps body ts c g g' outer rest line line',
        (∀ word name : Token, word.kind = .funWord → name.kind = .identifier →
          Stmt.Derives s.interactive .declaration (.declareFun name.lexeme ps body)
            (word :: name :: ts)) ∧
        body.NearestElse ∧ body.AllExprs (fun e => e.height ≤ maxNesting) ∧
        (s.nesting ≤ maxNesting → s.nesting + body.nesting ≤ maxNesting) ∧
        (s.context.enter s.previous.lexeme).Takes ps g ∧ Stmt.Emits g body c g' ∧
        g'.enclosing = outer :: rest ∧ outer.chunk.functions.size ≤ Chunk.maxShort ∧
        Reads s ts [(⟨.closure, outer.chunk.functions.size⟩, line)] t ∧
        t.context = (Context.addFunction ⟨outer, rest⟩ (g'.scope.prototypeOf c line')).2 := by
  rw [compileFunction_eq]
  refine .bracket (yields_functionBody hparse bound _) ?_
  rintro p t scope enclosing henclosing ⟨ps, body, ts, c, g, u, hfunction, rfl, rfl⟩
  refine .step (modifyGetChunk_apply _ _) fun _ => (yields_operandOfIndex _ _).bind ?_
  rintro n v - ⟨rfl, rfl, hle⟩
  refine .of_ok (emitOpShort_apply _ _ _ rfl) ?_
  have houter : u.context.enclosing = scope.bare :: enclosing.map bare := by
    change u.enclosing.map bare = _
    rw [show u.enclosing = scope :: enclosing from henclosing, List.map_cons]
  have hsame : (scope.chunk.code, scope.chunk.lines) = (s.scope.chunk.code, s.scope.chunk.lines) ∧
      enclosing.map (fun f => (f.chunk.code, f.chunk.lines)) = s.outerCode := by
    have hcode := hfunction.reads.outer
    rw [State.outerCode, show u.enclosing = scope :: enclosing from henclosing] at hcode
    simpa only [State.outerCode, List.map_cons, List.cons.injEq] using hcode
  simp only [Prod.mk.injEq] at hsame
  obtain ⟨⟨hcode, hlines⟩, houterCode⟩ := hsame
  refine ⟨ps, body, ts, c, g, u.context, scope.bare, enclosing.map bare, u.previous.line,
    u.previous.line, hfunction.derives, hfunction.nearest, hfunction.height, hfunction.nesting,
    hfunction.takes, hfunction.emits, houter, hle, ⟨hfunction.reads.tokens, ?_, ?_, houterCode⟩, ?_⟩
  · simp [State.write, State.mapChunk, Chunk.append, Chunk.addFunction, hcode]
    rfl
  · simp [State.write, State.mapChunk, Chunk.append, Chunk.addFunction, hlines]
    rfl
  · rw [← toPrototype_write_return u.previous.line hfunction.reads.code hfunction.reads.lines]
    rfl

/-- A function declaration after its keyword. -/
lemma yields_compileFun (bound : Nat) (s : State) (hprevious : s.previous.kind = .funWord) :
    Yields (compileFun bound (parse fuel)) s fun _ t =>
      ∃ tree ts c, ReadsStmt .declaration [s.previous] s tree ts c t := by
  refine (yields_parseVariable _ s).bind ?_
  rintro n t hst ⟨hkind, global?, rfl, hnames, hname, hreads⟩
  refine (yields_markInitialized t).bind ?_
  rintro _ u htu hcomplete
  have hprev : u.previous = s.current := by rw [hcomplete.stays, hname]
  refine (yields_compileFunction hparse bound u).bind ?_
  rintro _ v - ⟨ps, body, ts, c, g, g', outer, rest, line, line', hderives, hnearest, hheight, hnesting,
    htakes, hemits, houter, hle, hclosure, hcontext⟩
  rw [hprev, hcomplete.context] at htakes
  -- The function around the new one is at the same depth as before.
  have hdepth : 0 < v.scope.depth ↔ global? = none := by
    have hgrow := hemits.widens.enclosing
    rw [htakes.enclosing, houter] at hgrow
    cases hgrow with
    | cons hscope _ =>
      have hsame : v.scope.depth = s.context.scope.depth := by
        change v.context.scope.depth = _
        rw [hcontext]
        change outer.depth = _
        rw [hscope.depth, (Context.widens_complete _).depth, hnames.widens.depth]
      rw [hsame]
      exact hnames.depth_pos
  refine (yields_defineVariable hdepth).mono ?_
  rintro _ w ⟨line'', hdefine⟩
  have hall : Reads s (s.current :: ts) ((⟨.closure, outer.chunk.functions.size⟩, line) ::
      defineCode global? line'') w := by
    simpa using hreads.trans (hcomplete.reads.trans (hclosure.trans hdefine.reads))
  have hinteractive : u.interactive = s.interactive := by rw [htu.interactive, hst.interactive]
  have hsame : u.nesting = s.nesting := by rw [htu.nesting, hst.nesting]
  refine ⟨.declareFun s.current.lexeme ps body, s.current :: ts, _,
    hinteractive ▸ hderives _ _ hprevious hkind, hnearest, ?_, hall, fun h => h.elim, hheight,
    hsame ▸ hnesting⟩
  rw [hdefine.context, hcontext]
  exact .declareFun hnames htakes hemits houter hle

omit hparse in
/-- The statement inside a nested phrase. -/
lemma ReadsStmt.of_nested {nt : Stmt.Nonterminal} {s t : State} {tree : Stmt} {ts : List Token}
    {c : Code} {m : Nat} (h : ReadsStmt nt [] { s with nesting := s.nesting + 1 } tree ts c t)
    (hdepth : s.nesting < maxNesting) :
    ReadsStmt nt [] s tree ts c { t with nesting := m } ∧ s.nesting + 1 + tree.nesting ≤ maxNesting := by
  have hnesting : s.nesting + 1 + tree.nesting ≤ maxNesting := h.nesting hdepth
  exact ⟨⟨h.derives, h.nearest, h.emits, h.reads.of_nested, h.stops, h.height, fun _ => by omega⟩,
    hnesting⟩

/-- A declaration or statement. -/
lemma yields_compileDeclaration (bound : Nat) (s : State) :
    Yields (compileDeclaration bound (parse fuel)) s fun _ t =>
      ∃ tree ts c, ReadsStmt .declaration [] s tree ts c t ∧
        s.nesting + 1 + tree.nesting ≤ maxNesting := by
  refine .nested fun hdepth => ?_
  have hend : ∀ t : State, (∃ tree ts c, ReadsStmt .declaration []
      { s with nesting := s.nesting + 1 } tree ts c t) →
      Yields (get >>= fun s : State => if s.panicking then synchronize bound else pure ()) t
        fun _ t => ∃ tree ts c,
          ReadsStmt .declaration [] s tree ts c { t with nesting := t.nesting - 1 } ∧
            s.nesting + 1 + tree.nesting ≤ maxNesting := by
    rintro t ⟨tree, ts, c, h⟩
    refine .step (get_apply t) fun _ => ?_
    split
    · rename_i hpanic
      exact .of_panicking hpanic
    · exact .of_ok (pure_apply () t) ⟨tree, ts, c, h.of_nested hdepth⟩
  dsimp only
  refine (yields_accept (by simp) _).bind ?_
  rintro b t h₁ (⟨rfl, -, -⟩ | ⟨rfl, -, rfl⟩)
  · refine .bind (P := fun _ _ => False) ?_ fun _ _ _ h => h.elim
    rw [refuseClass]
    dsimp only
    exact .error_bind _
  refine (yields_accept (by simp) _).bind ?_
  rintro b t h₂ (⟨rfl, hfun, hconsumed⟩ | ⟨rfl, -, rfl⟩)
  · refine (yields_compileFun hparse bound t (hconsumed.previous ▸ hfun)).bind ?_
    rintro _ u - ⟨tree, ts, c, h⟩
    rw [hconsumed.previous] at h
    exact hend u ⟨_, _, _, h.of_consumed hconsumed h₂⟩
  refine (yields_accept (by simp) _).bind ?_
  rintro b t h₃ (⟨rfl, hvar, hconsumed⟩ | ⟨rfl, -, rfl⟩)
  · refine (yields_compileVar hparse (.inl rfl) t (hconsumed.previous ▸ hvar)).bind ?_
    rintro _ u - ⟨tree, ts, c, h⟩
    rw [hconsumed.previous] at h
    exact hend u ⟨_, _, _, h.of_consumed hconsumed h₃⟩
  refine (hparse.statement _).bind ?_
  rintro _ u - ⟨tree, ts, c, h⟩
  exact hend u ⟨tree, ts, c, .ofStatement h.derives, h.nearest, h.emits, h.reads, h.stops, h.height,
    h.nesting⟩

/-! ### Simple statements -/

omit hparse in
/-- The semicolon after an expression, and the instruction that takes its value. -/
lemma ReadsExpr.yields_semicolon {p : Precedence} {s t : State} {e : Expr} {ts : List Token}
    {c : Code} (he : ReadsExpr p s e ts c t) (w : Expected) {op : Opcode}
    (hop : op.operandWidth = 0) :
    Yields (consume .semicolon w >>= fun _ => emitOp op) t fun _ u =>
      ∃ line, t.current.kind = .semicolon ∧ Expr.Emits s.context [e] c u.context ∧
        Reads s (ts ++ [t.current]) (c ++ [(⟨op, 0⟩, line)]) u := by
  refine (yields_consume (by simp) w t).bind ?_
  rintro _ u - ⟨hsemicolon, hconsumed⟩
  refine .of_ok (emitOp_apply _ u hop) ⟨u.previous.line, hsemicolon, ?_, ?_⟩
  · rw [context_write, hconsumed.context]
    exact he.emits
  · simpa using he.reads.trans (hconsumed.reads.trans (.write u ⟨op, 0⟩ u.previous.line))

lemma yields_compilePrint (s : State) (hprevious : s.previous.kind = .printWord) :
    Yields (compilePrint (parse fuel)) s fun _ t =>
      ∃ tree ts c, ReadsStmt .statement [s.previous] s tree ts c t := by
  refine (yields_expression hparse.exprs s).bind ?_
  rintro _ t - ⟨e, ts, c, he⟩
  refine (he.yields_semicolon _ rfl).mono ?_
  rintro _ u ⟨line, hsemicolon, hemits, hreads⟩
  have hderives : Stmt.Derives s.interactive .statement (.print e)
      (s.previous :: ts ++ [t.current]) := .print hprevious hsemicolon he.derives
  exact ⟨.print e, _, _, hderives, trivial, .print hemits, hreads, fun h => h.elim, he.height_le,
    id⟩

lemma yields_compileExpressionStatement {nt : Stmt.Nonterminal}
    (hnt : nt = .statement ∨ nt = .initializer) (s : State)
    (hinitializer : nt = .initializer → 0 < s.scope.depth) :
    Yields (compileExpressionStatement (parse fuel)) s fun _ t =>
      ∃ tree ts c, ReadsStmt nt [] s tree ts c t := by
  refine (yields_expression hparse.exprs s).bind ?_
  rintro _ t hst ⟨e, ts, c, he⟩
  refine .step (get_apply t) fun _ => ?_
  split
  · rename_i hecho
    simp only [Bool.and_eq_true, decide_eq_true_eq] at hecho
    obtain ⟨⟨⟨hinteractive, -⟩, hdepth⟩, hend⟩ := hecho
    have hstatement : nt = .statement := by
      refine hnt.resolve_right fun h => ?_
      have hsame : t.scope.depth = s.scope.depth := he.emits.grows.scope.depth
      have := hinitializer h
      omega
    subst hstatement
    refine .of_ok (emitOp_apply _ t rfl) ?_
    have hall := he.reads.trans (.write t ⟨.print, 0⟩ t.previous.line)
    rw [List.append_nil] at hall
    exact ⟨.echo e, ts, _, .echo (hst.interactive ▸ hinteractive) he.derives, trivial,
      .echo he.emits, hall, fun h => h.elim, he.height_le, id⟩
  · refine (he.yields_semicolon _ rfl).mono ?_
    rintro _ u ⟨line, hsemicolon, hemits, hreads⟩
    exact ⟨.discard e, ts ++ [t.current], _, .discard hnt hsemicolon he.derives, trivial,
      .discard hemits, hreads, fun h => h.elim, he.height_le, id⟩

lemma yields_compileReturn (s : State) (hprevious : s.previous.kind = .returnWord) :
    Yields (compileReturn (parse fuel)) s fun _ t =>
      ∃ tree ts c, ReadsStmt .statement [s.previous] s tree ts c t := by
  rw [compileReturn]
  dsimp only
  refine .step (get_apply s) fun _ => ?_
  split
  · exact .error_bind _
  · rename_i hkind
    have hfunction : s.context.scope.kind = .function := by
      cases hk : s.scope.kind with
      | script => exact absurd hk hkind
      | function => exact hk
    refine (yields_accept (by simp) s).bind ?_
    rintro b t hst (⟨rfl, hsemicolon, hconsumed⟩ | ⟨rfl, -, rfl⟩)
    · refine .of_ok (emitReturn_apply t) ?_
      have hall := hconsumed.reads.trans ((Reads.write t ⟨.loadNil, 0⟩ t.previous.line).trans
        (.write _ ⟨.ret, 0⟩ t.previous.line))
      have hheight : (Expr.literal .nil).height ≤ maxNesting := by decide
      refine ⟨.ret (.literal .nil), _, _, .retNil hprevious hsemicolon, trivial, ?_, hall,
        fun h => h.elim, hheight, id⟩
      rw [context_write, context_write, hconsumed.context]
      exact .ret hfunction .literal
    · refine (yields_expression hparse.exprs t).bind ?_
      rintro _ u - ⟨e, ts, c, he⟩
      refine (he.yields_semicolon _ rfl).mono ?_
      rintro _ v ⟨line, hsemicolon, hemits, hreads⟩
      have hderives : Stmt.Derives t.interactive .statement (.ret e)
          (t.previous :: ts ++ [u.current]) := .ret hprevious hsemicolon he.derives
      exact ⟨.ret e, _, _, hderives, trivial, .ret hfunction hemits, hreads, fun h => h.elim,
        he.height_le, id⟩

/-- A block whose brace was consumed. -/
lemma yields_block (bound : Nat) (s : State) (hprevious : s.previous.kind = .leftBrace) :
    Yields (do beginScope; compileBlock bound (parse fuel); endScope) s fun _ t =>
      ∃ tree ts c, ReadsStmt .statement [s.previous] s tree ts c t := by
  refine (yields_beginScope s).bind ?_
  rintro _ t hst hbegin
  refine (yields_compileBlock hparse bound t).bind ?_
  rintro _ v - ⟨body, ts, c, u, hbody, hclose, hconsumed⟩
  refine (yields_endScope v).mono ?_
  rintro _ w ⟨line, hend⟩
  have hall : Reads s (ts ++ [u.current]) (c ++ dropCode v.context.leaving line) w := by
    simpa using hbegin.reads.trans (hbody.reads.trans (hconsumed.reads.trans hend.reads))
  have hderives : Stmt.Derives s.interactive .statement (.block body)
      (s.previous :: ts ++ [u.current]) :=
    .block hprevious hclose (hst.interactive ▸ hbody.derives)
  have hnesting : t.nesting = s.nesting := hst.nesting
  refine ⟨.block body, _, _, hderives, hbody.nearest, ?_, hall, fun h => h.elim, hbody.height,
    hnesting ▸ hbody.nesting⟩
  rw [hend.context, hconsumed.context]
  exact .block (hbegin.context ▸ hbody.emits)

/-! ### Conditionals and loops -/

omit hparse in
lemma Stmt.Derives.ne_skip {i : Bool} {tree : Stmt} {ts : List Token}
    (h : Stmt.Derives i .statement tree ts) : tree ≠ .skip := by
  cases h <;> simp

/-- The parenthesised condition of a conditional or loop. -/
lemma yields_condition {β : Type} {f : CompileM β} [Steady f] {P : β → State → Prop}
    (w w' : Expected) (s : State)
    (h : ∀ e ts c left right t, Advances s t → left.kind = .leftParen → right.kind = .rightParen →
      Expr.Derives (.level .assignment) [e] ts → Expr.Emits s.context [e] c t.context →
      Reads s (left :: ts ++ [right]) c t → e.height ≤ maxNesting → Yields f t P) :
    Yields (consume .leftParen w >>= fun _ => expression (parse fuel) >>= fun _ =>
      consume .rightParen w' >>= fun _ => f) s P := by
  refine (yields_consume (by simp) w s).bind ?_
  rintro _ t hst ⟨hleft, hconsumed⟩
  refine (yields_expression hparse.exprs t).bind ?_
  rintro _ u htu ⟨e, ts, c, he⟩
  refine (yields_consume (by simp) w' u).bind ?_
  rintro _ v huv ⟨hright, hconsumed'⟩
  refine h e ts c s.current u.current v (hst.trans (htu.trans huv)) hleft hright he.derives ?_ ?_
    he.height_le
  · rw [hconsumed'.context, ← hconsumed.context]
    exact he.emits
  · simpa using hconsumed.reads.trans (he.reads.trans hconsumed'.reads)

lemma yields_compileIf (s : State) (hprevious : s.previous.kind = .ifWord) :
    Yields (compileIf (parse fuel)) s fun _ t =>
      ∃ tree ts c, ReadsStmt .statement [s.previous] s tree ts c t := by
  rw [compileIf]
  dsimp only
  refine yields_condition hparse _ _ s ?_
  intro e ts c left right t hst hleft hright hderives hemits hreads hheight
  refine .step (emitJump_apply _ t rfl) fun _ => .step (emitOp_apply _ _ rfl) fun _ => ?_
  refine (hparse.statement _).bind ?_
  rintro _ u htu ⟨yes, us, d, hyes⟩
  refine .step (emitJump_apply _ u rfl) fun _ => ?_
  have hyesEmits := hyes.emits
  rw [context_write, context_write] at hyesEmits
  -- The jump over the first branch is patched when the jump over the second one is written.
  have hhead : Reads s (left :: ts ++ right :: us) (c ++ (⟨.jumpIfFalse, Chunk.maxShort⟩,
      t.previous.line) :: (⟨.pop, 0⟩, t.previous.line) :: d) u := by
    have := hreads.trans ((Reads.write t ⟨.jumpIfFalse, Chunk.maxShort⟩ t.previous.line).trans
      ((Reads.write _ ⟨.pop, 0⟩ t.previous.line).trans hyes.reads))
    simpa using this
  have hfirst : Reads s (left :: ts ++ right :: us) (c ++ (⟨.jumpIfFalse, Chunk.maxShort⟩,
      t.previous.line) :: ((⟨.pop, 0⟩, t.previous.line) :: d ++
        [(⟨.jump, Chunk.maxShort⟩, u.previous.line)])) (u.write ⟨.jump, Chunk.maxShort⟩
        u.previous.line) := by
    simpa using hhead.trans (.write u ⟨.jump, Chunk.maxShort⟩ u.previous.line)
  rw [hreads.size_eq]
  refine (yields_patchJump rfl hfirst).bind ?_
  rintro _ v huv ⟨hsize, hstays, hcontext, hpatched⟩
  have hdistance : Code.size ((⟨.pop, 0⟩, t.previous.line) :: d ++
      [(⟨.jump, Chunk.maxShort⟩, u.previous.line)]) = d.size + 4 := by
    simp [Instruction.size, Opcode.size, Opcode.operandWidth]
    omega
  rw [hdistance] at hsize hpatched
  refine .step (emitOp_apply _ v rfl) fun _ => ?_
  have hcurrent : (v.write ⟨.pop, 0⟩ v.previous.line).current = u.current := by
    change v.current = _
    rw [hstays]
    rfl
  have hoffset : u.scope.chunk.code.size + 1 = s.scope.chunk.code.size + Code.size (c ++
      (⟨.jumpIfFalse, d.size + 4⟩, t.previous.line) :: (⟨.pop, 0⟩, t.previous.line) :: d) + 1 := by
    rw [hhead.size_eq]
    simp [Instruction.size]
  rw [hoffset]
  have hbranch : Reads s (left :: ts ++ right :: us) ((c ++ (⟨.jumpIfFalse, d.size + 4⟩,
      t.previous.line) :: (⟨.pop, 0⟩, t.previous.line) :: d) ++
        [(⟨.jump, Chunk.maxShort⟩, u.previous.line), (⟨.pop, 0⟩, v.previous.line)])
      (v.write ⟨.pop, 0⟩ v.previous.line) := by
    simpa using hpatched.trans (.write v ⟨.pop, 0⟩ v.previous.line)
  have hinteractive : t.interactive = s.interactive := hst.interactive
  have hyesNesting : s.nesting ≤ maxNesting → s.nesting + yes.nesting ≤ maxNesting :=
    hst.nesting ▸ (hyes.nesting : t.nesting ≤ _ → t.nesting + _ ≤ _)
  have hend : ∀ (no : Stmt) (vs : List Token) (d' : Code) (x : State),
      Stmt.Derives s.interactive .statement (.branch e yes no)
        (s.previous :: left :: ts ++ right :: us ++ vs) →
      (Stmt.branch e yes no).NearestElse → Stmt.Emits u.context no d' x.context →
      Reads (v.write ⟨.pop, 0⟩ v.previous.line) vs d' x →
      ((Stmt.branch e yes no).EndsOpen → x.current.kind ≠ .elseWord) →
      no.AllExprs (fun e => e.height ≤ maxNesting) →
      (s.nesting ≤ maxNesting → s.nesting + no.nesting ≤ maxNesting) →
      Yields (patchJump (s.scope.chunk.code.size + Code.size (c ++ (⟨.jumpIfFalse, d.size + 4⟩,
        t.previous.line) :: (⟨.pop, 0⟩, t.previous.line) :: d) + 1)) x fun _ t =>
        ∃ tree ts c, ReadsStmt .statement [s.previous] s tree ts c t := by
    intro no vs d' x hbranchDerives hnearest hno hreads' hstops hnoHeight hnoNesting
    have hall : Reads s (left :: ts ++ right :: us ++ vs) ((c ++ (⟨.jumpIfFalse, d.size + 4⟩,
        t.previous.line) :: (⟨.pop, 0⟩, t.previous.line) :: d) ++
          (⟨.jump, Chunk.maxShort⟩, u.previous.line) :: (⟨.pop, 0⟩, v.previous.line) :: d') x := by
      simpa using hbranch.trans hreads'
    refine (yields_patchJump rfl hall).mono ?_
    rintro _ y ⟨hsize', hstays', hy, hdone⟩
    rw [Code.size_pop_cons] at hsize' hdone
    refine ⟨.branch e yes no, _, _, hbranchDerives, hnearest, ?_, hdone, ?_,
      ⟨hheight, hyes.height, hnoHeight⟩, fun hle => ?_⟩
    · rw [hy]
      exact .branch hemits hyesEmits hno hsize hsize'
    · rw [hstays']
      exact hstops
    · have hyesLe := hyesNesting hle
      have hnoLe := hnoNesting hle
      rw [Stmt.nesting]
      omega
  refine (yields_accept (by simp) _).bind ?_
  rintro b w hvw (⟨rfl, helse, hconsumed⟩ | ⟨rfl, hnoElse, rfl⟩)
  · refine (hparse.statement w).bind ?_
    rintro _ x hwx ⟨no, vs, d', hno⟩
    have hclosed : ¬ yes.EndsOpen := fun hopen => hyes.stops hopen (hcurrent ▸ helse)
    have hnoEmits := hno.emits
    rw [hconsumed.context, context_write, hcontext, context_write] at hnoEmits
    have hsame : w.interactive = s.interactive := by
      rw [hvw.interactive]
      change v.interactive = _
      rw [hstays]
      change u.interactive = _
      rw [htu.interactive]
      exact hinteractive
    have hnesting : w.nesting = s.nesting := by
      rw [hvw.nesting]
      change v.nesting = _
      rw [hstays]
      change u.nesting = _
      rw [htu.nesting]
      exact hst.nesting
    refine hend no _ d' x ?_ ⟨hyes.nearest, hno.nearest, .inr hclosed⟩ hnoEmits
      (hconsumed.reads.trans hno.reads) ?_ hno.height (hnesting ▸ hno.nesting)
    · have := Stmt.Derives.branchElse hprevious hleft hright helse hderives
        (hinteractive ▸ hyes.derives) (hsame ▸ hno.derives)
      simpa using this
    · intro hopen
      refine hno.stops ?_
      cases no with
      | skip => exact absurd rfl (Stmt.Derives.ne_skip hno.derives)
      | _ => exact hopen
  · refine hend .skip [] [] _ ?_ ⟨hyes.nearest, trivial, .inl rfl⟩ ?_ (.refl _) ?_ trivial id
    · have := Stmt.Derives.branch hprevious hleft hright hderives (hinteractive ▸ hyes.derives)
      simpa using this
    · rw [context_write, hcontext, context_write]
      exact .skip
    · exact fun _ => hnoElse

lemma yields_compileWhile (s : State) (hprevious : s.previous.kind = .whileWord) :
    Yields (compileWhile (parse fuel)) s fun _ t =>
      ∃ tree ts c, ReadsStmt .statement [s.previous] s tree ts c t := by
  refine .step (codeSize_apply s) fun _ => yields_condition hparse _ _ s ?_
  intro e ts c left right t hst hleft hright hderives hemits hreads hheight
  refine .step (emitJump_apply _ t rfl) fun _ => .step (emitOp_apply _ _ rfl) fun _ => ?_
  refine (hparse.statement _).bind ?_
  rintro _ u htu ⟨body, us, d, hbody⟩
  have hbodyEmits := hbody.emits
  rw [context_write, context_write] at hbodyEmits
  have hhead : Reads s (left :: ts ++ right :: us) ([] ++ (c ++ (⟨.jumpIfFalse, Chunk.maxShort⟩,
      t.previous.line) :: (⟨.pop, 0⟩, t.previous.line) :: d)) u := by
    have := hreads.trans ((Reads.write t ⟨.jumpIfFalse, Chunk.maxShort⟩ t.previous.line).trans
      ((Reads.write _ ⟨.pop, 0⟩ t.previous.line).trans hbody.reads))
    simpa using this
  refine (yields_emitLoop hhead).bind ?_
  rintro _ v huv ⟨hback, line, hloop⟩
  have hbackSize : Code.size (c ++ (⟨.jumpIfFalse, Chunk.maxShort⟩, t.previous.line) ::
      (⟨.pop, 0⟩, t.previous.line) :: d) + 3 = c.size + d.size + 7 := by
    simp [Instruction.size, Opcode.size, Opcode.operandWidth]
    omega
  rw [hbackSize] at hback hloop
  have hlooped : Reads s (left :: ts ++ right :: us) (c ++ (⟨.jumpIfFalse, Chunk.maxShort⟩,
      t.previous.line) :: ((⟨.pop, 0⟩, t.previous.line) :: d ++
        [(⟨.loop, c.size + d.size + 7⟩, line)])) v := by
    simpa using hhead.trans hloop.reads
  rw [hreads.size_eq]
  refine (yields_patchJump rfl hlooped).bind ?_
  rintro _ w - ⟨hsize, hstays, hcontext, hpatched⟩
  have hdistance : Code.size ((⟨.pop, 0⟩, t.previous.line) :: d ++
      [(⟨.loop, c.size + d.size + 7⟩, line)]) = d.size + 4 := by
    simp [Instruction.size, Opcode.size, Opcode.operandWidth]
    omega
  rw [hdistance] at hsize hpatched
  refine .of_ok (emitOp_apply _ w rfl) ?_
  have hall : Reads s (left :: ts ++ right :: us) (c ++ (⟨.jumpIfFalse, d.size + 4⟩,
      t.previous.line) :: (⟨.pop, 0⟩, t.previous.line) :: d ++
        [(⟨.loop, c.size + d.size + 7⟩, line), (⟨.pop, 0⟩, w.previous.line)])
      (w.write ⟨.pop, 0⟩ w.previous.line) := by
    simpa using hpatched.trans (.write w ⟨.pop, 0⟩ w.previous.line)
  have hbodyDerives : Stmt.Derives s.interactive .statement body us :=
    hst.interactive ▸ hbody.derives
  refine ⟨.whileLoop e body, _, _, .whileLoop hprevious hleft hright hderives hbodyDerives,
    hbody.nearest, ?_, hall, ?_, ⟨hheight, hbody.height⟩,
    hst.nesting ▸ (hbody.nesting : t.nesting ≤ _ → t.nesting + _ ≤ _)⟩
  · rw [context_write, hcontext, hloop.context]
    exact .whileLoop hemits hbodyEmits hsize hback
  · intro hopen
    have := hbody.stops hopen
    change w.current.kind ≠ _
    rw [hstays, hloop.stays]
    exact this

/-- The first clause of a for loop. -/
lemma yields_compileForInitializer (s : State) (hdepth : 0 < s.scope.depth) :
    Yields (compileForInitializer (parse fuel)) s fun _ t =>
      ∃ tree ts c, ReadsStmt .initializer [] s tree ts c t := by
  refine (yields_accept (by simp) s).bind ?_
  rintro b t h₁ (⟨rfl, hsemicolon, hconsumed⟩ | ⟨rfl, -, rfl⟩)
  · refine .of_ok (pure_apply () t) ⟨.skip, [s.current], [], .noInitializer hsemicolon, trivial, ?_,
      hconsumed.reads, fun h => h.elim, trivial, id⟩
    rw [hconsumed.context]
    exact .skip
  refine (yields_accept (by simp) t).bind ?_
  rintro b u h₂ (⟨rfl, hvar, hconsumed⟩ | ⟨rfl, -, rfl⟩)
  · refine (yields_compileVar hparse (.inr rfl) u (hconsumed.previous ▸ hvar)).mono ?_
    rintro _ v ⟨tree, ts, c, h⟩
    rw [hconsumed.previous] at h
    exact ⟨_, _, _, h.of_consumed hconsumed h₂⟩
  · exact yields_compileExpressionStatement hparse (.inr rfl) u fun _ => hdepth

/-- The condition clause of a for loop, whose jump is still to be patched. -/
lemma yields_compileForCondition (s : State) :
    Yields (compileForCondition (parse fuel)) s fun exit? t =>
      (∃ semicolon, semicolon.kind = .semicolon ∧ exit? = none ∧ t.context = s.context ∧
        Reads s [semicolon] [] t) ∨
      ∃ e ts c semicolon line, semicolon.kind = .semicolon ∧
        exit? = some (s.scope.chunk.code.size + c.size + 1) ∧
        Expr.Derives (.level .assignment) [e] ts ∧ Expr.Emits s.context [e] c t.context ∧
        Reads s (ts ++ [semicolon])
          (c ++ [(⟨.jumpIfFalse, Chunk.maxShort⟩, line), (⟨.pop, 0⟩, line)]) t ∧
        e.height ≤ maxNesting := by
  refine (yields_accept (by simp) s).bind ?_
  rintro b t - (⟨rfl, hsemicolon, hconsumed⟩ | ⟨rfl, -, rfl⟩)
  · exact .of_ok (pure_apply none t)
      (.inl ⟨s.current, hsemicolon, rfl, hconsumed.context, hconsumed.reads⟩)
  · refine (yields_expression hparse.exprs t).bind ?_
    rintro _ u - ⟨e, ts, c, he⟩
    refine (yields_consume (by simp) _ u).bind ?_
    rintro _ v - ⟨hsemicolon, hconsumed⟩
    refine .step (emitJump_apply _ v rfl) fun _ => .step (emitOp_apply _ _ rfl) fun _ => ?_
    have hreads := he.reads.trans hconsumed.reads
    rw [List.append_nil] at hreads
    refine .of_ok (pure_apply _ _) (.inr ⟨e, ts, c, u.current, v.previous.line, hsemicolon, ?_,
      he.derives, ?_, ?_, he.height_le⟩)
    · rw [hreads.size_eq]
    · rw [context_write, context_write, hconsumed.context]
      exact he.emits
    · have hall := hreads.trans ((Reads.write v ⟨.jumpIfFalse, Chunk.maxShort⟩
        v.previous.line).trans (.write _ ⟨.pop, 0⟩ v.previous.line))
      rw [List.append_nil, List.append_nil] at hall
      exact hall

/-- The last clause of a for loop.  The condition before it took the code `before`, from the state
`s` on; the body will jump back to the beginning of `after`. -/
lemma yields_compileForIncrement {s t : State} {ts : List Token} {before : Code}
    (h : Reads s ts before t) :
    Yields (compileForIncrement (parse fuel) s.scope.chunk.code.size) t fun start u =>
      ∃ increment us c right pre after, right.kind = .rightParen ∧ Expr.Optional increment us ∧
        Expr.EmitsIncrement t.context increment before.size c u.context (Code.size after) ∧
        Reads t (us ++ [right]) c u ∧ before ++ c = pre ++ after ∧
        start = s.scope.chunk.code.size + Code.size pre ∧
        ∀ e ∈ increment, e.height ≤ maxNesting := by
  refine (yields_accept (by simp) t).bind ?_
  rintro b u - (⟨rfl, hright, hconsumed⟩ | ⟨rfl, -, rfl⟩)
  · refine .of_ok (pure_apply _ u) ⟨none, [], [], t.current, [], before, hright, .none, ?_,
      hconsumed.reads, by simp, rfl, by simp⟩
    rw [hconsumed.context]
    exact .none
  · refine .step (emitJump_apply _ u rfl) fun _ => .step (codeSize_apply _) fun _ => ?_
    refine (yields_expression hparse.exprs _).bind ?_
    rintro _ v - ⟨e, us, c, he⟩
    refine .step (emitOp_apply _ v rfl) fun _ => (yields_consume (by simp) _ _).bind ?_
    rintro _ w - ⟨hright, hconsumed⟩
    have hemits := he.emits
    rw [context_write] at hemits
    have hcontext : w.context = v.context := hconsumed.context
    have hhere : Reads u (us ++ [v.current]) ([] ++ (⟨.jump, Chunk.maxShort⟩, u.previous.line) ::
        (c ++ [(⟨.pop, 0⟩, v.previous.line)])) w := by
      have hall := (Reads.write u ⟨.jump, Chunk.maxShort⟩ u.previous.line).trans
        (he.reads.trans ((Reads.write v ⟨.pop, 0⟩ v.previous.line).trans hconsumed.reads))
      simp only [List.nil_append, List.append_nil, List.singleton_append] at hall ⊢
      exact hall
    have hthere : Reads s (ts ++ (us ++ [v.current])) ([] ++ (before ++ (⟨.jump, Chunk.maxShort⟩,
        u.previous.line) :: (c ++ [(⟨.pop, 0⟩, v.previous.line)]))) w := by
      simpa using h.trans hhere
    refine (yields_emitLoop hthere).bind ?_
    rintro _ x - ⟨hback, line, hloop⟩
    have hbackSize : Code.size (before ++ (⟨.jump, Chunk.maxShort⟩, u.previous.line) ::
        (c ++ [(⟨.pop, 0⟩, v.previous.line)])) + 3 = before.size + c.size + 7 := by
      simp [Instruction.size, Opcode.size, Opcode.operandWidth]
      omega
    rw [hbackSize] at hback hloop
    have hlooped : Reads u (us ++ [v.current]) ([] ++ (⟨.jump, Chunk.maxShort⟩, u.previous.line) ::
        (c ++ [(⟨.pop, 0⟩, v.previous.line), (⟨.loop, before.size + c.size + 7⟩, line)])) x := by
      simpa using hhere.trans hloop.reads
    refine (yields_patchJump rfl hlooped).bind ?_
    rintro _ y - ⟨hsize, hstays, hy, hpatched⟩
    have hdistance : Code.size (c ++ [(⟨.pop, 0⟩, v.previous.line),
        (⟨.loop, before.size + c.size + 7⟩, line)]) = c.size + 4 := by
      simp [Instruction.size, Opcode.size, Opcode.operandWidth]
    rw [hdistance] at hsize hpatched
    refine .of_ok (pure_apply _ y) ⟨some e, us, _, v.current,
      before ++ [(⟨.jump, c.size + 4⟩, u.previous.line)],
      c ++ [(⟨.pop, 0⟩, v.previous.line), (⟨.loop, before.size + c.size + 7⟩, line)], hright,
      .some he.derives, ?_, hpatched, by simp, ?_, ?_⟩
    · rw [hdistance, hy, hloop.context, hcontext]
      exact .some hemits hsize hback
    · have hsame := (h.trans (.write u ⟨.jump, Chunk.maxShort⟩ u.previous.line)).size_eq
      rw [hsame]
      simp [Instruction.size]
    · rintro _ ⟨⟩
      exact he.height_le

omit hparse in
/-- The end of a for loop: the jump out of it is patched, and its block is closed.  `s` is the
state before the condition and `g` the context before the body. -/
lemma yields_forEnd {s t : State} {ts : List Token} {c : Code} {e : Expr} {body : Code} {line : UInt32}
    (h : Reads s ts (c ++ (⟨.jumpIfFalse, Chunk.maxShort⟩, line) :: body) t) :
    Yields (patchJump (s.scope.chunk.code.size + c.size + 1) >>= fun _ => emitOp .pop >>= fun _ =>
      endScope) t fun _ u =>
      ∃ line' line'', body.size ≤ Chunk.maxShort ∧ u.context = t.context.endScope ∧
        u.current = t.current ∧
        Reads s ts (c ++ (⟨.jumpIfFalse, body.size⟩, line) :: body ++ exitCode (some e) line' ++
          dropCode t.context.leaving line'') u := by
  refine (yields_patchJump rfl h).bind ?_
  rintro _ v - ⟨hsize, hstays, hcontext, hpatched⟩
  refine .step (emitOp_apply _ v rfl) fun _ => (yields_endScope _).mono ?_
  rintro _ w ⟨line'', hend⟩
  have hleaving : (v.write ⟨.pop, 0⟩ v.previous.line).context = t.context := hcontext
  rw [hleaving] at hend
  refine ⟨v.previous.line, line'', hsize, hend.context, ?_, ?_⟩
  · rw [hend.stays]
    change v.current = _
    rw [hstays]
  · have hall := hpatched.trans ((Reads.write v ⟨.pop, 0⟩ v.previous.line).trans hend.reads)
    simpa [exitCode] using hall

/-- The increment and the body of a for loop, up to the jump back.  The condition took the code
`before`, from the state `s` on. -/
lemma yields_forBody {β : Type} {f : CompileM β} [Steady f] {P : β → State → Prop} {s t : State}
    {ts : List Token} {before : Code} (h : Reads s ts before t)
    (hrest : ∀ increment us right body ws c c' g back line u, Advances t u →
      right.kind = .rightParen → Expr.Optional increment us →
      Expr.EmitsIncrement t.context increment before.size c g back →
      Stmt.Emits g body c' u.context → back + c'.size + 3 ≤ Chunk.maxShort →
      Reads t (us ++ right :: ws) (c ++ c' ++ [(⟨.loop, back + c'.size + 3⟩, line)]) u →
      Stmt.Derives t.interactive .statement body ws → body.NearestElse →
      (body.EndsOpen → u.current.kind ≠ .elseWord) → (∀ e ∈ increment, e.height ≤ maxNesting) →
      body.AllExprs (fun e => e.height ≤ maxNesting) →
      (t.nesting ≤ maxNesting → t.nesting + body.nesting ≤ maxNesting) → Yields f u P) :
    Yields (compileForIncrement (parse fuel) s.scope.chunk.code.size >>= fun start =>
      parse fuel .statement >>= fun _ => emitLoop start >>= fun _ => f) t P := by
  refine (yields_compileForIncrement hparse h).bind ?_
  rintro _ u htu ⟨increment, us, c, right, pre, after, hright, hoptional, hemits, hreads, hsplit, rfl,
    hheight⟩
  refine (hparse.statement u).bind ?_
  rintro _ v huv ⟨body, ws, c', hbody⟩
  have hall : Reads s (ts ++ (us ++ right :: ws)) (pre ++ (after ++ c')) v := by
    have := h.trans (hreads.trans hbody.reads)
    rw [← List.append_assoc before, hsplit] at this
    simpa using this
  refine (yields_emitLoop hall).bind ?_
  rintro _ w hvw ⟨hback, line, hloop⟩
  rw [Code.size_append] at hback hloop
  have hbodyDerives : Stmt.Derives t.interactive .statement body ws :=
    htu.interactive ▸ hbody.derives
  refine hrest increment us right body ws c c' u.context (Code.size after) line w
    (htu.trans (huv.trans hvw)) hright hoptional hemits ?_ hback ?_ hbodyDerives hbody.nearest ?_
    hheight hbody.height (htu.nesting ▸ hbody.nesting)
  · rw [hloop.context]
    exact hbody.emits
  · simpa using hreads.trans (hbody.reads.trans hloop.reads)
  · rw [hloop.stays]
    exact hbody.stops

lemma yields_compileFor (s : State) (hprevious : s.previous.kind = .forWord) :
    Yields (compileFor (parse fuel)) s fun _ t =>
      ∃ tree ts c, ReadsStmt .statement [s.previous] s tree ts c t := by
  rw [compileFor]
  dsimp only
  have hsteady := steady_exit
  refine (yields_beginScope s).bind ?_
  rintro _ s₁ h₁ hbegin
  refine (yields_consume (by simp) _ s₁).bind ?_
  rintro _ s₂ h₂ ⟨hleft, hconsumed⟩
  have hcontext : s₂.context = s.context.beginScope := by rw [hconsumed.context, hbegin.context]
  have hdeep : 0 < s₂.scope.depth := by
    change 0 < s₂.context.scope.depth
    rw [hcontext]
    exact Nat.succ_pos _
  refine (yields_compileForInitializer hparse s₂ hdeep).bind ?_
  rintro _ s₃ h₃ ⟨init, ts, c₁, hinit⟩
  have hinitEmits := hinit.emits
  rw [hcontext] at hinitEmits
  have hhead : Reads s (s₁.current :: ts) c₁ s₃ := by
    simpa using hbegin.reads.trans (hconsumed.reads.trans hinit.reads)
  refine .step (codeSize_apply s₃) fun _ => (yields_compileForCondition hparse s₃).bind ?_
  have hinteractive : s₃.interactive = s.interactive := by
    rw [h₃.interactive, h₂.interactive, h₁.interactive]
  have hsame : s₃.nesting = s.nesting := by rw [h₃.nesting, h₂.nesting, h₁.nesting]
  have hinitDerives : Stmt.Derives s.interactive .initializer init ts := by
    have hsame : s₂.interactive = s.interactive := by rw [h₂.interactive, h₁.interactive]
    exact hsame ▸ hinit.derives
  rintro exit? s₄ h₄ (⟨semicolon, hsemicolon, rfl, hcond, hreads₄⟩ |
    ⟨e, us, c₂, semicolon, line, hsemicolon, rfl, hderives, hemits, hreads₄, hheight⟩)
  · -- Without a condition there is no jump to patch.
    refine yields_forBody hparse hreads₄ ?_
    intro increment vs right body ws c₃ c₄ g back line u h₅ hright hoptional hinc hbody hback hreads₅
      hbodyDerives hnearest hstops hincHeight hbodyHeight hnesting
    refine (yields_endScope u).mono ?_
    rintro _ v ⟨line', hend⟩
    have hall : Reads s (s₁.current :: ts ++ [] ++ semicolon :: vs ++ right :: ws)
        (c₁ ++ [] ++ c₃ ++ c₄ ++ (⟨.loop, back + c₄.size + 3⟩, line) :: exitCode none 0 ++
          dropCode u.context.leaving line') v := by
      simpa [exitCode] using hhead.trans (hreads₄.trans (hreads₅.trans hend.reads))
    rw [h₄.interactive, hinteractive] at hbodyDerives
    have hfor := Stmt.Derives.forLoop hprevious hleft hsemicolon hright hinitDerives .none hoptional
      hbodyDerives
    refine ⟨.forLoop init none increment body, _, _, by simpa using hfor, ⟨hinit.nearest, hnearest⟩,
      ?_, hall, ?_, ⟨hinit.height, by simp, hincHeight, hbodyHeight⟩, hsame ▸ h₄.nesting ▸ hnesting⟩
    · rw [hcond] at hinc
      rw [hend.context]
      exact .forLoop hinitEmits .none hinc hbody hback
    · rw [hend.stays]
      exact hstops
  · refine yields_forBody hparse hreads₄ ?_
    intro increment vs right body ws c₃ c₄ g back line₂ u h₅ hright hoptional hinc hbody hback
      hreads₅ hbodyDerives hnearest hstops hincHeight hbodyHeight hnesting
    have hloop : Reads s₃ (us ++ semicolon :: vs ++ right :: ws) (c₂ ++ (⟨.jumpIfFalse,
        Chunk.maxShort⟩, line) :: ((⟨.pop, 0⟩, line) :: c₃ ++ c₄ ++
          [(⟨.loop, back + c₄.size + 3⟩, line₂)])) u := by
      simpa using hreads₄.trans hreads₅
    refine (yields_forEnd (e := e) hloop).mono ?_
    rintro _ v ⟨line', line'', hsize, hend, hcurrent, hpatched⟩
    have hdistance : Code.size ((⟨.pop, 0⟩, line) :: c₃ ++ c₄ ++
        [(⟨.loop, back + c₄.size + 3⟩, line₂)]) = 1 + (c₃.size + c₄.size + 3) := by
      simp [Instruction.size, Opcode.size, Opcode.operandWidth]
      omega
    rw [hdistance] at hsize hpatched
    have hall : Reads s (s₁.current :: ts ++ us ++ semicolon :: vs ++ right :: ws)
        (c₁ ++ (c₂ ++ [(⟨.jumpIfFalse, 1 + (c₃.size + c₄.size + 3)⟩, line), (⟨.pop, 0⟩, line)]) ++
          c₃ ++ c₄ ++ (⟨.loop, back + c₄.size + 3⟩, line₂) :: exitCode (some e) line' ++
          dropCode u.context.leaving line'') v := by
      simpa using hhead.trans hpatched
    rw [h₄.interactive, hinteractive] at hbodyDerives
    have hfor := Stmt.Derives.forLoop hprevious hleft hsemicolon hright hinitDerives (.some hderives)
      hoptional hbodyDerives
    have hcondSize : Code.size (c₂ ++ [(⟨.jumpIfFalse, Chunk.maxShort⟩, line), (⟨.pop, 0⟩, line)]) =
        Code.size (c₂ ++ [(⟨.jumpIfFalse, 1 + (c₃.size + c₄.size + 3)⟩, line),
          (⟨.pop, 0⟩, line)]) := by
      simp [Instruction.size]
    rw [hcondSize] at hinc
    refine ⟨.forLoop init (some e) increment body, _, _, by simpa using hfor,
      ⟨hinit.nearest, hnearest⟩, ?_, hall, ?_, ⟨hinit.height, ?_, hincHeight, hbodyHeight⟩,
      hsame ▸ h₄.nesting ▸ hnesting⟩
    · rw [hend]
      exact .forLoop hinitEmits (.some hemits hsize) hinc hbody hback
    · rw [hcurrent]
      exact hstops
    · rintro _ ⟨⟩
      exact hheight

/-- A statement. -/
lemma yields_compileStatement (bound : Nat) (s : State) :
    Yields (compileStatement bound (parse fuel)) s fun _ t =>
      ∃ tree ts c, ReadsStmt .statement [] s tree ts c t := by
  -- A statement that begins with a keyword.
  have hkeyword : ∀ (k : Token.Kind) (f g : CompileM Unit) [Steady f] [Steady g], k ≠ .eof →
      (∀ t : State, t.previous.kind = k → Yields f t fun _ u =>
        ∃ tree ts c, ReadsStmt .statement [t.previous] t tree ts c u) →
      (Yields g s fun _ t => ∃ tree ts c, ReadsStmt .statement [] s tree ts c t) →
      Yields (accept k >>= fun b => if b then f else g) s fun _ t =>
        ∃ tree ts c, ReadsStmt .statement [] s tree ts c t := by
    intro k f g _ _ hk hf hg
    refine (yields_accept hk s).bind ?_
    rintro b t hst (⟨rfl, hkind, hconsumed⟩ | ⟨rfl, -, rfl⟩)
    · refine (hf t (hconsumed.previous ▸ hkind)).mono ?_
      rintro _ u ⟨tree, ts, c, h⟩
      rw [hconsumed.previous] at h
      exact ⟨_, _, _, h.of_consumed hconsumed hst⟩
    · exact hg
  refine hkeyword _ _ _ (by simp) (yields_compilePrint hparse) ?_
  refine hkeyword _ _ _ (by simp) (yields_compileIf hparse) ?_
  refine hkeyword _ _ _ (by simp) (yields_compileReturn hparse) ?_
  refine hkeyword _ _ _ (by simp) (yields_compileWhile hparse) ?_
  refine hkeyword _ _ _ (by simp) (yields_compileFor hparse) ?_
  refine hkeyword _ _ _ (by simp) (yields_block hparse bound) ?_
  exact yields_compileExpressionStatement hparse (.inl rfl) s (by simp)

end Statements

/-! ## The grammar -/

/-- Every phrase that is compiled without an error is read as it should be. -/
theorem yields_parse (fuel : Nat) : YieldsStmts fuel := by
  induction fuel with
  | zero => exact ⟨fun _ _ _ _ _ _ h => (nomatch h), fun _ _ _ _ h => (nomatch h),
      fun _ _ _ _ h => (nomatch h)⟩
  | succ fuel ih =>
    exact ⟨fun p hp s => yields_compileExpression ih.exprs fuel hp s,
      yields_compileStatement ih fuel, yields_compileDeclaration ih fuel⟩

/-! ## Programs -/

instance (fuel : Nat) : Steady (programStep fuel) := steady_programStep fuel

lemma yields_programStep (fuel : Nat) (s : State) :
    Yields (programStep fuel) s fun b t =>
      if b then ∃ tree ts c, ReadsStmt .declaration [] s tree ts c t ∧
        s.nesting + 1 + tree.nesting ≤ maxNesting
      else s.current.kind = .eof ∧ t.scope = s.scope := by
  intro hs b t h ht
  rw [programStep, bind_apply, accept_apply] at h
  by_cases heof : s.current.kind = .eof
  · simp only [heof, if_true] at h
    cases h
    refine ⟨heof, ?_⟩
    rw [State.advance, (shifts_shift s.rest { s with previous := s.current }).frame]
  · simp only [heof, if_false] at h
    obtain ⟨_, u, hu, hpure⟩ := bind_ok h
    cases hpure
    exact (yields_parse fuel).declaration s hs _ _ hu ht

/-- The tokens before the first end token, if there is one. -/
lemma eq_of_append_eof {body ts rest : List Token} {last t : Token}
    (hbody : ∀ t ∈ body, t.kind ≠ .eof) (ht : t.kind = .eof)
    (h : body ++ [last] = ts ++ t :: rest) : ts = body ∧ rest = [] := by
  rcases List.eq_nil_or_concat rest with rfl | ⟨rest, r, rfl⟩
  · have := List.append_inj' h rfl
    exact ⟨this.1.symm, rfl⟩
  · rw [List.concat_eq_append, ← List.cons_append, ← List.append_assoc] at h
    have hsame := (List.append_inj' h rfl).1
    exact absurd ht (hbody t (by simp [hsame]))

end Lox.Compiler

namespace Lox

open Compiler

lemma Compiler.sane_start (c : Compiler) (source : Text) (h : c.around = []) :
    Sane (c.start (tokenize source)) := by
  refine ⟨?_, c.fed_start source⟩
  simp [State.Reported, Compiler.start, FunctionScope.new, h]

/-- What a whole program is read as. -/
lemma yields_program (fuel : Nat) {s : State} (hrest : s.rest ≠ [])
    (hscope : s.scope = .new .script []) (henclosing : s.enclosing = []) :
    Yields (program fuel) s fun p _ =>
      ∃ tree ts c g line last rest, s.rest = ts ++ last :: rest ∧ last.kind = .eof ∧
        (s.nesting ≤ maxNesting → s.nesting + tree.nesting ≤ maxNesting) ∧
        Stmt.Derives s.interactive .declarations tree ts ∧ tree.NearestElse ∧
        tree.AllExprs (fun e => e.height ≤ maxNesting) ∧ Stmt.Emits .script tree c g ∧
        p = g.scope.prototypeOf c line := by
  have hstart : Yields advance s fun _ t => Consumed s t := by
    intro hs _ _ h ht
    cases h
    exact consumed_advance_of_rest hs hrest ht
  refine hstart.bind ?_
  intro _ t hst hconsumed
  refine (yields_loop_declarations _ (yields_programStep fuel) fuel t).bind ?_
  rintro _ v - ⟨tree, ts, c, u, hread, heof, hscope'⟩
  refine .step (emitReturn_apply v) fun _ => .of_ok rfl ?_
  have htokens : s.rest = ts ++ u.current :: u.rest := by
    have hfirst := hconsumed.reads.tokens
    have hafter := hread.reads.tokens
    simp only [List.singleton_append, List.cons.injEq, true_and] at hfirst
    rw [hfirst, hafter]
  have hcode : v.scope.chunk.code.toList = c.bytes := by
    have hall := (hconsumed.reads.trans hread.reads).code
    simpa [hscope', hscope, FunctionScope.new, Chunk.empty] using hall
  have hlines : v.scope.chunk.lines.toList = c.lines := by
    have hall := (hconsumed.reads.trans hread.reads).lines
    simpa [hscope', hscope, FunctionScope.new, Chunk.empty] using hall
  have hinitial : t.context = .script := by
    rw [hconsumed.context, State.context, hscope, henclosing]
    rfl
  refine ⟨tree, ts, c, u.context, v.previous.line, u.current, u.rest, htokens, heof,
    hst.nesting ▸ hread.nesting, hst.interactive ▸ hread.derives, hread.nearest, hread.height, hinitial ▸ hread.emits, ?_⟩
  rw [toPrototype_write_return v.previous.line hcode hlines]
  change v.scope.bare.prototypeOf c _ = _
  rw [hscope']
  rfl

/-- An accepted source is a program whose declarations are not nested too deeply, and its script is
the code of the program's tree. -/
theorem compile_eq_script_of_nesting {interactive : Bool} {source : Text} {p : Prototype}
    (h : compile interactive source = .script p) :
    ∃ body last tree c g line, tree.nesting ≤ maxNesting ∧ tokenize source = body ++ [last] ∧
      last.kind = .eof ∧ Stmt.Derives interactive .declarations tree body ∧ tree.NearestElse ∧
      tree.AllExprs (fun e => e.height ≤ maxNesting) ∧ Stmt.Emits .script tree c g ∧
      p = g.scope.prototypeOf c line := by
  obtain ⟨body, last, htokens, hlast, hbody⟩ := tokenize_eq_append source
  obtain ⟨t, hrun, hclean⟩ := exists_program_of_compile h
  obtain ⟨tree, ts, c, g, line, eof, rest, hsplit, heof, hnesting, hread⟩ := yields_program _
    (by simp [Compiler.start, htokens]) rfl rfl (Compiler.sane_start _ source rfl) _ _ hrun hclean
  have hdepth : tree.nesting ≤ maxNesting := by
    have hle := hnesting (Nat.zero_le _)
    rwa [Compiler.start, Nat.zero_add] at hle
  have hsame : body ++ [last] = ts ++ eof :: rest := htokens ▸ hsplit
  obtain ⟨rfl, -⟩ := eq_of_append_eof hbody heof hsame
  exact ⟨ts, last, tree, c, g, line, hdepth, htokens, hlast, hread⟩

/-- An accepted source is a program, and its script is the code of the program's tree. -/
theorem compile_eq_script {interactive : Bool} {source : Text} {p : Prototype}
    (h : compile interactive source = .script p) :
    ∃ body last tree c g line, tokenize source = body ++ [last] ∧ last.kind = .eof ∧
      Stmt.Derives interactive .declarations tree body ∧ tree.NearestElse ∧
      tree.AllExprs (fun e => e.height ≤ maxNesting) ∧ Stmt.Emits .script tree c g ∧
      p = g.scope.prototypeOf c line := by
  obtain ⟨body, last, tree, c, g, line, -, hread⟩ := compile_eq_script_of_nesting h
  exact ⟨body, last, tree, c, g, line, hread⟩

/-- The variables of a source have names. -/
lemma Stmt.Derives.named_of_tokenize {interactive : Bool} {source : Text} {tree : Stmt}
    {body : List Token} {last : Token} (h : Stmt.Derives interactive .declarations tree body)
    (htokens : tokenize source = body ++ [last]) : tree.AllExprs Expr.Named := by
  refine h.named fun t ht _ => ?_
  have hmem : t ∈ tokenize source := by
    rw [htokens]
    exact List.mem_append_left _ ht
  exact lexeme_ne_nil_of_mem_tokenize hmem ‹_›

/-- The script of a compilation that succeeded. -/
def Compilation.script? : Compilation → Option Prototype
  | .script p => some p
  | _ => none

lemma Compilation.exists_of_isSome {c : Compilation} (h : c.script?.isSome) :
    ∃ p, c = .script p := by
  cases c with
  | script p => exact ⟨p, rfl⟩
  | _ => simp [script?] at h

end Lox
