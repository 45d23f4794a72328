import Mathlib.Data.List.Chain
import Lox.Proofs.Compiler.Progress

/-!
# Compilation ends

The measure of a compilation is the tokens that are left.  The lexer is past every token before it
gives the next one (`tokenize_isChain`), so there are finitely many, and what is left of them is
always the end of the list (`State.Reads`).  A declaration takes at least one of them
(`DeclarationsConsume`), and a loop of the compiler takes at least one in every turn after which it
goes on (`LoopsConsume`).  A loop is stated together with the turn that it repeats.

The main statement is `compile_terminates`: every source becomes a script or errors.
-/

namespace Lox

/-! ## The lexer moves forward -/

lemma Position.step_offset (p : Position) (b : UInt8) : (p.step b).offset = p.offset + 1 := by
  rw [Position.step]
  split <;> rfl

lemma Position.over_offset (p : Position) (t : Text) : (p.over t).offset = p.offset + t.length := by
  induction t generalizing p with
  | nil => rfl
  | cons b t ih =>
    have htail : (p.over (b :: t)).offset = (p.step b).offset + t.length := ih (p.step b)
    rw [htail, Position.step_offset, List.length_cons]
    omega

/-- The second token begins where the first has ended, or later, and the first is not empty. -/
def Token.Before (t u : Token) : Prop :=
  t.start < t.stop ∧ t.stop ≤ u.start

namespace Cursor

lemma offset_le_skipTriviaFrom (inComment : Bool) (t : Text) (p : Position) :
    p.offset ≤ (skipTriviaFrom inComment t p).position.offset := by
  fun_induction skipTriviaFrom inComment t p with
  | case1 => exact Nat.le_refl _
  | case2 b bs p ih => exact Nat.le_trans (by simp [Position.step_offset]) ih
  | case3 b bs p h ih => exact Nat.le_trans (by simp [Position.step_offset]) ih
  | case4 b bs p h h' ih => exact Nat.le_trans (by simp [Position.step_offset]) ih
  | case5 b bs p h h' => exact Nat.le_refl _

/-- A token begins where the lexer is, or later, and the lexer stops where the token ends. -/
lemma next_offsets (c : Cursor) :
    c.position.offset ≤ c.next.1.start ∧ c.next.2.position.offset = c.next.1.stop := by
  have hskip : c.position.offset ≤ c.skipTrivia.position.offset := offset_le_skipTriviaFrom _ _ _
  rw [next]
  dsimp only
  split
  · exact ⟨hskip, rfl⟩
  · exact ⟨hskip, rfl⟩

/-- The lexer is strictly past the beginning of a token that is not the end token. -/
lemma next_start_lt (c : Cursor) (h : c.next.1.kind ≠ .eof) : c.next.1.start < c.next.1.stop := by
  rw [next] at h ⊢
  dsimp only at h ⊢
  split
  · rename_i hrest
    rw [hrest] at h
    exact absurd rfl h
  · rename_i b bs hrest
    obtain ⟨more, hcovered, -⟩ := Lexer.matchToken_splits b bs
    simp only [Position.over_offset, hcovered, List.length_cons]
    omega

lemma tokensLoop_isChain (bound : Nat) (c : Cursor) (done : List Token)
    (hchain : done.reverse.IsChain Token.Before)
    (hdone : ∀ t ∈ done.head?, t.start < t.stop ∧ t.stop ≤ c.position.offset) :
    (c.tokensLoop bound done).1.IsChain Token.Before := by
  have hmore : ∀ {c : Cursor} {done : List Token}, done.reverse.IsChain Token.Before →
      (∀ t ∈ done.head?, t.start < t.stop ∧ t.stop ≤ c.position.offset) →
      (c.next.1 :: done).reverse.IsChain Token.Before := by
    intro c done hchain hdone
    rw [List.reverse_cons]
    refine List.isChain_append.2 ⟨hchain, .singleton _, fun t ht u hu => ?_⟩
    rw [List.getLast?_reverse] at ht
    obtain rfl : c.next.1 = u := by simpa using hu
    exact ⟨(hdone t ht).1, Nat.le_trans (hdone t ht).2 c.next_offsets.1⟩
  induction bound generalizing c done with
  | zero => exact hmore hchain hdone
  | succ bound ih =>
    rw [tokensLoop]
    dsimp only
    split
    · exact hmore hchain hdone
    · rename_i hkind
      refine ih _ _ (hmore hchain hdone) fun t ht => ?_
      obtain rfl : c.next.1 = t := by simpa using ht
      exact ⟨c.next_start_lt hkind, Nat.le_of_eq c.next_offsets.2.symm⟩

end Cursor

/-- Between one token of a source and the next the lexer has moved forward. -/
theorem tokenize_isChain (source : Text) : (tokenize source).IsChain Token.Before :=
  Cursor.tokensLoop_isChain _ _ [] .nil (by simp)

namespace Compiler

/-! ## Reading a source -/

/-- The current token and those after it are what is left of the source's tokens. -/
def State.Reads (s : State) (source : Text) : Prop :=
  s.current :: s.rest <:+ tokenize source

section Reading

variable {source : Text} {s t : State} {α : Type}

lemma State.Reads.of_advances (h : s.Reads source) (hst : Advances s t) : t.Reads source :=
  hst.ahead.trans h

lemma State.Reads.of_ok {f : CompileM α} {a : α} (h : s.Reads source) (hf : Steady f)
    (hrun : f s = .ok a t) : t.Reads source :=
  h.of_advances (hf.advances hrun)

/-- Where there is a next token, the current token is one of the next. -/
lemma shift_suffix {ts : List Token} (hts : ts ≠ []) (s : State) :
    (State.shift ts s).current :: (State.shift ts s).rest <:+ ts := by
  obtain ⟨u, us, rfl⟩ := List.exists_cons_of_ne_nil hts
  rw [State.shift]
  split
  · rename_i why _
    have hahead := (shifts_shift us ({ s with current := u }.report u (.lexical why))).ahead
    rwa [report_current] at hahead
  · exact List.suffix_refl _

/-- Consuming the token from before a source leaves the first token of the source. -/
lemma reads_advance_start (c : Compiler) (source : Text) :
    ((c.start (tokenize source)).advance).Reads source := by
  obtain ⟨body, last, htokens, -⟩ := tokenize_eq_append source
  exact shift_suffix (by simp [Compiler.start, htokens]) _

lemma State.Reads.fed (h : s.Reads source) : s.Fed := by
  obtain ⟨body, last, htokens, hlast, -⟩ := tokenize_eq_append source
  obtain ⟨before, hbefore⟩ := h
  rw [htokens] at hbefore
  have hend : (s.current :: s.rest).getLast (List.cons_ne_nil _ _) = last := by
    rw [← List.getLast_append_of_ne_nil (l := before) (by simp) (List.cons_ne_nil _ _)]
    simp [hbefore]
  rw [State.Fed, hend, hlast]

/-- Nothing follows the end token. -/
lemma State.Reads.rest_of_end (h : s.Reads source) (hs : s.current.kind = .eof) : s.rest = [] := by
  obtain ⟨body, last, htokens, -, hbody⟩ := tokenize_eq_append source
  obtain ⟨before, hbefore⟩ := h
  rw [htokens] at hbefore
  by_contra hrest
  have hsplit : before ++ s.current :: s.rest.dropLast = body := by
    have := congrArg List.dropLast hbefore
    rwa [List.dropLast_concat, List.dropLast_append_of_ne_nil (List.cons_ne_nil _ _),
      List.dropLast_cons_of_ne_nil hrest] at this
  exact hbody s.current (by simp [← hsplit]) hs

end Reading

/-! ## The turns of the loops -/

/-- What the search for a place to resume does again and again. -/
def synchronizeStep : CompileM Bool := do
  let s ← get
  if s.current.kind = .eof || s.previous.kind = .semicolon || s.current.kind.beginsStatement then
    return false
  advance
  return true

/-- One parameter of a function. -/
def compileParameter : CompileM Unit := do
  modify fun s => { s with scope := { s.scope with arity := s.scope.arity + 1 } }
  if maxArguments < (← get).scope.arity then
    errorAtCurrent (.limit .parameters)
  let parameter ← parseVariable .parameterName
  defineVariable parameter

/-- A parameter, and whether a comma follows. -/
def parameterStep : CompileM Bool := do
  compileParameter
  accept .comma

/-- An argument after `count` others. -/
def compileArgument (parse : Parts) (count : Nat) : CompileM Unit := do
  expression parse
  if count = maxArguments then
    error (.limit .arguments)

/-- An argument after `count` others, and whether a comma follows. -/
def argumentStep (parse : Parts) (count : Nat) : CompileM Bool := do
  compileArgument parse count
  accept .comma

/-- Passes over a token of a class body in which `depth` braces are open, and gives how many are open
then; nothing at the end of the source. -/
def braceStep (depth : Nat) : CompileM (Option Nat) := do
  match ← currentKind with
  | .eof => return none
  | .leftBrace =>
    advance
    return some (depth + 1)
  | .rightBrace =>
    advance
    return some (depth - 1)
  | _ =>
    advance
    return some depth

lemma compileParameters_eq_loop (bound : Nat) : compileParameters bound = loop bound parameterStep := by
  induction bound with
  | zero => rfl
  | succ bound ih =>
    simp only [compileParameters, loop, parameterStep, compileParameter, ih, bind_assoc]
    congr! 4 with _ s
    split <;> simp only [bind_assoc]

lemma compileArguments_succ (parse : Parts) (bound count : Nat) :
    compileArguments parse (bound + 1) count =
      (argumentStep parse count >>= fun more =>
        if more then compileArguments parse bound (count + 1) else pure (count + 1)) := by
  simp only [compileArguments, argumentStep, compileArgument, bind_assoc]
  congr! 2
  split <;> simp only [pure_bind]

lemma skipBraces_succ (bound depth : Nat) :
    skipBraces (bound + 1) (depth + 1) =
      (braceStep (depth + 1) >>= fun more => match more with
        | none => pure ()
        | some depth => skipBraces bound depth) := by
  simp only [skipBraces, braceStep, bind_assoc]
  congr! 2 with k
  split <;> simp only [bind_assoc, pure_bind, Nat.add_sub_cancel]

/-! ## Every turn consumes -/

section Turns

variable {α : Type} {source : Text}

/-- If there is `more` to do after this step, then it was not at the end of the source and has
consumed a token. -/
def Progresses (source : Text) (step : CompileM α) (more : α → Prop) : Prop :=
  ∀ s a t, s.Reads source → step s = .ok a t → more a →
    s.current.kind ≠ .eof ∧ t.rest.length < s.rest.length

/-- Where the end token is the current one, no token is left to be consumed. -/
lemma Progresses.of_fed {step : CompileM α} {more : α → Prop}
    (h : ∀ s a t, step s = .ok a t → more a → s.Fed → t.rest.length < s.rest.length) :
    Progresses source step more := by
  intro s a t hs hrun hmore
  have hlt := h s a t hrun hmore hs.fed
  refine ⟨fun hend => ?_, hlt⟩
  rw [hs.rest_of_end hend] at hlt
  exact Nat.not_lt_zero _ hlt

/-- A turn that ends with looking for a token, and goes on if it was found. -/
lemma progresses_accept {f : CompileM α} (hf : Steady f) {k : Token.Kind} (hk : k ≠ .eof) :
    Progresses source (f >>= fun _ => accept k) (· = true) := by
  refine .of_fed fun s a u h hmore hfed => ?_
  obtain ⟨_, t, hft, hu⟩ := bind_ok h
  rw [accept_apply] at hu
  split at hu
  · rename_i hkind
    cases hu
    exact Nat.lt_of_lt_of_le (advance_rest_lt ((hf.advances hft).fed hfed) (hkind ▸ hk))
      (hf.advances hft).length_le
  · cases hu
    cases hmore

lemma progresses_blockStep (fuel : Nat) : Progresses source (blockStep (parse fuel)) (· = true) := by
  refine .of_fed fun s a t h hmore hfed => ?_
  cases hmore
  simp only [blockStep, bind_apply, check_apply] at h
  split at h
  · cases h
  · rename_i hcond
    have hcurrent : s.current.kind ≠ .eof := fun heof => by simp [heof] at hcond
    obtain ⟨_, u, hu, ht⟩ := bind_ok h
    cases ht
    exact consumes_parse _ _ _ _ _ hu hfed hcurrent

lemma progresses_synchronizeStep : Progresses source synchronizeStep (· = true) := by
  refine .of_fed fun s a t h hmore hfed => ?_
  cases hmore
  simp only [synchronizeStep, bind_apply, get_apply] at h
  split at h
  · cases h
  · rename_i hcond
    have hcurrent : s.current.kind ≠ .eof := fun heof => by simp [heof] at hcond
    cases h
    exact advance_rest_lt hfed hcurrent

lemma progresses_braceStep (depth : Nat) : Progresses source (braceStep depth) (·.isSome) := by
  refine .of_fed fun s a t h hmore hfed => ?_
  rw [braceStep, bind_apply, currentKind_apply] at h
  generalize hk : s.current.kind = k at h
  dsimp only at h
  split at h
  · cases h
    cases hmore
  all_goals
    cases h
    exact advance_rest_lt hfed (by simp_all)

lemma progresses_parameterStep : Progresses source parameterStep (· = true) := by
  have hparameter : Steady (parseVariable .parameterName >>= defineVariable) :=
    (steady_parseVariable _).bind fun _ => steady_defineVariable _
  have hsteady : Steady compileParameter :=
    .bind (.modify fun s => .of_scope (Nat.le_refl _) rfl) fun _ => .bind .get fun _ =>
      .ite ((steady_errorAtCurrent _).bind fun _ => hparameter) hparameter
  exact progresses_accept hsteady (by simp)

lemma progresses_argumentStep (fuel count : Nat) :
    Progresses source (argumentStep (parse fuel) count) (· = true) := by
  have hsteady : Steady (compileArgument (parse fuel) count) :=
    .bind (steady_parse fuel _) fun _ => .ite (steady_error _) (.pure _)
  exact progresses_accept hsteady (by simp)

end Turns

/-! ## Declarations and loops -/

/-- Entered before the end of the source, in panic or not, a declaration consumes a token, unless it
is nested too deeply, which ends the compilation. -/
structure DeclarationsConsume (source : Text) : Prop where
  /-- A declaration that completes has consumed a token. -/
  consumes : ∀ fuel s t, s.Reads source → s.current.kind ≠ .eof →
    parse fuel .declaration s = .ok () t → t.Reads source ∧ t.rest.length < s.rest.length
  /-- A declaration completes, or ends the compilation. -/
  completes : ∀ fuel s, s.Reads source → 3 * s.rest.length + 3 ≤ fuel →
    (∃ t, parse fuel .declaration s = .ok () t) ∨
      ∃ line t, parse fuel .declaration s = .error (.tooDeep line) t

/-- The loops of the compiler, each with the step that it repeats; a step after which a loop goes on
consumes a token, and at the end token no loop goes on. -/
structure LoopsConsume (source : Text) : Prop where
  /-- The declarations of a program. -/
  program : ∀ fuel, Progresses source (programStep fuel) (· = true)
  /-- The declarations of a block or of a function body. -/
  block : ∀ fuel bound,
    compileBlock bound (parse fuel) =
        (loop bound (blockStep (parse fuel)) >>= fun _ => consume .rightBrace .braceAfterBlock) ∧
      Progresses source (blockStep (parse fuel)) (· = true)
  /-- The body of a class, which is passed over. -/
  classBody : ∀ bound depth,
    skipBraces (bound + 1) (depth + 1) =
        (braceStep (depth + 1) >>= fun more => match more with
          | none => pure ()
          | some depth => skipBraces bound depth) ∧
      Progresses source (braceStep (depth + 1)) (·.isSome)
  parameters : ∀ bound,
    compileParameters bound = loop bound parameterStep ∧
      Progresses source parameterStep (· = true)
  arguments : ∀ fuel bound count,
    compileArguments (parse fuel) (bound + 1) count =
        (argumentStep (parse fuel) count >>= fun more =>
          if more then compileArguments (parse fuel) bound (count + 1) else pure (count + 1)) ∧
      Progresses source (argumentStep (parse fuel) count) (· = true)
  /-- The operators and operands of an expression. -/
  continuations : ∀ fuel bound precedence,
    Progresses source (continueExpression bound (parse fuel) precedence) (· = true)
  /-- The search for a place to resume after an error. -/
  synchronize : ∀ bound,
    synchronize bound = (modify (fun s => { s with panicking := false }) >>= fun _ =>
        loop bound synchronizeStep) ∧
      Progresses source synchronizeStep (· = true)

lemma declarationsConsume (source : Text) : DeclarationsConsume source where
  consumes fuel s t hs hcurrent h :=
    ⟨hs.of_ok (steady_parse fuel _) h, consumes_parse fuel _ s () t h hs.fed hcurrent⟩
  completes fuel s hs hfuel := by
    have hready : Ready s.rest.length [] s := ⟨hs.fed, Nat.le_refl _, by simp⟩
    have hsafe := safe_parse fuel .declaration s.rest.length hfuel s hready
    cases h : parse fuel .declaration s with
    | ok _ t => exact .inl ⟨t, rfl⟩
    | error e t =>
      cases e with
      | tooDeep line => exact .inr ⟨line, t, rfl⟩
      | fault f => exact absurd h (hsafe f t)

lemma loopsConsume (source : Text) : LoopsConsume source where
  program fuel := .of_fed fun s _ t h hmore hfed => programStep_consumes fuel s t (hmore ▸ h) hfed
  block fuel _ := ⟨rfl, progresses_blockStep fuel⟩
  classBody bound depth := ⟨skipBraces_succ bound depth, progresses_braceStep (depth + 1)⟩
  parameters bound := ⟨compileParameters_eq_loop bound, progresses_parameterStep⟩
  arguments fuel bound count :=
    ⟨compileArguments_succ (parse fuel) bound count, progresses_argumentStep fuel count⟩
  continuations fuel bound p := .of_fed fun s _ t h hmore hfed =>
    continueExpression_consumes (steady_parse fuel) bound p s t (hmore ▸ h) hfed
  synchronize _ := ⟨rfl, progresses_synchronizeStep⟩

end Compiler

open Compiler

/-- Errors are what a source without a script has. -/
lemma Compiler.compile_rejected_ne_nil {c : Compiler} {source : Text} {errors : List CompileError}
    (h : (c.compile source).1 = .rejected errors) : errors ≠ [] := by
  rw [Compiler.compile, compileTokens] at h
  dsimp only at h
  split at h
  · split at h
    · cases h
    · rename_i hsome
      cases h
      simpa using hsome
  · cases h
    simp
  · cases h

/-- Every source becomes a script or errors. -/
lemma Compiler.compile_script_or_rejected (c : Compiler) (source : Text) :
    (∃ p, (c.compile source).1 = .script p) ∨ ∃ e es, (c.compile source).1 = .rejected (e :: es) := by
  cases h : (c.compile source).1 with
  | script p => exact .inl ⟨p, rfl⟩
  | rejected errors =>
    obtain ⟨e, es, rfl⟩ := List.exists_cons_of_ne_nil (compile_rejected_ne_nil h)
    exact .inr ⟨e, es, rfl⟩
  | fault f => exact absurd h (c.compile_fst_ne_fault source f)

/-- On a compiler that is new or has been used, every source becomes a script or errors.  The lexer is
always ahead of the token it has given, a declaration consumes a token, and so does every turn after
which a loop of the compiler goes on. -/
theorem compile_terminates (c : Compiler) (source : Text) :
    ((∃ p, (c.compile source).1 = .script p) ∨
        ∃ e es, (c.compile source).1 = .rejected (e :: es)) ∧
      (tokenize source).IsChain Token.Before ∧
      ((c.start (tokenize source)).advance).Reads source ∧
      DeclarationsConsume source ∧
      LoopsConsume source := by
  exact ⟨c.compile_script_or_rejected source, tokenize_isChain source, reads_advance_start c source,
    declarationsConsume source, loopsConsume source⟩

end Lox
