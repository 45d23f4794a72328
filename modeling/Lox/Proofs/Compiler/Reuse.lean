import Lox.Proofs.Compiler.Progress

/-!
# A compiler used again

A compiler is left with the last two tokens of a source, and with the functions that a script is
compiled in.  Neither makes a difference to the next source (`compile_after_history`).

The token consumed before is overwritten when a token is consumed, so a step that begins with
consuming one does the same whatever that was (`Forgets`).  The first token of a source is consumed
before anything is emitted for it or reported of it.  As for the functions, there are none around a
script: whatever a compilation was in the middle of is gone once it is left.
-/

namespace Lox.Compiler

section Forgetting

variable {α β : Type}

/-- From this state the step does the same whatever token was consumed before. -/
def Forgets (f : CompileM α) (s : State) : Prop :=
  ∀ t : Token, f { s with previous := t } = f s

lemma Forgets.bind {f : CompileM α} {s : State} (h : Forgets f s) (g : α → CompileM β) :
    Forgets (f >>= g) s := by
  intro t
  rw [bind_apply, bind_apply, h t]

lemma forgets_advance (s : State) : Forgets advance s := fun _ => rfl

/-- Either a token is consumed or the alternative has to forget. -/
lemma Forgets.accept {k : Token.Kind} {f g : CompileM α} {s : State} (hg : Forgets g s) :
    Forgets (accept k >>= fun b => if b then f else g) s := by
  intro t
  rw [bind_apply, bind_apply, accept_apply, accept_apply]
  by_cases hk : s.current.kind = k
  · rw [if_pos hk, if_pos hk]
    rfl
  · rw [if_neg hk, if_neg hk]
    exact hg t

/-- A phrase that is not nested too deeply; a complaint about the nesting would be about the token
consumed before. -/
lemma Forgets.nested {f : CompileM Unit} {s : State} (hdepth : s.nesting < maxNesting)
    (hf : Forgets f { s with nesting := s.nesting + 1 }) : Forgets (nested f) s := by
  intro t
  rw [nested_apply, nested_apply, if_neg (Nat.not_le.2 hdepth)]
  dsimp only
  rw [if_neg (Nat.not_le.2 hdepth), hf t]

end Forgetting

section Phrases

variable {s : State} {fuel : Nat}

lemma forgets_expression (p : Precedence) (hdepth : s.nesting < maxNesting) :
    Forgets (parse (fuel + 1) (.expression p)) s :=
  .nested hdepth (.bind (forgets_advance _) _)

lemma forgets_statement (hdepth : s.nesting < maxNesting) :
    Forgets (parse (fuel + 2) .statement) s := by
  refine .accept (.accept (.accept (.accept (.accept (.accept ?_)))))
  exact .bind (forgets_expression .assignment hdepth) _

lemma forgets_declaration (hdepth : s.nesting + 1 < maxNesting) :
    Forgets (parse (fuel + 3) .declaration) s := by
  refine .nested (Nat.lt_of_succ_lt hdepth) (.accept (.accept (.accept ?_)))
  exact .bind (forgets_statement hdepth) _

lemma forgets_programStep (hdepth : s.nesting + 1 < maxNesting) :
    Forgets (programStep (fuel + 3)) s :=
  .accept (.bind (forgets_declaration hdepth) _)

end Phrases

/-! ## The beginning of a source -/

lemma report_with_previous (s : State) (t u : Token) (cause : CompileError.Cause) :
    { s with previous := t }.report u cause = { s.report u cause with previous := t } := by
  have hpanicking : { s with previous := t }.panicking = s.panicking := rfl
  rw [State.report, State.report, hpanicking]
  split <;> rfl

/-- Looking at the next token does not depend on the token consumed before. -/
lemma shift_with_previous (ts : List Token) (s : State) (t : Token) :
    State.shift ts { s with previous := t } = { State.shift ts s with previous := t } := by
  induction ts generalizing s with
  | nil => rfl
  | cons u us ih =>
    rw [State.shift, State.shift]
    split
    · rw [report_with_previous { s with current := u }, ih]
    · rfl

/-- Where there is a next token, the one looked at before makes no difference. -/
lemma shift_with_current {ts : List Token} (hts : ts ≠ []) (s : State) (t : Token) :
    State.shift ts { s with current := t } = State.shift ts s := by
  obtain ⟨u, us, rfl⟩ := List.exists_cons_of_ne_nil hts
  rfl

end Lox.Compiler

namespace Lox

open Compiler

lemma tokenize_ne_nil (source : Text) : tokenize source ≠ [] := by
  obtain ⟨body, last, htokens, -⟩ := tokenize_eq_append source
  simp [htokens]

namespace Compiler

variable {c : Compiler}

/-- The first token of a source is consumed, so that only the token that counts as consumed before it
is from an earlier source. -/
lemma advance_start (h : c.around = []) {tokens : List Token} (htokens : tokens ≠ []) :
    (c.start tokens).advance =
      { ((Compiler.new c.interactive).start tokens).advance with previous := c.current } := by
  let fresh := (Compiler.new c.interactive).start tokens
  calc (c.start tokens).advance
      = State.shift tokens { { fresh with current := c.current } with previous := c.current } := by
        simp only [State.advance, start, h]
        rfl
    _ = { State.shift tokens fresh with previous := c.current } := by
        rw [shift_with_previous, shift_with_current htokens]
    _ = { fresh.advance with previous := c.current } := by
        rw [State.advance, shift_with_previous]
        rfl

/-- A source is compiled as on a new compiler, down to the state the compilation ends in. -/
lemma program_start (h : c.around = []) (source : Text) :
    program (fuelFor (tokenize source).length) (c.start (tokenize source)) =
      program (fuelFor (tokenize source).length)
        ((Compiler.new c.interactive).start (tokenize source)) := by
  have hnesting : ((Compiler.new c.interactive).start (tokenize source)).advance.nesting + 1 <
      maxNesting := by
    rw [(advances_advance _).nesting]
    exact (by decide : 0 + 1 < maxNesting)
  have hforgets : Forgets (programStep (fuelFor (tokenize source).length)) _ :=
    forgets_programStep hnesting
  have hloop : Forgets (loop (fuelFor (tokenize source).length)
      (programStep (fuelFor (tokenize source).length))) _ := hforgets.bind _
  rw [program_eq, bind_apply, bind_apply, advance_apply, advance_apply]
  dsimp only
  rw [advance_start h (tokenize_ne_nil source), bind_apply, bind_apply, hloop]

/-- Only the functions around a script could matter to the next source. -/
theorem compile_fst_eq (h : c.around = []) (source : Text) :
    (c.compile source).1 = Lox.compile c.interactive source := by
  rw [Lox.compile, Compiler.compile, Compiler.compile, compileTokens, compileTokens]
  dsimp only [EStateM.run]
  rw [program_start h source]
  split <;> rfl

/-! ## Any number of sources -/

lemma compile_snd (c : Compiler) (source : Text) :
    ∃ s : State, (c.compile source).2 = c.after s := by
  rw [Compiler.compile, compileTokens]
  dsimp only
  split <;> exact ⟨_, rfl⟩

/-- The compiler that is left when sources were compiled one after another. -/
def compileAll (c : Compiler) (sources : List Text) : Compiler :=
  sources.foldl (fun c source => (c.compile source).2) c

/-- However a source is left, the compiler is in the functions that it was in before. -/
lemma around_compileAll (h : c.around = []) (sources : List Text) :
    (c.compileAll sources).around = [] ∧ (c.compileAll sources).interactive = c.interactive := by
  induction sources generalizing c with
  | nil => exact ⟨h, rfl⟩
  | cons source sources ih =>
    obtain ⟨s, hs⟩ := c.compile_snd source
    have hleft : (c.after s).around = [] := by simp [after, h]
    rw [compileAll, List.foldl_cons, hs]
    exact ih hleft

/-- Whatever sources a compiler has seen, it gives for the next one the script, or the errors, that a
new compiler gives. -/
theorem compile_after_history (interactive : Bool) (before : List Text) (source : Text) :
    (((Compiler.new interactive).compileAll before).compile source).1 =
      ((Compiler.new interactive).compile source).1 := by
  obtain ⟨haround, hmode⟩ := around_compileAll (c := .new interactive) rfl before
  rw [compile_fst_eq haround, hmode]
  rfl

end Compiler

end Lox
