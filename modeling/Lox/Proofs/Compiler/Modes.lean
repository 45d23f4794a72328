import Lox.Proofs.Lexer.Extension
import Lox.Proofs.Compiler.Mirroring.Statement
import Lox.Proofs.Compiler.Reading.Statement

/-!
# Interactive compilation

An interactive compilation accepts what the other one accepts, and gives the same script.  What it
accepts besides ends with an expression that has no semicolon: there the other compilation has one
error, at the end, and with a semicolon on the next line it gives a script that drops the expression
where the interactive one prints it (`interactive_prints_last_expression`).
-/

namespace Lox

namespace Compiler

/-! ## Programs -/

section Programs

variable {mode : Bool} {e : Token} {s : State} {fuel : Nat}

lemma Printed.advance {x : Prospect} {k : Nat} {t u : State} (h : Printed x k t u) (ht : t.rest = []) :
    Printed x k t.advance u.advance := by
  rw [advance_of_rest_nil ht, advance_of_rest_nil h.rest]
  exact ⟨h.current, h.rest, h.errors, h.scope, h.chunk⟩

/-- The source has ended in the other mode as well. -/
lemma advance_onto_same (hs : Ends mode e s) (hend : s.current.kind = .eof) :
    (s.onto ⟨!mode, e, []⟩).advance = s.advance.onto ⟨!mode, e, []⟩ := by
  obtain ⟨hcurrent, hrest⟩ := hs.last hend
  have hsame : s.onto ⟨!mode, e, []⟩ = s.facing ⟨!mode, e, []⟩ := by
    rw [State.onto, State.toward, if_pos hend, if_pos hend]
  rw [hsame, advance_of_rest_nil hrest, advance_of_rest_nil rfl, State.onto, State.toward,
    if_pos hend, if_pos hend]
  exact congrArg (fun t => { s.facing ⟨!mode, e, []⟩ with previous := t }) hcurrent.symm

/-- What another compilation comes to by the end of the source: it goes alike if its source ends as
well, or else it drops the expression that was printed. -/
def Concludes (mode : Bool) (e : Token) {α : Type} (f' : Prospect → CompileM α) (s : State) (a : α)
    (t : State) : Prop :=
  (t.prospect = ⟨mode, e, []⟩ ∧
    f' ⟨!mode, e, []⟩ (s.onto ⟨!mode, e, []⟩) = .ok a (t.onto ⟨!mode, e, []⟩)) ∨
  (mode = true ∧ ∃ k, ∀ x, x.Fits mode e → ∃ u, f' x (s.onto x) = .ok a u ∧ Printed x k t u)

/-- The declarations of a program, and its end. -/
lemma yields_loop_programStep (more : Prospect → Nat) (he : e.kind = .eof) (bound : Nat)
    (hs : Ends mode e s) :
    Yields (loop bound (programStep fuel)) s
      (Concludes mode e (fun x => loop (more x + bound) (programStep (more x + fuel))) s) := by
  induction bound generalizing s with
  | zero => exact fun _ _ _ h => nomatch h
  | succ bound ih =>
    by_cases hend : s.current.kind = .eof
    · refine .of_ok ((loop_programStep_apply _ _ s).trans (if_pos hend)) (.inl ⟨?_, ?_⟩)
      · obtain ⟨hcurrent, hrest⟩ := hs.last hend
        rw [advance_of_rest_nil hrest, State.prospect, hs.interactive, hcurrent, hrest]
      · have hcurrent : (s.onto ⟨!mode, e, []⟩).current.kind = .eof :=
          (congrArg Token.kind (if_pos hend)).trans he
        rw [← advance_onto_same hs hend]
        exact (loop_programStep_apply _ _ _).trans (if_pos hcurrent)
    · have hfollow : ∀ x, loop (more x + (bound + 1)) (programStep (more x + fuel)) (s.onto x) =
          (parse (more x + fuel) .declaration >>= fun _ =>
            loop (more x + bound) (programStep (more x + fuel))) (s.onto x) := fun x => by
        have hcurrent : (s.onto x).current = s.current := if_neg hend
        exact (loop_programStep_apply _ _ _).trans (if_neg (hcurrent ▸ hend))
      have hrest : Yields (parse fuel .declaration >>= fun _ => loop bound (programStep fuel)) s
          (Concludes mode e (fun x => parse (more x + fuel) .declaration >>= fun _ =>
            loop (more x + bound) (programStep (more x + fuel))) s) := by
        refine Yields.bind ((prints_parse he more fuel).declaration s hs) ?_
        rintro ⟨⟩ t - (⟨ht, honto⟩ | ⟨hmode, k, -, ht, honto⟩)
        · -- The declaration was compiled alike.
          have hseq : ∀ x, x.Fits mode e → ∀ f : Unit → CompileM Unit,
              (parse (more x + fuel) .declaration >>= f) (s.onto x) = f () (t.onto x) := by
            intro x hx f
            have hfirst : parse (more x + fuel) .declaration (s.onto x) = .ok () (t.onto x) :=
              honto x hx
            rw [bind_apply, hfirst]
          refine (ih ht).mono ?_
          rintro a v (⟨hprospect, hsame⟩ | ⟨hmode, k, hprinted⟩)
          · exact .inl ⟨hprospect, (hseq _ .same _).trans hsame⟩
          · refine .inr ⟨hmode, k, fun x hx => ?_⟩
            obtain ⟨u, hu, hprinted⟩ := hprinted x hx
            exact ⟨u, (hseq x hx _).trans hu, hprinted⟩
        · -- The source has ended, and the compilations differ.
          cases bound with
          | zero => exact fun _ _ _ h => nomatch h
          | succ bound =>
            refine .of_ok ((loop_programStep_apply _ _ t).trans (if_pos ht.current))
              (.inr ⟨hmode, k, fun x hx => ?_⟩)
            obtain ⟨u, hu, hprinted⟩ := honto x hx
            have hfirst : parse (more x + fuel) .declaration (s.onto x) = .ok () u := hu
            refine ⟨u.advance, ?_, hprinted.advance (ht.ends.last ht.current).2⟩
            show (parse (more x + fuel) .declaration >>= fun _ => _) (s.onto x) = _
            rw [bind_apply, hfirst]
            exact (loop_programStep_apply _ _ u).trans (if_pos hprinted.current)
      intro hsane a v h hv
      rw [loop_programStep_apply, if_neg hend] at h
      have hconcludes := hrest hsane a v h hv
      simp only [Concludes, hfollow]
      exact hconcludes

lemma Printed.toPrototype {x : Prospect} {k : Nat} {t u : State} (h : Printed x k t u) :
    t.scope.toPrototype.PrintsAt k u.scope.toPrototype := by
  have hscope := h.scope
  refine ⟨?_, ?_, ?_, _, _, rfl, rfl, h.chunk⟩ <;> rw [hscope] <;> rfl

/-- A whole program: it goes alike in the other mode, or else it prints its last expression, which is
dropped in any other compilation. -/
lemma yields_program_modes (more : Prospect → Nat) {body : List Token} (he : e.kind = .eof)
    (hmode : s.interactive = mode)
    (hrest : s.rest = body ++ [e]) (hbody : ∀ t ∈ body, t.kind ≠ .eof) :
    Yields (program fuel) s fun p t =>
      (∃ u, program (more ⟨!mode, e, []⟩ + fuel) (s.facing ⟨!mode, s.current, body ++ [e]⟩) = .ok p u ∧
        u.errors = t.errors) ∨
      (mode = true ∧ ∃ k, ∀ x, x.Fits mode e → ∃ q u,
        program (more x + fuel) (s.facing ⟨x.interactive, s.current, body ++ x.current :: x.rest⟩) =
          .ok q u ∧ u.errors.toList = x.complaints ∧ p.PrintsAt k q) := by
  have hfirst : Yields advance s fun _ t => Ends mode e t ∧ ∀ x, x.Fits mode e →
      (s.facing ⟨x.interactive, s.current, body ++ x.current :: x.rest⟩).advance = t.onto x := by
    intro hsane _ t h hclean
    cases h
    exact advance_facing he hsane hmode hrest hbody hclean
  refine hfirst.bind fun _ t _ ⟨ht, honto⟩ => ?_
  refine (yields_loop_programStep more he fuel ht).bind fun _ u _ hconcludes => ?_
  refine .of_ok (finishFunction_apply u) ?_
  have hrun : ∀ x u', x.Fits mode e →
      loop (more x + fuel) (programStep (more x + fuel)) (t.onto x) = .ok () u' →
      program (more x + fuel) (s.facing ⟨x.interactive, s.current, body ++ x.current :: x.rest⟩) =
        finishFunction u' := by
    intro x u' hx hloop
    rw [program_eq, bind_apply, advance_apply]
    dsimp only
    rw [honto x hx, bind_apply, hloop]
  rcases hconcludes with ⟨-, hsame⟩ | ⟨hmode, k, hprinted⟩
  · refine .inl ⟨_, (hrun _ _ .same hsame).trans (finishFunction_apply _), rfl⟩
  · refine .inr ⟨hmode, k, fun x hx => ?_⟩
    obtain ⟨u', hloop, hu'⟩ := hprinted x hx
    have hfinished := (hu'.write ⟨.loadNil, 0⟩ u.previous.line u'.previous.line).write ⟨.ret, 0⟩
      u.previous.line u'.previous.line
    refine ⟨_, _, (hrun x u' hx hloop).trans (finishFunction_apply u'), hfinished.errors, ?_⟩
    exact hfinished.toPrototype

end Programs

end Compiler

open Compiler

/-! ## Sources -/

/-- What an accepted source is in other compilations. -/
lemma compile_modes {mode : Bool} {source : Text} {p : Prototype} (h : compile mode source = .script p) :
    compile (!mode) source = .script p ∨
    (mode = true ∧
      (∃ line, compile false source = .rejected [⟨line, .atEnd, .expected .semicolonAfterExpression⟩]) ∧
      ∃ k q, compile false (source ++ "\n;") = .script q ∧ p.PrintsAt k q) := by
  obtain ⟨body, e, htokens, he, hbody⟩ := tokenize_eq_append source
  obtain ⟨t, hrun, hclean⟩ := exists_program_of_compile h
  have hsane := Compiler.sane_start (.new mode) source rfl
  -- Another token means more fuel.
  let more : Prospect → Nat := fun x => 4 * x.rest.length
  have hnoMore : ∀ mode', more ⟨mode', e, []⟩ + fuelFor (tokenize source).length =
      fuelFor (tokenize source).length := fun _ => Nat.zero_add _
  rcases yields_program_modes more he rfl htokens hbody hsane p t hrun hclean with
    ⟨u, hu, herrors⟩ | ⟨hmode, k, hprinted⟩
  · left
    rw [hnoMore] at hu
    change program _ ((Compiler.new (!mode)).start (body ++ [e])) = _ at hu
    rw [← htokens] at hu
    rw [compile_of_program hu, herrors, if_pos (by simpa using hclean)]
  · change mode = true at hmode
    subst hmode
    refine .inr ⟨rfl, ⟨e.line, ?_⟩, k, ?_⟩
    · obtain ⟨q, u, hu, hcomplaints, -⟩ := hprinted _ .same
      have hnot : e.kind ≠ .semicolon := by simp [he]
      have hlocation : CompileError.Location.ofToken e = .atEnd := by
        rw [CompileError.Location.ofToken, he]
      rw [hnoMore] at hu
      change program _ ((Compiler.new false).start (body ++ [e])) = _ at hu
      rw [← htokens] at hu
      rw [Prospect.complaints, if_neg hnot, missingSemicolon, hlocation] at hcomplaints
      have hsome : ¬ u.errors.isEmpty = true := fun hnone => by
        rw [Array.isEmpty_iff.1 hnone] at hcomplaints
        cases hcomplaints
      rw [compile_of_program hu, if_neg hsome, hcomplaints]
    · have hplain : ∀ t ∈ body, t.kind ≠ .error .unterminatedString := by
        obtain ⟨body', last, tree, -, -, -, hsplit, -, hderives, -⟩ := compile_eq_script h
        rw [htokens] at hsplit
        obtain ⟨rfl, -⟩ := List.append_inj' hsplit rfl
        exact fun t ht => hderives.isPlain t ht _
      obtain ⟨semicolon, last, hkind, hlast, htokens'⟩ := tokenize_semicolon htokens hplain
      obtain ⟨q, u, hu, hcomplaints, hprints⟩ := hprinted _ (.semicolon rfl hkind hlast)
      have hfuel : more ⟨false, semicolon, [last]⟩ + fuelFor (tokenize source).length =
          fuelFor (tokenize (source ++ "\n;")).length := by
        simp only [more, fuelFor, htokens, htokens', List.length_append, List.length_cons,
          List.length_nil]
        omega
      rw [hfuel] at hu
      change program _ ((Compiler.new false).start (body ++ [semicolon, last])) = _ at hu
      rw [← htokens'] at hu
      rw [Prospect.complaints, if_pos hkind] at hcomplaints
      refine ⟨q, ?_, hprints⟩
      rw [compile_of_program hu, if_pos (by simpa using hcomplaints)]

/-- An interactive compilation differs from the other only by printing a last expression. -/
theorem interactive_prints_last_expression (source : Text) :
    (∀ p, compile false source = .script p → compile true source = .script p) ∧
    ∀ p, compile true source = .script p → (∀ q, compile false source ≠ .script q) →
      (∃ line, compile false source =
        .rejected [⟨line, .atEnd, .expected .semicolonAfterExpression⟩]) ∧
      ∃ k q, compile false (source ++ "\n;") = .script q ∧ p.PrintsAt k q := by
  refine ⟨fun p h => ?_, fun p h hother => ?_⟩
  · rcases compile_modes h with hsame | ⟨hmode, -⟩
    · exact hsame
    · cases hmode
  · rcases compile_modes h with hsame | ⟨-, hdiffers⟩
    · exact absurd hsame (hother p)
    · exact hdiffers

/-- The last expression may stand in a branch. -/
theorem interactive_prints_last_expression_branch :
    (∃ p, compile false "y;" = .script p ∧ compile true "y;" = .script p) ∧
    (∃ line, compile false "if (x) y" =
      .rejected [⟨line, .atEnd, .expected .semicolonAfterExpression⟩]) ∧
    ∃ p k q, compile true "if (x) y" = .script p ∧
      compile false ("if (x) y" ++ "\n;") = .script q ∧ p.PrintsAt k q := by
  obtain ⟨p, hp⟩ := Compilation.exists_of_isSome (c := compile false "y;") (by decide +kernel)
  obtain ⟨p', hp'⟩ := Compilation.exists_of_isSome (c := compile true "if (x) y") (by decide +kernel)
  have hrejected : (compile false "if (x) y").script?.isSome = false := by decide +kernel
  obtain ⟨hline, k, q, hq, hprints⟩ :=
    (interactive_prints_last_expression "if (x) y").2 p' hp' fun q hq => by
      rw [hq] at hrejected
      cases hrejected
  exact ⟨⟨p, hp, (interactive_prints_last_expression "y;").1 p hp⟩, hline, p', k, q, hp', hq, hprints⟩

end Lox
