import Lox.Cli.Session
import Lox.Proofs.Compiler.Parallel.Statement
import Lox.Proofs.Compiler.Progress
import Lox.Proofs.Compiler.Reading.Statement

/-!
# Sources that can be completed

If a source compiles, then so do its first lines, or more lines may mend all their errors, or they
are nested too deep (`errors_of_completable`).  Hence the prompt, which asks for more lines as long
as they may help, never gives up on lines that can be completed (`completable_awaits_more`).
-/

namespace Lox

namespace Compiler

section Programs

variable {s u : State} {fuel fuel' : Nat}

/-- The end of the source is consumed when nothing follows. -/
lemma lands_loop_programStep_of_end (rounds : Nat) (hu : Exhausted u) :
    Lands (loop rounds (programStep fuel)) u fun _ v => Exhausted v := by
  cases rounds with
  | zero => exact .of_fault rfl
  | succ rounds =>
    exact .of_ok ((loop_programStep_apply _ _ u).trans (if_pos hu.current)) hu.advance

/-- The declarations of a program, and its end. -/
lemma recovers_loop_programStep (rounds rounds' : Nat) (h : InStep s u) (hs : s.context.Settled) :
    Recovers (loop rounds (programStep fuel)) (loop rounds' (programStep fuel')) s u := by
  induction rounds generalizing rounds' s u with
  | zero => exact fun _ _ _ h => nomatch h
  | succ rounds ih =>
    rcases h.place with hin | hend
    · cases rounds' with
      | zero => exact fun _ _ _ _ _ => .of_fault rfl
      | succ rounds' =>
        intro hsane a w hrun hw
        rw [loop_programStep_apply, if_neg hin.more] at hrun
        have hrest : Recovers
            (parse fuel .declaration >>= fun _ => loop rounds (programStep fuel))
            (parse fuel' .declaration >>= fun _ => loop rounds' (programStep fuel')) s u :=
          .bind ((parallelsStmts fuel fuel').declaration s u h hin hs) (yields_declaration_settled hs)
            (fun _ _ _ _ ht hv => ih rounds' hv ht)
            fun _ _ hv => lands_loop_programStep_of_end rounds' hv
        refine .congr ((loop_programStep_apply _ _ u).trans (if_neg ?_)) (hrest hsane a w hrun hw)
        rw [hin.current]
        exact hin.more
    · exact fun _ _ _ _ _ =>
        (lands_loop_programStep_of_end rounds' (h.trails hend).exhausted).mono fun _ _ => .inr

/-- If a program compiles, then more source may mend the errors of its beginning. -/
lemma yields_program_mendable {shared last after : List Token} {p : Prospect}
    (hclean : s.errors.toList = []) (hcalm : s.panicking = false) (hs : s.context.Settled)
    (hcurrent : p.current = s.current) (hrest : s.rest = shared ++ after)
    (hrest' : p.rest = shared ++ last) (hstops : BreaksOff last) (hmore : ∀ t ∈ shared, t.kind ≠ .eof) :
    Yields (program fuel) s fun _ _ => Lands (program fuel') (s.facing p) fun _ v => v.Mendable := by
  have hadvance : Parallels False advance advance s (s.facing p) :=
    parallels_advance_facing hclean hcalm hcurrent hrest hrest' hstops hmore
  have hfirst : Recovers advance advance s (s.facing p) :=
    Yields.mono hadvance fun _ _ h => h.mono fun _ _ => by
      rintro (⟨-, hin⟩ | ⟨⟨⟩, -⟩ | hstranded)
      · exact .inl hin
      · exact .inr hstranded.exhausted
  have hcontext : Yields advance s fun _ t => t.context = s.context := by
    rintro - _ _ ⟨⟩ -
    rw [State.advance, (shifts_shift s.rest { s with previous := s.current }).frame]
    rfl
  have hloop : Recovers (advance >>= fun _ => loop fuel (programStep fuel))
      (advance >>= fun _ => loop fuel' (programStep fuel')) s (s.facing p) := hfirst.bind hcontext
    (fun _ _ _ _ ht hv => recovers_loop_programStep fuel fuel' hv (ht ▸ hs))
    fun _ _ hv => lands_loop_programStep_of_end fuel' hv
  have hprogram : ∀ fuel, program fuel =
      (advance >>= fun _ => loop fuel (programStep fuel)) >>= fun _ => finishFunction := fun fuel => by
    rw [program_eq, bind_assoc]
  rw [hprogram fuel, hprogram fuel']
  refine Yields.bind hloop fun _ t _ hlands => ?_
  refine .of_ok (finishFunction_apply t) (hlands.bind fun _ v _ hv => ?_)
  refine .of_ok (finishFunction_apply v) ?_
  rcases hv with hin | hover
  · exact hin.mendable
  · exact hover.mendable

end Programs

end Compiler

open Compiler

/-- If a source compiles, then more lines may mend the errors of its first lines, unless these are
nested too deep. -/
lemma errors_of_completable {interactive : Bool} (interactive' : Bool) {lines more : Text} {p : Prototype}
    (h : compile interactive (lines ++ Text.newline :: more) = .script p) :
    ∀ e ∈ (compile interactive' (lines ++ [Text.newline])).errors,
      e.Mendable ∨ e.cause = .limit .nesting := by
  obtain ⟨shared, last, after, hstops, hshared, hlines, hwhole⟩ := tokenize_lines lines more
  obtain ⟨t, hrun, hclean⟩ := exists_program_of_compile h
  have hlands : Lands (program (fuelFor (tokenize (lines ++ [Text.newline])).length))
      ((Compiler.new interactive').start (tokenize (lines ++ [Text.newline])))
      fun _ v => v.Mendable :=
    yields_program_mendable (p := ⟨interactive', .blank, tokenize (lines ++ [Text.newline])⟩) rfl rfl
      (Context.settled_new rfl) rfl hwhole hlines hstops hshared
      (Compiler.sane_start (.new interactive) _ rfl) p t hrun hclean
  have hfault := compile_ne_fault interactive' (lines ++ [Text.newline])
  intro e he
  rw [compile, Compiler.compile, compileTokens] at he hfault
  dsimp only [EStateM.run] at he hfault
  split at he
  · rename_i script v hrun'
    split at he
    · cases he
    · exact .inl (hlands.ok hrun' e he)
  · rename_i line v hrun'
    simp only [Compilation.errors, Array.toList_push, List.mem_append, List.mem_singleton] at he
    rcases he with he | rfl
    · exact .inl (hlands.tooDeep hrun' e he)
    · exact .inr rfl
  · cases he

namespace Cli.Session

/-- Lines that can be completed are not given up: if they do not compile, and are not nested too
deep, then the prompt asks for more. -/
theorem completable_awaits_more (lines more : Text) (hlines : [Text.newline] <:+ lines)
    (p : Prototype) (h : compile true (lines ++ more) = .script p) :
    (∀ e ∈ (compile true lines).errors,
      e.location.toText = " at end" ∨ e.cause.message = "Unterminated string." ∨
        e.cause.message = "Maximum nesting depth exceeded") ∧
    ((∀ e ∈ (compile true lines).errors, e.cause.message ≠ "Maximum nesting depth exceeded") →
      (∃ q, compile true lines = .script q) ∨
      ∀ session, needsMoreInput lines session = .ok true session) := by
  obtain ⟨line, rfl⟩ := hlines
  rw [List.append_assoc] at h
  have herrors := errors_of_completable true h
  refine ⟨fun e he => ?_, fun hshallow => ?_⟩
  · rcases herrors e he with (hend | hstring) | hdeep
    · exact .inl (by rw [hend]; rfl)
    · exact .inr (.inl (by rw [hstring]; rfl))
    · exact .inr (.inr (by rw [hdeep]; rfl))
  have hmendable : ∀ e ∈ (compile true (line ++ [Text.newline])).errors, e.Mendable := fun e he =>
    (herrors e he).resolve_right fun hdeep => hshallow e he (by rw [hdeep]; rfl)
  cases hcompile : compile true (line ++ [Text.newline]) with
  | script q => exact .inl ⟨q, rfl⟩
  | fault f => exact absurd hcompile (compile_ne_fault _ _ f)
  | rejected errors =>
    refine .inr fun session => ?_
    rw [hcompile] at hmendable
    have hall : errors.all (fun e =>
        e.location = .atEnd || e.cause = .lexical .unterminatedString) = true :=
      List.all_eq_true.2 fun e he => by simpa [CompileError.Mendable] using hmendable e he
    rw [← hall]
    simp only [needsMoreInput, compileSource, hcompile]
    rfl

/-- A line may end in a string in a block. -/
theorem completable_awaits_more_string :
    [Text.newline] <:+ ("if (x) \x7b print \"a\n" : Text) ∧
    (∃ p, compile true ("if (x) \x7b print \"a\n" ++ "b\"; \x7d") = .script p) ∧
    ∀ session, needsMoreInput "if (x) \x7b print \"a\n" session = .ok true session := by
  have hline : [Text.newline] <:+ ("if (x) \x7b print \"a\n" : Text) := by decide +kernel
  obtain ⟨p, hp⟩ := Compilation.exists_of_isSome
    (c := compile true ("if (x) \x7b print \"a\n" ++ "b\"; \x7d")) (by decide +kernel)
  have hrejected : (compile true "if (x) \x7b print \"a\n").script?.isSome = false := by
    decide +kernel
  refine ⟨hline, ⟨p, hp⟩, ((completable_awaits_more _ _ hline p hp).2 ?_).resolve_left ?_⟩
  · decide +kernel
  · rintro ⟨q, hq⟩
    rw [hq] at hrejected
    cases hrejected

end Cli.Session

end Lox
