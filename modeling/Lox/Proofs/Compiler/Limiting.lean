import Lox.Proofs.Compiler.Keeping
import Lox.Proofs.Compiler.Progress

/-!
# Other limits on nesting

What is wrong with a source in which something is nested too deeply, apart from that?  To ask this there
has to be a compiler with another limit (`parseWithin`).  It is the same compiler, with the same bodies
of declarations and expressions, and where its limit is the same it does the same.

Where the compiler with the other limit completes without an error, the compiler does the same, or gives
up because something is nested too deeply, and then it has reported no error either: `Stricter` says
this of a step, and steps are put together from such steps.  Hence `compile_of_acceptedWithin`: what is
accepted with another limit is accepted with the same script, or rejected with the one error about the
nesting.
-/

namespace Lox

namespace Compiler

-- The longest sequences of steps that are found to keep a fact by instance resolution are here.
set_option synthInstance.maxSize 4000

/-! ## The compiler with a limit -/

/-- Compiles something one level deeper, unless this is beyond the limit. -/
def nestedWithin (limit : Nat) (inside : CompileM Unit) : CompileM Unit := do
  let s ← get
  if limit ≤ s.nesting then
    throw (.tooDeep s.previous.line)
  set { s with nesting := s.nesting + 1 }
  inside
  modify fun s => { s with nesting := s.nesting - 1 }

/-- A declaration and the end of a panic in it, on its level. -/
def declarationInside (bound : Nat) (parse : Parts) : CompileM Unit := do
  declarationBody bound parse
  if (← get).panicking then synchronize bound

/-- An expression on its level. -/
def expressionInside (bound : Nat) (parse : Parts) (precedence : Precedence) : CompileM Unit := do
  advance
  match (← get).previous.kind.opening? with
  | none => error (.expected .expression)
  | some opening =>
    compileOpening parse (precedence = .assignment) opening
    loop bound (continueExpression bound parse precedence)
    if precedence = .assignment then
      if ← accept .equal then
        error .invalidAssignmentTarget

/-- Compiles a phrase with a limit on nesting. -/
def parseWithin (limit : Nat) : (fuel : Nat) → Phrase → CompileM Unit
  | 0, _ => throw (.fault .tokensExhausted)
  | fuel + 1, .declaration => nestedWithin limit (declarationInside fuel (parseWithin limit fuel))
  | fuel + 1, .statement => compileStatement fuel (parseWithin limit fuel)
  | fuel + 1, .expression precedence =>
    nestedWithin limit (expressionInside fuel (parseWithin limit fuel) precedence)

/-- Compiles a declaration of a program, unless the program is at its end. -/
def programStepWithin (limit fuel : Nat) : CompileM Bool := do
  if ← accept .eof then
    return false
  parseWithin limit fuel .declaration
  return true

/-- Compiles a whole program with a limit on nesting. -/
def programWithin (limit fuel : Nat) : CompileM Prototype := do
  advance
  loop fuel (programStepWithin limit fuel)
  finishFunction

lemma parseWithin_maxNesting (fuel : Nat) : parseWithin maxNesting fuel = parse fuel := by
  induction fuel with
  | zero => rfl
  | succ fuel ih =>
    funext p
    cases p with
    | declaration => rw [parseWithin, parse, ih, compileDeclaration_eq]; rfl
    | statement => rw [parseWithin, parse, ih]
    | expression p => rw [parseWithin, parse, ih]; rfl

lemma programWithin_maxNesting (fuel : Nat) : programWithin maxNesting fuel = program fuel := by
  rw [programWithin, program_eq]
  simp only [programStepWithin, parseWithin_maxNesting]
  rfl

/-! ## Errors stay -/

/-- Some error was reported. -/
def Erred (s : State) : Prop := s.errors ≠ #[]

lemma Erred.report {s : State} (hs : Erred s) (t : Token) (c : CompileError.Cause) :
    Erred (s.report t c) := by
  rw [State.report]
  split
  · exact hs
  · simp [Erred]

lemma Erred.shift {s : State} (hs : Erred s) (ts : List Token) : Erred (State.shift ts s) := by
  induction ts generalizing s with
  | nil => exact hs
  | cons t ts ih =>
    rw [State.shift]
    split
    · exact ih (Erred.report (s := { s with current := t }) hs _ _)
    · exact hs

instance : Durable Erred fun _ => True where
  left _ := trivial
  scope hs _ _ := hs
  nesting hs _ := hs
  advance {s} hs := Erred.shift (s := { s with previous := s.current }) hs s.rest
  error hs _ _ := hs.report _ _
  errorAtCurrent hs _ _ := hs.report _ _

/-- The end of a panic takes no error back. -/
instance : Maintains Erred (fun _ => True)
    (modify fun s => { s with panicking := false } : CompileM Unit) :=
  .modify fun _ hs => hs

instance (bound : Nat) : Maintains Erred (fun _ => True) (synchronize bound) := by
  rw [synchronize]
  infer_instance

instance (bound : Nat) : Maintains Erred (fun _ => True) (refuseClass bound) := by
  simp only [refuseClass]
  infer_instance

/-! ## Steps with a lower limit -/

section Steps

variable {α β : Type}

/-- Where the second step completes without an error, so does the first, or it goes too deep without an
error. -/
class Stricter (f f' : CompileM α) : Prop where
  keeps : Maintains Erred (fun _ => True) f'
  spec : ∀ s a t, f' s = .ok a t → ¬ Erred t →
    f s = .ok a t ∨ ∃ line u, f s = .error (.tooDeep line) u ∧ ¬ Erred u

/-- An error that is there before a step is there behind it. -/
lemma Stricter.not_erred {f f' : CompileM α} (h : Stricter f f') {s t : State} {a : α}
    (hf' : f' s = .ok a t) (ht : ¬ Erred t) : ¬ Erred s :=
  fun hs => ht ((h.keeps.spec s hs).ok hf')

instance (f : CompileM α) [hf : Maintains Erred (fun _ => True) f] : Stricter f f :=
  ⟨hf, fun _ _ _ h _ => .inl h⟩

instance (f f' : CompileM α) (g g' : α → CompileM β) [hf : Stricter f f']
    [hg : ∀ a, Stricter (g a) (g' a)] : Stricter (f >>= g) (f' >>= g') where
  keeps := by
    have := hf.keeps
    have := fun a => (hg a).keeps
    infer_instance
  spec s b t hrun ht := by
    rw [bind_apply] at hrun
    split at hrun
    · rename_i a u hfirst
      have hu := (hg a).not_erred hrun ht
      rcases hf.spec s a u hfirst hu with hsame | ⟨line, v, hdeep, hv⟩
      · rw [bind_apply, hsame]
        exact (hg a).spec u b t hrun ht
      · rw [bind_apply, hdeep]
        exact .inr ⟨line, v, rfl, hv⟩
    · cases hrun

instance (c : Prop) [Decidable c] (f f' g g' : CompileM α) [hf : Stricter f f'] [hg : Stricter g g'] :
    Stricter (if c then f else g) (if c then f' else g') := by
  split
  · exact hf
  · exact hg

instance (step step' : CompileM Bool) (bound : Nat) [hstep : Stricter step step'] :
    Stricter (loop bound step) (loop bound step') := by
  induction bound with
  | zero =>
    exact inferInstanceAs (Stricter (throw (.fault .tokensExhausted) : CompileM Unit)
      (throw (.fault .tokensExhausted)))
  | succ bound ih =>
    exact inferInstanceAs (Stricter (step >>= fun b => if b then loop bound step else pure ())
      (step' >>= fun b => if b then loop bound step' else pure ()))

lemma nestedWithin_apply (limit : Nat) (f : CompileM Unit) (s : State) :
    nestedWithin limit f s =
      if limit ≤ s.nesting then .error (.tooDeep s.previous.line) s
      else match f { s with nesting := s.nesting + 1 } with
        | .ok _ s' => .ok () { s' with nesting := s'.nesting - 1 }
        | .error e s' => .error e s' := by
  rw [nestedWithin, bind_apply, get_apply]
  dsimp only
  split
  · rfl
  · simp only [bind_apply, set_apply]
    cases f { s with nesting := s.nesting + 1 } <;> rfl

instance (limit : Nat) (f f' : CompileM Unit) [hf : Stricter f f'] :
    Stricter (nested f) (nestedWithin limit f') where
  keeps := by
    refine ⟨fun s hs => ⟨fun hok => ?_, fun _ => trivial⟩⟩
    rw [nestedWithin_apply] at hok
    split at hok
    · cases hok
    · split at hok
      · rename_i u hinside
        cases hok
        exact (hf.keeps.spec { s with nesting := s.nesting + 1 } hs).ok (t := u) hinside
      · cases hok
  spec s a t hok ht := by
    rw [nestedWithin_apply] at hok
    split at hok
    · cases hok
    split at hok
    · rename_i u hinside
      cases hok
      rw [nested_apply]
      split
      · exact .inr ⟨_, s, rfl, hf.not_erred (s := { s with nesting := s.nesting + 1 }) hinside ht⟩
      · rcases hf.spec _ _ u hinside ht with hsame | ⟨line, v, hdeep, hv⟩
        · rw [hsame]
          exact .inl rfl
        · rw [hdeep]
          exact .inr ⟨line, v, rfl, hv⟩
    · cases hok

/-! ### Phrases -/

section Phrases

variable (bound : Nat) (parse parse' : Parts)
  [∀ p, Stricter (parse (.expression p)) (parse' (.expression p))]

instance : Stricter (expression parse) (expression parse') :=
  inferInstanceAs (Stricter (parse (.expression .assignment)) (parse' (.expression .assignment)))

instance (canAssign : Bool) :
    Stricter (compileVariable parse canAssign) (compileVariable parse' canAssign) := by
  cases canAssign <;> simp only [compileVariable] <;> infer_instance

instance (canAssign : Bool) (o : Opening) :
    Stricter (compileOpening parse canAssign o) (compileOpening parse' canAssign o) := by
  -- The other openings have no parts.
  have hkeeps (o : Opening) :
      Maintains Erred (fun _ => True) (compileOpening (fun _ => pure ()) canAssign o) := inferInstance
  cases o with
  | grouping | unary | «variable» =>
    simp only [compileOpening]
    infer_instance
  | string =>
    have : Maintains Erred (fun _ => True) compileString := hkeeps .string
    exact inferInstanceAs (Stricter compileString compileString)
  | number =>
    have : Maintains Erred (fun _ => True) compileNumber := hkeeps .number
    exact inferInstanceAs (Stricter compileNumber compileNumber)
  | literal op => exact inferInstanceAs (Stricter (emitOp op) (emitOp op))
  | unsupported what =>
    exact inferInstanceAs (Stricter (error (.unsupported what)) (error (.unsupported what)))

instance (count : Nat) :
    Stricter (compileArguments parse bound count) (compileArguments parse' bound count) := by
  induction bound generalizing count with
  | zero =>
    exact inferInstanceAs (Stricter (throw (.fault .tokensExhausted) : CompileM Nat)
      (throw (.fault .tokensExhausted)))
  | succ bound ih =>
    simp only [compileArguments]
    infer_instance

instance : Stricter (compileCall bound parse) (compileCall bound parse') := by
  simp only [compileCall]
  infer_instance

instance (c : Continuation) :
    Stricter (compileContinuation bound parse c) (compileContinuation bound parse' c) := by
  cases c <;> simp only [compileContinuation] <;> infer_instance

instance (p : Precedence) :
    Stricter (continueExpression bound parse p) (continueExpression bound parse' p) := by
  have hcontinue : ∀ k : Token.Kind, Stricter
      (match k.continuation? with
        | none => pure false
        | some c =>
          if p.rank ≤ c.precedence.rank then do
            advance
            compileContinuation bound parse c
            return true
          else
            return false)
      (match k.continuation? with
        | none => pure false
        | some c =>
          if p.rank ≤ c.precedence.rank then do
            advance
            compileContinuation bound parse' c
            return true
          else
            return false) := by
    intro k
    cases k.continuation? <;> dsimp only <;> infer_instance
  exact inferInstanceAs (Stricter (currentKind >>= fun _ => _) (currentKind >>= fun _ => _))

instance (p : Precedence) :
    Stricter (expressionInside bound parse p) (expressionInside bound parse' p) := by
  have hopened : ∀ s : State, Stricter
      (match s.previous.kind.opening? with
        | none => error (.expected .expression)
        | some opening => do
          compileOpening parse (p = .assignment) opening
          loop bound (continueExpression bound parse p)
          if p = .assignment then
            if ← accept .equal then
              error .invalidAssignmentTarget)
      (match s.previous.kind.opening? with
        | none => error (.expected .expression)
        | some opening => do
          compileOpening parse' (p = .assignment) opening
          loop bound (continueExpression bound parse' p)
          if p = .assignment then
            if ← accept .equal then
              error .invalidAssignmentTarget) := by
    intro s
    cases s.previous.kind.opening? <;> dsimp only <;> infer_instance
  exact inferInstanceAs (Stricter (advance >>= fun _ => get >>= fun _ => _)
    (advance >>= fun _ => get >>= fun _ => _))

instance : Stricter (compileVar parse) (compileVar parse') := by
  simp only [compileVar]
  infer_instance

instance : Stricter (compileExpressionStatement parse) (compileExpressionStatement parse') := by
  simp only [compileExpressionStatement]
  infer_instance

instance : Stricter (compileForInitializer parse) (compileForInitializer parse') := by
  simp only [compileForInitializer]
  infer_instance

instance : Stricter (compileForCondition parse) (compileForCondition parse') := by
  simp only [compileForCondition]
  infer_instance

instance (start : Nat) :
    Stricter (compileForIncrement parse start) (compileForIncrement parse' start) := by
  simp only [compileForIncrement]
  infer_instance

instance : Stricter (compilePrint parse) (compilePrint parse') := by
  simp only [compilePrint]
  infer_instance

instance : Stricter (compileReturn parse) (compileReturn parse') := by
  simp only [compileReturn]
  infer_instance

section Bodies

variable [Stricter (parse .statement) (parse' .statement)]

instance : Stricter (compileIf parse) (compileIf parse') := by
  simp only [compileIf]
  infer_instance

instance : Stricter (compileWhile parse) (compileWhile parse') := by
  simp only [compileWhile]
  infer_instance

instance : Stricter (compileFor parse) (compileFor parse') := by
  have hexit : ∀ exit? : Option Nat, _ := maintains_exit (I := Erred) (D := fun _ => True)
  simp only [compileFor]
  infer_instance

end Bodies

section Blocks

variable [Stricter (parse .declaration) (parse' .declaration)]

instance : Stricter (compileBlock bound parse) (compileBlock bound parse') := by
  simp only [compileBlock]
  infer_instance

instance : Stricter (functionBody bound parse) (functionBody bound parse') := by
  simp only [functionBody]
  infer_instance

instance : Stricter (compileFunction bound parse) (compileFunction bound parse') := by
  simp only [compileFunction_eq]
  infer_instance

instance : Stricter (compileFun bound parse) (compileFun bound parse') := by
  simp only [compileFun]
  infer_instance

variable [Stricter (parse .statement) (parse' .statement)]

instance : Stricter (compileStatement bound parse) (compileStatement bound parse') := by
  simp only [compileStatement]
  infer_instance

instance : Stricter (declarationInside bound parse) (declarationInside bound parse') := by
  simp only [declarationInside, declarationBody]
  infer_instance

end Blocks

end Phrases

end Steps

/-! ## Programs with a lower limit -/

/-- What every phrase does, by induction on the fuel. -/
lemma stricter_parse (limit fuel : Nat) (p : Phrase) :
    Stricter (parse fuel p) (parseWithin limit fuel p) := by
  induction fuel generalizing p with
  | zero =>
    exact inferInstanceAs (Stricter (throw (.fault .tokensExhausted) : CompileM Unit)
      (throw (.fault .tokensExhausted)))
  | succ fuel ih =>
    cases p with
    | declaration =>
      rw [parse, parseWithin, compileDeclaration_eq]
      exact inferInstanceAs (Stricter (nested (declarationInside fuel (parse fuel))) _)
    | statement =>
      rw [parse, parseWithin]
      infer_instance
    | expression p =>
      rw [parse, parseWithin]
      exact inferInstanceAs (Stricter (nested (expressionInside fuel (parse fuel) p)) _)

lemma stricter_program (limit fuel : Nat) : Stricter (program fuel) (programWithin limit fuel) := by
  have := fun p => stricter_parse limit fuel p
  have hstep : Stricter (programStep fuel) (programStepWithin limit fuel) := by
    simp only [programStep, programStepWithin]
    infer_instance
  rw [program_eq, programWithin]
  infer_instance

end Compiler

open Compiler

/-- The source is accepted if the limit on nesting is this one. -/
def acceptedWithin (limit : Nat) (interactive : Bool) (source : Text) : Bool :=
  match (programWithin limit (fuelFor (tokenize source).length)).run
      ((Compiler.new interactive).start (tokenize source)) with
  | .ok _ s => s.errors.isEmpty
  | .error _ _ => false

/-- With the compiler's own limit, what is accepted is what the compiler accepts. -/
lemma acceptedWithin_maxNesting (interactive : Bool) (source : Text) :
    acceptedWithin maxNesting interactive source ↔ ∃ p, compile interactive source = .script p := by
  rw [acceptedWithin, programWithin_maxNesting, compile, Compiler.compile, compileTokens]
  dsimp only [EStateM.run]
  cases program (fuelFor (tokenize source).length)
      ((Compiler.new interactive).start (tokenize source)) with
  | ok p s => cases hclean : s.errors.isEmpty <;> simp [hclean]
  | error e s => cases e <;> simp

/-- What is accepted with another limit is accepted, or rejected for its nesting alone. -/
lemma compile_of_acceptedWithin {limit : Nat} {interactive : Bool} {source : Text}
    (h : acceptedWithin limit interactive source) : (∃ p, compile interactive source = .script p) ∨
      ∃ line, compile interactive source = .rejected [⟨line, .nowhere, .limit .nesting⟩] := by
  unfold acceptedWithin at h
  split at h
  · rename_i p t hrun
    have hclean : ¬ Erred t := fun herred => herred (Array.isEmpty_iff.1 h)
    rcases (stricter_program limit _).spec _ p t hrun hclean with hsame | ⟨line, u, hdeep, hu⟩
    · exact .inl ⟨p, by rw [compile_of_program hsame, if_pos h]⟩
    · refine .inr ⟨line, ?_⟩
      rw [compile, Compiler.compile, compileTokens]
      dsimp only [EStateM.run]
      rw [hdeep]
      have hnone : u.errors = #[] := not_not.1 hu
      simp [hnone]
  · exact absurd h Bool.false_ne_true

end Lox
