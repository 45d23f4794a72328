import Lox.Proofs.Compiler.Keeping
import Lox.Proofs.Compiler.Reuse
import Lox.Proofs.Lexer.Tiling

/-!
# The order of errors

An error is reported at the token just consumed or at the one being looked at, and the lexer's errors
are reported one token ahead of either.  Still the errors come in the order of their lines.  What
holds between any two steps is `InOrder`: no error is on a later line than the token being looked at.
To report an error at the token just consumed, more is needed, `Poised`: the errors so far are not even
beyond that token, unless a panic suppresses the report.  Whatever is reported begins a panic, and
consuming a token moves both tokens on, so either makes the compilation poised; only the end of a
panic undoes that.

A declaration may therefore begin in order only, but the phrases inside it first consume a token, or
report that it is missing (`Readies`), and from there on all is poised.
-/

namespace Lox

namespace Compiler

/-! ## What holds of the errors and the tokens -/

/-- The order of two lines, if `fits` says that no line of the source is beyond what its counter can
hold.  Otherwise nothing is said of them. -/
def Precedes (fits : Prop) (k l : UInt32) : Prop := fits → k ≤ l

/-- The tokens and the errors are in the order of their lines, and the errors are not beyond the current
token. -/
structure InOrder (fits : Prop) (s : State) : Prop where
  tokens : (s.current :: s.rest).Pairwise fun t u => Precedes fits t.line u.line
  previous : Precedes fits s.previous.line s.current.line
  errors : s.errors.toList.Pairwise fun e f => Precedes fits e.line f.line
  behind : ∀ e ∈ s.errors.toList, Precedes fits e.line s.current.line
  ordinary : ∀ e ∈ s.errors.toList, e.cause.Ordinary

/-- An error may be reported at the token just consumed. -/
structure Poised (fits : Prop) (s : State) : Prop extends InOrder fits s where
  consumed : s.panicking = true ∨ ∀ e ∈ s.errors.toList, Precedes fits e.line s.previous.line

section States

variable {fits : Prop} {s : State} {t : Token} {c : CompileError.Cause} {k l m : UInt32}

@[refl] lemma Precedes.refl (k : UInt32) : Precedes fits k k :=
  fun _ => UInt32.le_refl k

lemma Precedes.trans (h : Precedes fits k l) (h' : Precedes fits l m) : Precedes fits k m :=
  fun hfits => UInt32.le_trans (h hfits) (h' hfits)

/-- Whatever is reported, it begins a panic. -/
lemma InOrder.report (hs : InOrder fits s) (ht : Precedes fits t.line s.current.line)
    (hlast : s.panicking = true ∨ ∀ e ∈ s.errors.toList, Precedes fits e.line t.line)
    (hc : c.Ordinary) : Poised fits (s.report t c) := by
  rw [State.report]
  split
  · rename_i hpanicking
    exact ⟨hs, .inl hpanicking⟩
  · rename_i hcalm
    have hlast : ∀ e ∈ s.errors.toList, Precedes fits e.line t.line := hlast.resolve_left hcalm
    refine ⟨⟨hs.tokens, hs.previous, ?errors, ?behind, ?ordinary⟩, .inl rfl⟩
    all_goals rw [Array.toList_push]
    case errors =>
      refine List.pairwise_append.2 ⟨hs.errors, List.pairwise_singleton _ _, fun e he f hf => ?_⟩
      rw [List.mem_singleton.1 hf]
      exact hlast e he
    case behind => exact List.forall_mem_append.2 ⟨hs.behind, List.forall_mem_singleton.2 ht⟩
    case ordinary => exact List.forall_mem_append.2 ⟨hs.ordinary, List.forall_mem_singleton.2 hc⟩

lemma InOrder.errorAtCurrent (hs : InOrder fits s) (hc : c.Ordinary) : Poised fits (s.report s.current c) :=
  hs.report (Precedes.refl _) (.inr hs.behind) hc

lemma Poised.error (hs : Poised fits s) (hc : c.Ordinary) : Poised fits (s.report s.previous c) :=
  hs.report hs.previous hs.consumed hc

/-- Looking at the next token. -/
lemma Poised.next {u : Token} {us : List Token} (hs : Poised fits s) (hrest : s.rest = u :: us) :
    Poised fits { s with current := u, rest := us } := by
  obtain ⟨⟨htokens, hprevious, herrors, hbehind, hordinary⟩, hconsumed⟩ := hs
  rw [hrest] at htokens
  obtain ⟨hfirst, htokens⟩ := List.pairwise_cons.1 htokens
  have hle : Precedes fits s.current.line u.line := hfirst u (List.mem_cons_self ..)
  exact ⟨⟨htokens, hprevious.trans hle, herrors, fun e he => (hbehind e he).trans hle, hordinary⟩,
    hconsumed⟩

lemma report_with_rest (s : State) (t : Token) (c : CompileError.Cause) (ts : List Token) :
    { s with rest := ts }.report t c = { s.report t c with rest := ts } := by
  have hpanicking : { s with rest := ts }.panicking = s.panicking := rfl
  rw [State.report, State.report, hpanicking]
  split <;> rfl

/-- The lexer's errors are passed over on the way to the next token. -/
lemma poised_shift {ts : List Token} (hs : Poised fits { s with current := t, rest := ts }) :
    Poised fits (State.shift (t :: ts) s) := by
  induction ts generalizing s t with
  | nil =>
    rw [State.shift]
    split
    · rename_i why _
      have hreport := hs.errorAtCurrent (c := .lexical why) inferInstance
      rwa [report_with_rest { s with current := t }] at hreport
    · exact hs
  | cons u us ih =>
    rw [State.shift]
    split
    · rename_i why _
      have hreport := hs.errorAtCurrent (c := .lexical why) inferInstance
      rw [report_with_rest { s with current := t }] at hreport
      exact ih (hreport.next rfl)
    · exact hs

lemma InOrder.advance (hs : InOrder fits s) : Poised fits s.advance := by
  have hconsumed : Poised fits { s with previous := s.current } :=
    ⟨⟨hs.tokens, Precedes.refl _, hs.errors, hs.behind, hs.ordinary⟩, .inr hs.behind⟩
  cases hrest : s.rest with
  | nil => rwa [advance_of_rest_nil hrest]
  | cons t ts =>
    rw [State.advance, hrest]
    exact poised_shift (hconsumed.next hrest)

instance : Durable (Poised fits) (InOrder fits) where
  left hs := hs.toInOrder
  scope hs _ _ := ⟨⟨hs.tokens, hs.previous, hs.errors, hs.behind, hs.ordinary⟩, hs.consumed⟩
  nesting hs _ := ⟨⟨hs.tokens, hs.previous, hs.errors, hs.behind, hs.ordinary⟩, hs.consumed⟩
  advance hs := hs.toInOrder.advance
  error hs _ hc := hs.error hc
  errorAtCurrent hs _ hc := hs.toInOrder.errorAtCurrent hc

end States

/-! ## Steps -/

section Steps

variable {fits : Prop} {α β : Type}

instance : Maintains (InOrder fits) (InOrder fits) advance := .modify fun _ hs => hs.advance.toInOrder

/-- The end of a panic. -/
instance : Maintains (InOrder fits) (InOrder fits)
    (modify fun s => { s with panicking := false } : CompileM Unit) :=
  .modify fun _ hs => ⟨hs.tokens, hs.previous, hs.errors, hs.behind, hs.ordinary⟩

instance (bound : Nat) : Maintains (InOrder fits) (InOrder fits) (synchronize bound) := by
  rw [synchronize]
  infer_instance

/-- After the step an error may be reported at the token just consumed. -/
def Readies (fits : Prop) (f : CompileM α) : Prop :=
  ∀ s, InOrder fits s → Attains (InOrder fits) f s fun _ t => Poised fits t

lemma Readies.maintains {f : CompileM α} (hf : Readies fits f) :
    Maintains (Poised fits) (InOrder fits) f :=
  ⟨fun s hs => hf s hs.toInOrder⟩

lemma Readies.bind {f : CompileM α} {g : α → CompileM β}
    [∀ a, Maintains (Poised fits) (InOrder fits) (g a)] (hf : Readies fits f) :
    Readies fits (f >>= g) :=
  fun s hs => (hf s hs).bind fun _ t _ ht => Maintains.spec t ht

/-- If the token is there, then it is consumed. -/
lemma attains_accept {k : Token.Kind} {f g : CompileM β} {s : State} {Q : β → State → Prop}
    (hs : InOrder fits s) (hf : ∀ t, Poised fits t → Attains (InOrder fits) f t Q)
    (hg : Attains (InOrder fits) g s Q) :
    Attains (InOrder fits) (accept k >>= fun b => if b then f else g) s Q := by
  have hrun := accept_apply k s
  split at hrun
  · exact .step hrun (hf _ hs.advance)
  · exact .step hrun hg

lemma Readies.accept {k : Token.Kind} {f g : CompileM β}
    [Maintains (Poised fits) (InOrder fits) f] (hg : Readies fits g) :
    Readies fits (accept k >>= fun b => if b then f else g) :=
  fun s hs => attains_accept hs (fun t ht => Maintains.spec t ht) (hg s hs)

lemma readies_consume (k : Token.Kind) (w : Expected) : Readies fits (consume k w) := by
  intro s hs
  refine .of_ok (consume_apply k w s) ?_
  split
  · exact hs.advance
  · exact hs.errorAtCurrent inferInstance

/-! ## Phrases -/

lemma readies_compileExpression (bound : Nat) (parse : Parts) (p : Precedence)
    [∀ p, Maintains (Poised fits) (InOrder fits) (parse (.expression p))] :
    Readies fits (compileExpression bound parse p) := by
  refine fun s hs => .nested hs (.step (advance_apply _) (.step (get_apply _) ?_))
  have hinside : InOrder fits { s with nesting := s.nesting + 1 } :=
    ⟨hs.tokens, hs.previous, hs.errors, hs.behind, hs.ordinary⟩
  have hopened : ∀ s, Maintains (Poised fits) (InOrder fits) _ := maintains_opened bound parse p
  exact ((hopened _).spec _ hinside.advance).mono fun _ t ht => Durable.nesting ht _

section Phrases

variable {parse : Parts} [∀ p, Maintains (Poised fits) (InOrder fits) (parse (.expression p))]
  [Maintains (Poised fits) (InOrder fits) (parse .statement)]
  [Maintains (InOrder fits) (InOrder fits) (parse .declaration)]

omit [∀ p, Maintains (Poised fits) (InOrder fits) (parse (.expression p))]
  [Maintains (Poised fits) (InOrder fits) (parse .statement)] in
/-- A block begins in order, and then either its closing brace is consumed or it is missing. -/
lemma readies_compileBlock (bound : Nat) : Readies fits (compileBlock bound parse) := by
  have hloop : Maintains (InOrder fits) (InOrder fits) (loop bound (blockStep parse)) := by
    have : Maintains (InOrder fits) (InOrder fits) (blockStep parse) := by
      rw [blockStep]
      infer_instance
    infer_instance
  exact fun s hs => (hloop.spec s hs).bind fun _ t _ ht => readies_consume _ _ t ht

instance (bound : Nat) : Maintains (Poised fits) (InOrder fits) (compileBlock bound parse) :=
  (readies_compileBlock bound).maintains

lemma readies_compileStatement (bound : Nat) (hparse : Readies fits (expression parse)) :
    Readies fits (compileStatement bound parse) := by
  simp only [compileStatement]
  exact .accept (.accept (.accept (.accept (.accept (.accept (.bind hparse))))))

/-- A class is refused at its name, and its body passed over. -/
lemma attains_refuseClass (bound : Nat) {s : State} (hs : Poised fits s) :
    Attains (InOrder fits) (refuseClass bound) s fun _ t => InOrder fits t := by
  have hbody : Maintains (InOrder fits) (InOrder fits) (accept .leftBrace >>= fun b =>
      if b then skipBraces bound 1 >>= fun _ => modify fun s => { s with panicking := false }
      else modify fun s => { s with panicking := false }) := inferInstance
  exact .step (error_apply _ s) (Maintains.spec _ (hs.error inferInstance).toInOrder)

omit [Maintains (Poised fits) (InOrder fits) (parse .statement)] in
lemma maintains_compileDeclaration (bound : Nat) (hparse : Readies fits (parse .statement)) :
    Maintains (InOrder fits) (InOrder fits) (compileDeclaration bound parse) := by
  have hbody : ∀ s, InOrder fits s →
      Attains (InOrder fits) (declarationBody bound parse) s fun _ t => InOrder fits t := by
    intro s hs
    rw [declarationBody]
    refine attains_accept hs (fun t ht => attains_refuseClass bound ht) ?_
    refine attains_accept hs (fun t ht => ?_) (attains_accept hs (fun t ht => ?_) ?_)
    · exact (Maintains.spec t ht).mono fun _ _ => Poised.toInOrder
    · exact (Maintains.spec t ht).mono fun _ _ => Poised.toInOrder
    · exact (hparse s hs).mono fun _ _ => Poised.toInOrder
  have : Maintains (InOrder fits) (InOrder fits) (declarationBody bound parse) := ⟨hbody⟩
  rw [compileDeclaration_eq]
  refine ⟨fun s hs => .nested hs ?_⟩
  have hinside : InOrder fits { s with nesting := s.nesting + 1 } :=
    ⟨hs.tokens, hs.previous, hs.errors, hs.behind, hs.ordinary⟩
  exact (Maintains.spec _ hinside).mono fun _ t ht =>
    ⟨ht.tokens, ht.previous, ht.errors, ht.behind, ht.ordinary⟩

end Phrases

/-- What every phrase does, by induction on the fuel. -/
structure Ordered (fits : Prop) (fuel : Nat) : Prop where
  expression : ∀ p, Readies fits (parse fuel (.expression p))
  statement : Readies fits (parse fuel .statement)
  declaration : Maintains (InOrder fits) (InOrder fits) (parse fuel .declaration)

lemma ordered (fits : Prop) (fuel : Nat) : Ordered fits fuel := by
  induction fuel with
  | zero =>
    have hfault : ∀ {Q : Unit → State → Prop} (p : Phrase) (s : State),
        Attains (InOrder fits) (parse 0 p) s Q :=
      fun _ s => .of_fault (throw_apply (.fault .tokensExhausted) s)
    exact ⟨fun _ s _ => hfault _ s, fun s _ => hfault _ s, ⟨fun s _ => hfault _ s⟩⟩
  | succ fuel ih =>
    have hexpression := fun p => (ih.expression p).maintains
    have hstatement := ih.statement.maintains
    have hdeclaration := ih.declaration
    exact ⟨fun p => readies_compileExpression fuel (parse fuel) p,
      readies_compileStatement fuel (ih.expression .assignment),
      maintains_compileDeclaration fuel ih.statement⟩

/-! ## Programs -/

/-- Looking at the first token of a source, no error is reported but the lexer's. -/
lemma poised_advance_start (interactive : Bool) (source : Text) :
    Poised (source.count Text.newline < 2 ^ 32 - 1)
      ((Compiler.new interactive).start (tokenize source)).advance := by
  have hsorted : (tokenize source).Pairwise fun t u =>
      Precedes (source.count Text.newline < 2 ^ 32 - 1) t.line u.line := by
    obtain ⟨hstands, hordered⟩ := ((tiles_iff source _).2 rfl).spans
    refine hordered.imp_of_mem fun ht hu hbehind hlines => ?_
    have hstart := (hstands _ ht).1.ordered.trans hbehind
    exact (hstands _ ht).1.line_mono (hstands _ hu).1 hlines hstart
  obtain ⟨t, ts, htokens⟩ := List.exists_cons_of_ne_nil (tokenize_ne_nil source)
  rw [htokens] at hsorted ⊢
  exact poised_shift ⟨⟨hsorted, fun _ => UInt32.le_iff_toNat_le.2 (Nat.zero_le _), .nil, nofun,
    nofun⟩, .inr nofun⟩

lemma attains_program {interactive : Bool} {ts : List Token} (fuel : Nat)
    (hstart : Poised fits ((Compiler.new interactive).start ts).advance) :
    Attains (InOrder fits) (program fuel) ((Compiler.new interactive).start ts)
      fun _ t => InOrder fits t := by
  have hdeclaration := (ordered fits fuel).declaration
  have hstep : Maintains (InOrder fits) (InOrder fits) (programStep fuel) := by
    rw [programStep]
    infer_instance
  have hloop : Maintains (InOrder fits) (InOrder fits) (loop fuel (programStep fuel)) :=
    inferInstance
  rw [program_eq]
  refine .step (advance_apply _) ((hloop.spec _ hstart.toInOrder).bind fun _ t _ ht => ?_)
  exact .of_ok (finishFunction_apply t)
    ⟨ht.tokens, ht.previous, ht.errors, ht.behind, ht.ordinary⟩

end Steps

end Compiler

/-- Only the error that ends a compilation has this text. -/
lemma CompileError.Cause.Ordinary.message_ne {c : CompileError.Cause} (hc : c.Ordinary) :
    c.message ≠ Limit.nesting.message := by
  cases c with
  | lexical why => cases why <;> decide +kernel
  | expected what => cases what <;> decide +kernel
  | invalidAssignmentTarget => decide +kernel
  | unsupported what => cases what <;> decide +kernel
  | static rule => cases rule <;> decide +kernel
  | limit which =>
    cases which with
    | nesting => exact absurd rfl hc.ne_nesting
    | _ => decide +kernel

/-- **Errors come in source order**: whatever sources a compiler has seen before, the errors of the next
one are in the order of their lines, and at most one more stands behind them, which says that
something is nested too deeply.  Lines are counted in words of 32 bits, so that their order is that
of the source as long as the source has fewer than `2 ^ 32` of them. -/
theorem compile_errors_ordered (interactive : Bool) (before : List Text) (source : Text) :
    ∃ ordered : List CompileError,
      (source.count Text.newline < 2 ^ 32 - 1 → ordered.Pairwise fun e f => e.line ≤ f.line) ∧
      (∀ e ∈ ordered, e.message ≠ Limit.nesting.message) ∧
      ((((Compiler.new interactive).compileAll before).compile source).1.errors = ordered ∨
        ∃ e, e.message = Limit.nesting.message ∧
          (((Compiler.new interactive).compileAll before).compile source).1.errors = ordered ++ [e]) := by
  obtain ⟨haround, hmode⟩ := Compiler.around_compileAll (c := .new interactive) rfl before
  rw [Compiler.compile_fst_eq haround, hmode, compile, Compiler.compile, Compiler.compileTokens]
  have hprogram := Compiler.attains_program (Compiler.fuelFor (tokenize source).length)
    (Compiler.poised_advance_start interactive source)
  have hlines : ∀ {s : Compiler.State}, Compiler.InOrder (source.count Text.newline < 2 ^ 32 - 1) s →
      source.count Text.newline < 2 ^ 32 - 1 →
      s.errors.toList.Pairwise fun e f => e.line ≤ f.line :=
    fun hs hfits => hs.errors.imp fun hprecedes => hprecedes hfits
  have hmessages : ∀ {s : Compiler.State},
      Compiler.InOrder (source.count Text.newline < 2 ^ 32 - 1) s →
      ∀ e ∈ s.errors.toList, e.message ≠ Limit.nesting.message :=
    fun hs e he => (hs.ordinary e he).message_ne
  dsimp only [EStateM.run, Compiler.new] at hprogram ⊢
  split
  · rename_i script s hrun
    have hs := hprogram.ok hrun
    refine ⟨s.errors.toList, hlines hs, hmessages hs, .inl ?_⟩
    split
    · rename_i hnone
      rw [Array.isEmpty_iff.1 hnone]
      rfl
    · rfl
  · rename_i line s hrun
    have hs := hprogram.tooDeep hrun
    exact ⟨s.errors.toList, hlines hs, hmessages hs, .inr ⟨_, rfl, Array.toList_push⟩⟩
  · exact ⟨[], fun _ => .nil, List.forall_mem_nil _, .inl rfl⟩

/-- Errors on two lines, and then the one that ends the compilation. -/
theorem compile_errors_ordered_nesting :
    let source : Text := ";;\n;" ++ List.replicate 256 '('.toUInt8
    source.count Text.newline < 2 ^ 32 - 1 ∧
    (compile false source).errors.map (fun e => (e.line, e.cause)) =
      [(1, .expected .expression), (2, .expected .expression), (2, .limit .nesting)] ∧
    ∃ ordered : List CompileError, ordered.Pairwise (fun e f => e.line ≤ f.line) ∧
      ((compile false source).errors = ordered ∨
        ∃ e, e.message = Limit.nesting.message ∧ (compile false source).errors = ordered ++ [e]) := by
  intro source
  have hlines : source.count Text.newline < 2 ^ 32 - 1 := by decide +kernel
  obtain ⟨ordered, hordered, -, herrors⟩ := compile_errors_ordered false [] source
  exact ⟨hlines, by decide +kernel, ordered, hordered hlines, herrors⟩

/-- Behind `2 ^ 32 - 2` line feeds, an error on the last line that can be counted comes before one on
the line after it, which is called line 0. -/
theorem compile_errors_wrap :
    let errors := (compile false (List.replicate (2 ^ 32 - 2) Text.newline ++ ";;\n;")).errors
    errors.map (·.line.toNat) = [2 ^ 32 - 1, 0] ∧
    (∀ e ∈ errors, e.message ≠ Limit.nesting.message) ∧
    ¬ errors.Pairwise fun e f => e.line ≤ f.line := by
  dsimp only
  rw [compile, Compiler.compile, tokenize_newlines]
  decide +kernel

end Lox
