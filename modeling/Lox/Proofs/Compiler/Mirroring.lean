import Lox.Proofs.Compiler.Prospect
import Lox.Proofs.Compiler.Reading

/-!
# Two compilations of one source

A source is compiled, and the same source is compiled in another way: in the other mode, or with a
semicolon before its end, and perhaps with more fuel.  Up to the end of the source both compilations
look at the same tokens, so they do the same.  `State.onto` is the state of the other compilation,
and `Mirrors` says of a step that, if it completes without an error, the other compilation's step
has the same result.

This file has the vocabulary and the expressions.  An expression never looks at a semicolon or the
end, except to stop there, so the compilations agree on expressions altogether.
-/

namespace Lox.Compiler

open FunctionScope

/-! ## Sources that go on -/

/-- What is to come in another compilation, which goes on like `x` where this one ends. -/
def State.toward (s : State) (x : Prospect) : Prospect where
  interactive := x.interactive
  current := if s.current.kind = .eof then x.current else s.current
  rest := if s.current.kind = .eof then x.rest else s.rest.dropLast ++ x.current :: x.rest

/-- The state of the other compilation. -/
def State.onto (s : State) (x : Prospect) : State :=
  s.facing (s.toward x)

/-- The tokens to come end with `e`, and only with it. -/
structure Ends (mode : Bool) (e : Token) (s : State) : Prop where
  interactive : s.interactive = mode
  last : s.current.kind = .eof → s.current = e ∧ s.rest = []
  rest : s.current.kind ≠ .eof → ∃ ts, s.rest = ts ++ [e] ∧ ∀ t ∈ ts, t.kind ≠ .eof

/-- How the other compilation may go on.  Either it is another mode in which the source ends here,
or a semicolon comes before the end of its source. -/
inductive Prospect.Fits (mode : Bool) (e : Token) : Prospect → Prop
  | same : Fits mode e ⟨!mode, e, []⟩
  | semicolon {t e' : Token} : mode = true → t.kind = .semicolon → e'.kind = .eof →
      Fits mode e ⟨false, t, [e']⟩

section Mirrors

variable {α β : Type} {mode : Bool} {e : Token} {s t : State} {x : Prospect}

lemma toward_congr (h : t.prospect = s.prospect) : t.toward x = s.toward x := by
  have hcurrent : t.current = s.current := congrArg Prospect.current h
  have hrest : t.rest = s.rest := congrArg Prospect.rest h
  rw [State.toward, State.toward, hcurrent, hrest]

lemma Ends.of_prospect (hs : Ends mode e s) (h : t.prospect = s.prospect) : Ends mode e t := by
  have hmode : t.interactive = s.interactive := congrArg Prospect.interactive h
  have hcurrent : t.current = s.current := congrArg Prospect.current h
  have hrest : t.rest = s.rest := congrArg Prospect.rest h
  constructor
  · exact hmode.trans hs.interactive
  · rw [hcurrent, hrest]
    exact hs.last
  · rw [hcurrent, hrest]
    exact hs.rest

/-- If the step completes without an error, then the step of the other compilation has the same
result, and leaves the state that corresponds. -/
def Mirrors (mode : Bool) (e : Token) (f : CompileM α) (f' : Prospect → CompileM α) (s : State) :
    Prop :=
  Yields f s fun a t => Ends mode e t ∧ ∀ x, x.Fits mode e → f' x (s.onto x) = .ok a (t.onto x)

namespace Mirrors

variable {f : CompileM α} {f' : Prospect → CompileM α} {g : α → CompileM β}
  {g' : α → Prospect → CompileM β} {a : α}

lemma bind [Steady f] [∀ a, Steady (g a)] (h : Mirrors mode e f f' s)
    (h' : ∀ a t, Ends mode e t → Mirrors mode e (g a) (g' a) t) :
    Mirrors mode e (f >>= g) (fun x => f' x >>= fun a => g' a x) s := by
  refine Yields.bind h fun a t _ ⟨ht, hf'⟩ => (h' a t ht).mono fun b u ⟨hu, hg'⟩ =>
    ⟨hu, fun x hx => ?_⟩
  show (f' x >>= fun a => g' a x) (s.onto x) = _
  rw [bind_apply, hf' x hx]
  exact hg' x hx

/-- A first step whose result is known. -/
lemma step [Steady f] (h : f s = .ok a t) (h' : ∀ x, x.Fits mode e → f' x (s.onto x) = .ok a (t.onto x))
    (hg : Mirrors mode e (g a) (g' a) t) :
    Mirrors mode e (f >>= g) (fun x => f' x >>= fun a => g' a x) s := by
  refine Yields.step h fun _ => hg.mono fun b u ⟨hu, hg'⟩ => ⟨hu, fun x hx => ?_⟩
  show (f' x >>= fun a => g' a x) (s.onto x) = _
  rw [bind_apply, h' x hx]
  exact hg' x hx

/-- A step that cannot complete without an error. -/
lemma absurd (h : Yields f s fun _ _ => False) : Mirrors mode e f f' s :=
  h.mono fun _ _ h => h.elim

lemma heedless [Heedless f] (hs : Ends mode e s) : Mirrors mode e f (fun _ => f) s := by
  intro _ a t h _
  have hprospect := Heedless.prospect_eq h
  refine ⟨hs.of_prospect hprospect, fun x _ => ?_⟩
  rw [State.onto, State.onto, toward_congr hprospect]
  exact Heedless.apply h _

/-- A heedless first step. -/
lemma heed [Heedless f] [Steady f] [∀ a, Steady (g a)] (hs : Ends mode e s)
    (h' : ∀ a t, Ends mode e t → Mirrors mode e (g a) (g' a) t) :
    Mirrors mode e (f >>= g) (fun x => f >>= fun a => g' a x) s :=
  bind (heedless hs) h'

lemma ite {c : Prop} [Decidable c] {f₁ f₂ : CompileM α} {f₁' f₂' : Prospect → CompileM α}
    (h₁ : c → Mirrors mode e f₁ f₁' s) (h₂ : ¬ c → Mirrors mode e f₂ f₂' s) :
    Mirrors mode e (if c then f₁ else f₂) (fun x => if c then f₁' x else f₂' x) s := by
  by_cases h : c
  · simp only [if_pos h]
    exact h₁ h
  · simp only [if_neg h]
    exact h₂ h

end Mirrors

lemma Prospect.Fits.kind (he : e.kind = .eof) (h : x.Fits mode e) :
    x.current.kind = .eof ∨ x.current.kind = .semicolon := by
  cases h with
  | same => exact .inl he
  | semicolon _ ht _ => exact .inr ht

/-- The other compilation looks at the same token, but it may see a semicolon at the end. -/
lemma current_onto (he : e.kind = .eof) {k : Token.Kind} (hend : k ≠ .eof)
    (hsemicolon : s.current.kind = .eof → k ≠ .semicolon) (hx : x.Fits mode e) :
    (s.onto x).current.kind = k ↔ s.current.kind = k := by
  show (if s.current.kind = .eof then x.current else s.current).kind = k ↔ _
  split
  · rename_i hs
    rw [hs]
    rcases hx.kind he with h | h
    · rw [h]
    · rw [h]
      exact ⟨fun hk => absurd hk.symm (hsemicolon hs), fun hk => absurd hk.symm hend⟩
  · rfl

/-- Both compilations consume the same token. -/
lemma advance_facing (he : e.kind = .eof) (hsane : Sane s) (hmode : s.interactive = mode)
    {ts : List Token} (hrest : s.rest = ts ++ [e]) (hts : ∀ t ∈ ts, t.kind ≠ .eof)
    (hclean : s.advance.errors.toList = []) :
    Ends mode e s.advance ∧ ∀ x, x.Fits mode e →
      (s.facing ⟨x.interactive, s.current, ts ++ x.current :: x.rest⟩).advance = s.advance.onto x := by
  cases ts with
  | nil =>
    rw [advance_of_rest hrest (by simp [he])]
    refine ⟨⟨hmode, fun _ => ⟨rfl, rfl⟩, fun h => absurd he h⟩, fun x hx => ?_⟩
    have hkind : ∀ why, x.current.kind ≠ .error why := by
      rcases hx.kind he with h | h <;> simp [h]
    rw [advance_of_rest rfl hkind, State.onto, State.toward, if_pos he, if_pos he]
    rfl
  | cons u us =>
    have hkind : ∀ why, u.kind ≠ .error why := fun why hwhy =>
      shift_error_ne_nil hsane hrest hwhy hclean
    have hu : u.kind ≠ .eof := hts u List.mem_cons_self
    rw [advance_of_rest hrest hkind]
    refine ⟨⟨hmode, fun h => absurd h hu, fun _ =>
      ⟨us, rfl, fun t ht => hts t (List.mem_cons_of_mem _ ht)⟩⟩, fun x _ => ?_⟩
    have hlast : (us.append [e]).dropLast = us := List.dropLast_concat
    rw [advance_of_rest rfl hkind, State.onto, State.toward, if_neg hu, if_neg hu, hlast]
    rfl

/-- Before the end both compilations look at the same token, and they consume it. -/
lemma advance_onto (he : e.kind = .eof) (hsane : Sane s) (hs : Ends mode e s)
    (hcurrent : s.current.kind ≠ .eof) (hclean : s.advance.errors.toList = []) :
    Ends mode e s.advance ∧ ∀ x, x.Fits mode e → (s.onto x).advance = s.advance.onto x := by
  obtain ⟨ts, hrest, hts⟩ := hs.rest hcurrent
  obtain ⟨hends, honto⟩ := advance_facing he hsane hs.interactive hrest hts hclean
  refine ⟨hends, fun x hx => ?_⟩
  have hdrop : s.rest.dropLast = ts := by rw [hrest, List.dropLast_concat]
  rw [← honto x hx, State.onto, State.toward, if_neg hcurrent, if_neg hcurrent, hdrop]

lemma mirrors_advance (he : e.kind = .eof) (hs : Ends mode e s) (hcurrent : s.current.kind ≠ .eof) :
    Mirrors mode e advance (fun _ => advance) s := by
  intro hsane _ t h ht
  cases h
  obtain ⟨hends, honto⟩ := advance_onto he hsane hs hcurrent ht
  exact ⟨hends, fun x hx => congrArg (EStateM.Result.ok ()) (honto x hx)⟩

lemma Mirrors.check (he : e.kind = .eof) {k : Token.Kind} (hend : k ≠ .eof)
    (hsemicolon : s.current.kind = .eof → k ≠ .semicolon) {g : Bool → CompileM β} {g' : Bool → Prospect → CompileM β}
    (hg : ∀ b, b = decide (s.current.kind = k) → Mirrors mode e (g b) (g' b) s) :
    Mirrors mode e (check k >>= g) (fun x => check k >>= fun b => g' b x) s := by
  refine .step (check_apply k s) (fun x hx => ?_) (hg _ rfl)
  rw [check_apply, decide_eq_decide.2 (current_onto he hend hsemicolon hx)]

lemma mirrors_accept (he : e.kind = .eof) {k : Token.Kind} (hend : k ≠ .eof)
    (hsemicolon : s.current.kind = .eof → k ≠ .semicolon) (hs : Ends mode e s) :
    Mirrors mode e (accept k) (fun _ => accept k) s := by
  intro hsane a t h ht
  rw [accept_apply] at h
  split at h
  · rename_i hk
    cases h
    obtain ⟨hends, honto⟩ := advance_onto he hsane hs (hk ▸ hend) ht
    refine ⟨hends, fun x hx => ?_⟩
    beta_reduce
    rw [accept_apply, if_pos ((current_onto he hend hsemicolon hx).2 hk), honto x hx]
  · rename_i hk
    cases h
    refine ⟨hs, fun x hfits => ?_⟩
    beta_reduce
    rw [accept_apply, if_neg (mt (current_onto he hend hsemicolon hfits).1 hk)]

lemma mirrors_consume (he : e.kind = .eof) {k : Token.Kind} (hend : k ≠ .eof) (w : Expected)
    (hs : Ends mode e s) : Mirrors mode e (consume k w) (fun _ => consume k w) s := by
  intro hsane a t h ht
  rw [consume_apply] at h
  split at h
  · rename_i hk
    cases h
    have hcurrent : s.current.kind ≠ .eof := hk ▸ hend
    obtain ⟨hends, hx⟩ := mirrors_advance he hs hcurrent hsane () _ rfl ht
    refine ⟨hends, fun x hfits => ?_⟩
    have hsame : (s.onto x).current = s.current := if_neg hcurrent
    beta_reduce
    rw [consume_apply, hsame, if_pos hk]
    exact hx x hfits
  · cases h
    exact absurd ht (hsane.report_errors_ne_nil _ _)

/-- A look at the state. -/
lemma Mirrors.get {g : State → CompileM β} {g' : State → Prospect → CompileM β}
    (h : Mirrors mode e (g s) (fun x => g' (s.onto x) x) s) :
    Mirrors mode e (MonadState.get >>= g) (fun x => MonadState.get >>= fun s => g' s x) s := h

lemma Mirrors.nested {f : CompileM Unit} {f' : Prospect → CompileM Unit}
    (h : Mirrors mode e f f' { s with nesting := s.nesting + 1 }) :
    Mirrors mode e (nested f) (fun x => nested (f' x)) s := by
  intro hsane a t hrun ht
  rw [nested_apply] at hrun
  split at hrun
  · cases hrun
  · rename_i hroom
    split at hrun
    · rename_i u hu
      cases hrun
      obtain ⟨hends, honto⟩ := h ⟨hsane.reported, hsane.fed⟩ _ u hu ht
      refine ⟨hends.of_prospect rfl, fun x hx => ?_⟩
      have hnesting : (s.onto x).nesting = s.nesting := rfl
      have hinside : f' x { s.onto x with nesting := s.nesting + 1 } = .ok () (u.onto x) := honto x hx
      beta_reduce
      rw [nested_apply, hnesting, if_neg hroom, hinside]
      rfl
    · cases hrun

/-- There is no expression at the end. -/
lemma yields_compileExpression_of_end {fuel bound : Nat} {p : Precedence}
    (hs : s.current.kind = .eof) :
    Yields (compileExpression bound (parse fuel) p) s fun _ _ => False := by
  have hopened := steady_opened fuel bound p
  refine .nested fun _ => .step (advance_apply _) fun _ => .step (get_apply _) fun _ => ?_
  have hprevious : ({ s with nesting := s.nesting + 1 } : State).advance.previous = s.current :=
    advance_previous _
  rw [hprevious, hs]
  exact .error _ _

end Mirrors

/-! ## Expressions -/

section Expressions

variable {mode : Bool} {e : Token} {fuel : Nat} {more : Prospect → Nat}

/-- The expressions inside are compiled alike.  The other compilation may have more fuel. -/
def MirrorsExprs (mode : Bool) (e : Token) (more : Prospect → Nat) (fuel : Nat) : Prop :=
  ∀ p s, Ends mode e s → Mirrors mode e (parse fuel (.expression p))
    (fun x => parse (more x + fuel) (.expression p)) s

variable (he : e.kind = .eof) (hparse : MirrorsExprs mode e more fuel)

include hparse in
lemma mirrors_expression {s : State} (hs : Ends mode e s) :
    Mirrors mode e (expression (parse fuel)) (fun x => expression (parse (more x + fuel))) s :=
  hparse .assignment s hs

include he hparse

lemma mirrors_compileVariable (canAssign : Bool) {s : State} (hs : Ends mode e s) :
    Mirrors mode e (compileVariable (parse fuel) canAssign)
      (fun x => compileVariable (parse (more x + fuel)) canAssign) s := by
  refine .get (.heed hs fun a t ht => .check he (by simp) (by simp) ?_)
  rintro _ rfl
  refine .ite (fun hassign => ?_) fun _ => .heedless ht
  simp only [Bool.and_eq_true, decide_eq_true_eq] at hassign
  refine .bind (mirrors_advance he ht (by simp [hassign.2])) fun _ u hu => ?_
  exact .bind (mirrors_expression hparse hu) fun _ v hv => .heedless hv

lemma mirrors_compileOpening (canAssign : Bool) (o : Opening) {s : State} (hs : Ends mode e s) :
    Mirrors mode e (compileOpening (parse fuel) canAssign o)
      (fun x => compileOpening (parse (more x + fuel)) canAssign o) s := by
  cases o with
  | grouping =>
    exact .bind (mirrors_expression hparse hs) fun _ t ht => mirrors_consume he (by simp) _ ht
  | unary op =>
    exact .heed hs fun line t ht => .bind (hparse _ t ht) fun _ u hu => .heedless hu
  | «variable» => exact mirrors_compileVariable he hparse canAssign hs
  | string => exact .heedless (f := compileString) hs
  | number => exact .heedless (f := compileNumber) hs
  | literal op => exact .heedless (f := emitOp op) hs
  | unsupported what => exact .absurd (.error _ _)

/-- The arguments of a call from the `count`-th on. -/
lemma mirrors_compileArguments (bound count : Nat) {s : State} (hs : Ends mode e s) :
    Mirrors mode e (compileArguments (parse fuel) bound count)
      (fun x => compileArguments (parse (more x + fuel)) (more x + bound) count) s := by
  induction bound generalizing count s with
  | zero => exact .absurd fun _ _ _ h => nomatch h
  | succ bound ih =>
    show Mirrors mode e (compileArguments (parse fuel) (bound + 1) count)
      (fun x => compileArguments (parse (more x + fuel)) ((more x + bound) + 1) count) s
    simp only [compileArguments]
    refine .bind (mirrors_expression hparse hs) fun _ t ht => ?_
    refine .ite (fun _ => .absurd (.error_bind _)) fun _ => ?_
    refine .bind (mirrors_accept he (by simp) (by simp) ht) fun b u hu => ?_
    exact .ite (fun _ => ih (count + 1) hu) fun _ => .heedless hu

lemma mirrors_compileCall (bound : Nat) {s : State} (hs : Ends mode e s) :
    Mirrors mode e (compileCall bound (parse fuel))
      (fun x => compileCall (more x + bound) (parse (more x + fuel))) s := by
  have hend : ∀ (line : UInt32) (count : Nat) t, Ends mode e t → Mirrors mode e
      (consume .rightParen .parenAfterArguments >>= fun _ => emitOpAt .call line >>= fun _ =>
        emitByte (min count maxArguments).toUInt8)
      (fun _ => consume .rightParen .parenAfterArguments >>= fun _ => emitOpAt .call line >>= fun _ =>
        emitByte (min count maxArguments).toUInt8) t := fun line count t ht =>
    .bind (mirrors_consume he (by simp) _ ht) fun _ u hu => .heedless hu
  refine .heed hs fun line t ht => .check he (by simp) (by simp) fun b _ => ?_
  refine .ite (fun _ => hend line 0 t ht) fun _ => ?_
  exact .bind (mirrors_compileArguments he hparse bound 0 ht) fun count u hu => hend line count u hu

lemma mirrors_compileContinuation (bound : Nat) (c : Continuation) {s : State} (hs : Ends mode e s) :
    Mirrors mode e (compileContinuation bound (parse fuel) c)
      (fun x => compileContinuation (more x + bound) (parse (more x + fuel)) c) s := by
  cases c with
  | binary op p =>
    exact .heed hs fun line t ht => .bind (hparse _ t ht) fun _ u hu => .heedless hu
  | and =>
    exact .heed hs fun _ t ht => .heed ht fun _ u hu => .bind (hparse _ u hu) fun _ v hv =>
      .heedless hv
  | or =>
    exact .heed hs fun _ t ht => .heed ht fun _ u hu => .heed hu fun _ v hv => .heed hv fun _ w hw =>
      .bind (hparse _ w hw) fun _ _ h => .heedless h
  | call => exact mirrors_compileCall he hparse bound hs
  | unsupported what => exact .absurd (.error _ _)

/-- Neither a semicolon nor the end continues an expression. -/
lemma mirrors_continueExpression (bound : Nat) (p : Precedence) {s : State} (hs : Ends mode e s) :
    Mirrors mode e (continueExpression bound (parse fuel) p)
      (fun x => continueExpression (more x + bound) (parse (more x + fuel)) p) s := by
  by_cases hend : s.current.kind = .eof
  · refine .of_ok (a := false) (t := s) ?_ ⟨hs, fun x hx => ?_⟩
    · rw [continueExpression, bind_apply, currentKind_apply, hend]
      rfl
    · have hcurrent : (s.onto x).current = x.current := if_pos hend
      beta_reduce
      rw [continueExpression, bind_apply, currentKind_apply, hcurrent]
      rcases hx.kind he with h | h <;> rw [h] <;> rfl
  · refine .step (currentKind_apply s) (fun x _ => ?_) ?_
    · have hcurrent : (s.onto x).current = s.current := if_neg hend
      rw [currentKind_apply, hcurrent]
    · cases s.current.kind.continuation? with
      | none => exact .heedless (f := pure false) hs
      | some c =>
        refine .ite (fun _ => ?_) fun _ => .heedless (f := pure false) hs
        refine .bind (mirrors_advance he hs hend) fun _ t ht => ?_
        exact .bind (mirrors_compileContinuation he hparse bound c ht) fun _ u hu => .heedless hu

omit hparse he in
lemma mirrors_loop {step : CompileM Bool} {step' : Prospect → CompileM Bool} [Steady step]
    (hstep : ∀ s, Ends mode e s → Mirrors mode e step step' s) (bound : Nat) {s : State}
    (hs : Ends mode e s) :
    Mirrors mode e (loop bound step) (fun x => loop (more x + bound) (step' x)) s := by
  induction bound generalizing s with
  | zero => exact .absurd fun _ _ _ h => nomatch h
  | succ bound ih =>
    show Mirrors mode e (loop (bound + 1) step) (fun x => loop ((more x + bound) + 1) (step' x)) s
    simp only [loop]
    exact .bind (hstep s hs) fun b t ht => .ite (fun _ => ih ht) fun _ => .heedless ht

lemma mirrors_compileExpression (bound : Nat) (p : Precedence) {s : State} (hs : Ends mode e s) :
    Mirrors mode e (compileExpression bound (parse fuel) p)
      (fun x => compileExpression (more x + bound) (parse (more x + fuel)) p) s := by
  by_cases hend : s.current.kind = .eof
  · exact .absurd (yields_compileExpression_of_end hend)
  have hopened := steady_opened fuel bound p
  have hinside : Ends mode e { s with nesting := s.nesting + 1 } := hs.of_prospect rfl
  refine .nested (.bind (mirrors_advance he hinside hend) fun _ t ht => .get ?_)
  have hprevious : ∀ x, (t.onto x).previous = t.previous := fun _ => rfl
  simp only [hprevious]
  cases t.previous.kind.opening? with
  | none => exact .absurd (.error _ _)
  | some opening =>
    refine .bind (mirrors_compileOpening he hparse _ opening ht) fun _ u hu => ?_
    refine .bind (mirrors_loop (fun s hs => mirrors_continueExpression he hparse bound p hs) bound hu)
      fun _ v hv => ?_
    refine .ite (fun _ => ?_) fun _ => .heedless hv
    refine .bind (mirrors_accept he (by simp) (by simp) hv) fun b w hw => ?_
    exact .ite (fun _ => .absurd (.error _ _)) fun _ => .heedless hw

end Expressions

end Lox.Compiler
