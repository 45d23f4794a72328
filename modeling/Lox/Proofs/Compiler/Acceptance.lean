import Lox.Proofs.Grammar
import Lox.Proofs.Compiler.Advance

/-!
# Steps along a derivation

A source that the grammar derives may still be rejected, because it breaks a static rule or exceeds
a limit.  But then this is the first thing that is wrong with it: the compiler never misses a token
that the grammar promises.  `Accepts f s P` says so of one step: if it completes from `s` without an
error, then it establishes `P`, and otherwise the first error is beyond the grammar.

`Awaits s ts` says that no error was reported and that `ts` are the tokens to come.  Most steps leave
the tokens alone (`Silent`), and the others consume a token that is known to be there.  The
phrases of the grammar follow in `Lox.Proofs.Compiler.Acceptance.Expression` and
`Lox.Proofs.Compiler.Acceptance.Statement`.
-/

namespace Lox

/-- A well-formed program breaks a static rule or exceeds a limit. -/
def CompileError.Cause.BeyondGrammar : CompileError.Cause → Prop
  | .static _ | .limit _ => True
  | _ => False

namespace Compiler

/-! ## First errors -/

/-- There was an error, and the first one is beyond the grammar. -/
def State.Strays (s : State) : Prop :=
  ∃ e es, s.errors.toList = e :: es ∧ e.cause.BeyondGrammar

/-- The first error stays the first. -/
lemma State.Strays.of_prefix {s t : State} (h : s.Strays)
    (hfirst : s.errors.toList <+: t.errors.toList) : t.Strays := by
  obtain ⟨e, es, hes, hcause⟩ := h
  rw [hes] at hfirst
  obtain ⟨rest, hrest⟩ := hfirst
  exact ⟨e, es ++ rest, hrest.symm, hcause⟩

/-- These are the tokens to come, none of them with a lexical error, and no error was reported. -/
structure Awaits (s : State) (ts : List Token) : Prop where
  tokens : s.current :: s.rest = ts
  plain : ∀ t ∈ ts, t.IsPlain
  clean : s.errors.toList = []
  calm : s.panicking = false
  interactive : s.interactive = false

lemma Awaits.current {s : State} {t : Token} {ts : List Token} (h : Awaits s (t :: ts)) :
    s.current = t :=
  (List.cons.inj h.tokens).1

section Accepts

variable {α β : Type}

/-- If the step completes from `s` without an error, then it establishes `P`; if there is an error,
then the first one is beyond the grammar. -/
def Accepts (f : CompileM α) (s : State) (P : α → State → Prop) : Prop :=
  match f s with
  | .ok a t => t.errors.toList = [] ∧ P a t ∨ t.Strays
  | .error (.tooDeep _) t => t.errors.toList = [] ∨ t.Strays
  | .error (.fault _) _ => True

namespace Accepts

variable {f : CompileM α} {g : α → CompileM β} {s t : State} {a : α} {ts us : List Token}
  {P P' : α → State → Prop} {Q : β → State → Prop}

/-- What is done after an error does not change which one was first. -/
lemma of_strays [hf : Steady f] (h : s.Strays) : Accepts f s P := by
  obtain ⟨hok, herror⟩ := hf.spec s
  rw [Accepts]
  cases hrun : f s with
  | ok a t => exact .inr (h.of_prefix (hok a t hrun).errors)
  | error e t =>
    have hstrays := h.of_prefix (herror e t hrun)
    cases e with
    | tooDeep line => exact .inr hstrays
    | fault f => trivial

lemma bind [∀ a, Steady (g a)] (h : Accepts f s P)
    (h' : ∀ a t, P a t → Accepts (g a) t Q) : Accepts (f >>= g) s Q := by
  rw [Accepts] at h ⊢
  rw [bind_apply]
  cases hrun : f s with
  | ok a t =>
    rw [hrun] at h
    rcases h with ⟨-, hP⟩ | hstrays
    · exact h' a t hP
    · exact of_strays (f := g a) hstrays
  | error e t =>
    rw [hrun] at h
    cases e <;> exact h

/-- A first step whose result is known. -/
lemma step (h : f s = .ok a t) (h' : Accepts (g a) t Q) : Accepts (f >>= g) s Q := by
  rw [Accepts] at h' ⊢
  rw [bind_apply, h]
  exact h'

lemma of_ok (h : f s = .ok a t) (hclean : t.errors.toList = []) (hP : P a t) : Accepts f s P := by
  rw [Accepts, h]
  exact .inl ⟨hclean, hP⟩

lemma mono (h : Accepts f s P) (hP : ∀ a t, P a t → P' a t) : Accepts f s P' := by
  rw [Accepts] at h ⊢
  cases hrun : f s with
  | ok a t =>
    rw [hrun] at h
    exact h.imp (And.imp_right (hP a t)) id
  | error e t =>
    rw [hrun] at h
    cases e <;> exact h

lemma fault (e : Fault) : Accepts (throw (.fault e) : CompileM α) s P := by
  rw [Accepts, throw_apply]
  trivial

end Accepts

end Accepts

/-! ## Steps that leave the tokens alone -/

section Silent

variable {α β : Type}

/-- The step reads no token, and reports only errors that are beyond the grammar. -/
class Silent (f : CompileM α) : Prop where
  spec : ∀ s ts, Awaits s ts → Accepts f s fun _ t => Awaits t ts ∧ t.previous = s.previous

/-- Only the functions under compilation change. -/
lemma Awaits.of_scopes {s : State} {ts : List Token} (h : Awaits s ts) (n : Nat) (f : FunctionScope)
    (fs : List FunctionScope) : Awaits { s with nesting := n, scope := f, enclosing := fs } ts :=
  ⟨h.tokens, h.plain, h.clean, h.calm, h.interactive⟩

lemma Silent.of_scopes {f : CompileM α} (a : State → α) (scope : State → FunctionScope)
    (enclosing : State → List FunctionScope)
    (hf : ∀ s, f s = .ok (a s) { s with scope := scope s, enclosing := enclosing s }) :
    Silent f :=
  ⟨fun s _ hs => .of_ok (hf s) hs.clean ⟨hs.of_scopes s.nesting _ _, rfl⟩⟩

lemma Awaits.report {s : State} {ts : List Token} (h : Awaits s ts) (t : Token)
    {c : CompileError.Cause} (hc : c.BeyondGrammar) : (s.report t c).Strays := by
  have hclean := h.clean
  rw [State.report, if_neg (by simp [h.calm])]
  exact ⟨{ line := t.line, location := .ofToken t, cause := c }, [], by simp [hclean], hc⟩

lemma silent_error {c : CompileError.Cause} (hc : c.BeyondGrammar) : Silent (error c) :=
  ⟨fun s ts hs => by
    rw [Accepts, error_apply]
    exact .inr (hs.report s.previous hc)⟩

instance (r : StaticRule) : Silent (error (.static r)) := silent_error trivial

instance (l : Limit) : Silent (error (.limit l)) := silent_error trivial

instance (l : Limit) : Silent (errorAtCurrent (.limit l)) :=
  ⟨fun s ts hs => by
    rw [Accepts, errorAtCurrent_apply]
    exact .inr (hs.report s.current trivial)⟩

instance (a : α) : Silent (pure a : CompileM α) :=
  .of_scopes (fun _ => a) State.scope State.enclosing fun _ => rfl

instance : Silent (get : CompileM State) :=
  .of_scopes id State.scope State.enclosing fun _ => rfl

instance (f : CompileM α) (g : α → CompileM β) [hf : Silent f] [hg : ∀ a, Silent (g a)]
    [∀ a, Steady (g a)] : Silent (f >>= g) :=
  ⟨fun s ts hs => (hf.spec s ts hs).bind fun a t ⟨ht, hprevious⟩ =>
    ((hg a).spec t ts ht).mono fun _ _ ⟨hu, hprevious'⟩ => ⟨hu, hprevious'.trans hprevious⟩⟩

instance (c : Prop) [Decidable c] (f g : CompileM α) [hf : Silent f] [hg : Silent g] :
    Silent (if c then f else g) := by
  split
  · exact hf
  · exact hg

instance : Silent previousLine := .of_scopes _ State.scope State.enclosing previousLine_apply

instance : Silent codeSize := .of_scopes _ State.scope State.enclosing codeSize_apply

/-- The step changes the chunk of the innermost function. -/
lemma Silent.of_mapChunk {f : CompileM α} (a : State → α) (c : State → Chunk → Chunk)
    (hf : ∀ s, f s = .ok (a s) (s.mapChunk (c s))) : Silent f :=
  .of_scopes a (fun s => { s.scope with chunk := c s s.scope.chunk }) State.enclosing hf

instance (f : Chunk → Nat × Chunk) : Silent (modifyGetChunk f) :=
  .of_mapChunk _ _ (modifyGetChunk_apply f)

instance (f : Chunk → Chunk) : Silent (modifyChunk f) :=
  .of_mapChunk _ _ (modifyChunk_apply f)

instance (op : Opcode) (line : UInt32) : Silent (emitOpAt op line) :=
  inferInstanceAs (Silent (modifyChunk _))

instance (op : Opcode) : Silent (emitOp op) :=
  inferInstanceAs (Silent (previousLine >>= fun line => emitOpAt op line))

instance (b : UInt8) : Silent (emitByte b) := .of_mapChunk _ _ (emitByte_apply b)

instance (n : Nat) : Silent (emitShort n) :=
  inferInstanceAs (Silent (emitByte _ >>= fun _ => emitByte _))

instance (op : Opcode) (n : Nat) : Silent (emitOpShort op n) :=
  inferInstanceAs (Silent (emitOp op >>= fun _ => emitShort n))

instance : Silent emitReturn :=
  inferInstanceAs (Silent (emitOp .loadNil >>= fun _ => emitOp .ret))

instance (index : Nat) : Silent (operandOfIndex index) := by
  refine ⟨fun s ts hs => ?_⟩
  have hrun := operandOfIndex_apply index s
  split at hrun
  · split at hrun
    · exact .of_ok hrun hs.clean ⟨hs, rfl⟩
    · rw [Accepts, hrun]
      exact .inr ((hs.of_scopes s.nesting _ s.enclosing).report s.previous trivial)
  · exact .of_ok hrun hs.clean ⟨hs, rfl⟩

instance (t : Text) : Silent (stringOperand t) :=
  inferInstanceAs (Silent (modifyGetChunk (·.addString t) >>= fun i => operandOfIndex i))

instance (t : Text) : Silent (emitString t) :=
  inferInstanceAs (Silent (stringOperand t >>= fun n => emitOpShort .loadString n))

instance (bits : UInt64) : Silent (emitConstant bits) :=
  inferInstanceAs (Silent (modifyGetChunk (·.addConstant bits) >>= fun i =>
    operandOfIndex i >>= fun n => emitOpShort .loadConstant n))

instance (op : Opcode) : Silent (emitJump op) :=
  ⟨fun s _ hs => .of_ok (a := (s.scope.chunk.emitJump op s.previous.line).1)
    (t := s.mapChunk fun c => (c.emitJump op s.previous.line).2) rfl hs.clean
    ⟨hs.of_scopes s.nesting _ s.enclosing, rfl⟩⟩

instance (offset : Nat) : Silent (patchJump offset) := by
  refine ⟨fun s ts hs => ?_⟩
  have hrun := patchJump_apply offset s
  split at hrun
  · rw [Accepts, hrun]
    trivial
  · rw [Accepts, hrun]
    exact .inr (hs.report s.previous trivial)
  · exact .of_ok hrun hs.clean ⟨hs.of_scopes s.nesting _ s.enclosing, rfl⟩

instance (start : Nat) : Silent (emitLoop start) :=
  inferInstanceAs (Silent (emitOp .loop >>= fun _ => codeSize >>= fun size =>
    if Chunk.maxShort < size - start + 2 then
      error (.limit .loop) >>= fun _ => emitShort 0
    else emitShort (size - start + 2)))

instance : Silent beginScope := .of_scopes _ _ _ fun _ => rfl

instance : Silent markInitialized := by
  refine ⟨fun s ts hs => ?_⟩
  rw [Accepts, markInitialized, modify_apply]
  dsimp only
  split
  · exact .inl ⟨hs.clean, hs, rfl⟩
  · exact .inl ⟨hs.clean, hs, rfl⟩
  · exact .inl ⟨hs.clean, hs.of_scopes s.nesting _ s.enclosing, rfl⟩

lemma silent_emitDrops (ls : List Local) : Silent (emitDrops ls) := by
  induction ls with
  | nil => exact inferInstanceAs (Silent (pure () : CompileM Unit))
  | cons l ls ih =>
    exact inferInstanceAs (Silent (emitOp (if l.captured then .closeUpvalue else .pop) >>=
      fun _ => emitDrops ls))

instance : Silent endScope := by
  refine ⟨fun s ts hs => ?_⟩
  have hrun := endScope_apply s
  have hdrops := (silent_emitDrops (s.scope.locals.span (Local.inBlock s.scope.depth)).1).spec _ ts
    (hs.of_scopes s.nesting { s.scope with
      depth := s.scope.depth - 1
      locals := (s.scope.locals.span (Local.inBlock s.scope.depth)).2 } s.enclosing)
  rw [Accepts] at hdrops ⊢
  rw [hrun]
  exact hdrops

instance (name : Text) : Silent (declareLocal name) := by
  refine ⟨fun s ts hs => .step (get_apply s) ?_⟩
  dsimp only
  split
  · exact Silent.spec s ts hs
  · split
    · exact Silent.spec s ts hs
    · exact .of_ok (modify_apply _ s) hs.clean ⟨hs.of_scopes s.nesting _ s.enclosing, rfl⟩

instance (global : Nat) : Silent (defineVariable global) := by
  refine ⟨fun s ts hs => .step (get_apply s) ?_⟩
  split
  · exact Silent.spec s ts hs
  · exact Silent.spec s ts hs

instance : Silent finishFunction :=
  inferInstanceAs (Silent (emitReturn >>= fun _ => get >>= fun s => pure s.scope.toPrototype))

/-- Errors of these kinds, one after another. -/
lemma silent_forM_error {cs : List CompileError.Cause} (h : ∀ c ∈ cs, c.BeyondGrammar) :
    Silent (cs.forM error) := by
  induction cs with
  | nil => exact inferInstanceAs (Silent (pure () : CompileM Unit))
  | cons c cs ih =>
    obtain ⟨hc, hcs⟩ := List.forall_mem_cons.1 h
    have := silent_error hc
    have := ih hcs
    have := steady_forM_error cs
    exact inferInstanceAs (Silent (error c >>= fun _ => cs.forM error))

/-- Reading a variable captures it only with complaints that are beyond the grammar. -/
lemma capture?_beyondGrammar {name : Text} {f : FunctionScope} {outer : List FunctionScope}
    {i : Nat} {scope : FunctionScope} {enclosing : List FunctionScope}
    {errors : List CompileError.Cause}
    (h : f.capture? name outer = some (i, scope, enclosing, errors)) :
    ∀ c ∈ errors, c.BeyondGrammar := by
  have hadd : ∀ (f : FunctionScope) (c : Capture), ∀ e ∈ (f.addCapture c).2.2, e.BeyondGrammar := by
    intro f c
    rw [FunctionScope.addCapture]
    split
    · simp
    · split <;> simp [CompileError.Cause.BeyondGrammar]
  induction outer generalizing f i scope enclosing errors with
  | nil => cases h
  | cons o rest ih =>
    rw [FunctionScope.capture?] at h
    split at h
    · rename_i slot l _
      cases h
      rw [List.forall_mem_append]
      refine ⟨?_, hadd f _⟩
      rw [FunctionScope.Local.readErrors]
      split <;> simp [CompileError.Cause.BeyondGrammar]
    · split at h
      · cases h
      · rename_i j o' rest' before hbefore
        cases h
        rw [List.forall_mem_append]
        exact ⟨ih hbefore, hadd f _⟩

instance (name : Text) : Silent (resolve name) := by
  refine ⟨fun s ts hs => ?_⟩
  have hrun := resolve_apply name s
  rw [Accepts]
  split at hrun
  · rename_i slot l _
    have hread : ∀ c ∈ FunctionScope.Local.readErrors l, c.BeyondGrammar := by
      rw [FunctionScope.Local.readErrors]
      split <;> simp [CompileError.Cause.BeyondGrammar]
    have := silent_forM_error hread
    rw [hrun]
    exact Silent.spec (f := (FunctionScope.Local.readErrors l).forM error >>= fun _ => pure _) s ts hs
  · split at hrun
    · rename_i i scope enclosing errors hcapture
      have := silent_forM_error (capture?_beyondGrammar hcapture)
      rw [hrun]
      exact Silent.spec (f := errors.forM error >>= fun _ => pure _) _ ts
        (hs.of_scopes s.nesting scope enclosing)
    · rw [hrun]
      exact Silent.spec (f := stringOperand name >>= fun n => pure _) s ts hs

end Silent

/-! ## Sequences -/

section Sequences

variable {α β : Type} {f : CompileM α} {g : α → CompileM β} {s : State} {ts us : List Token}
  {Q : β → State → Prop}

/-- A silent first step. -/
lemma Accepts.quiet [hf : Silent f] [∀ a, Steady (g a)] (hs : Awaits s ts)
    (h : ∀ a t, Awaits t ts → t.previous = s.previous → Accepts (g a) t Q) :
    Accepts (f >>= g) s Q :=
  (hf.spec s ts hs).bind fun a t ⟨ht, hprevious⟩ => h a t ht hprevious

/-- A silent last step. -/
lemma Accepts.quietly [hf : Silent f] (hs : Awaits s ts) : Accepts f s fun _ t => Awaits t ts :=
  (hf.spec s ts hs).mono fun _ _ ht => ht.1

lemma Awaits.advance {t u : Token} (hs : Awaits s (t :: u :: ts)) :
    Awaits s.advance (u :: ts) ∧ s.advance.previous = t := by
  obtain ⟨hcurrent, hrest⟩ := List.cons.inj hs.tokens
  have hplain : ∀ why, u.kind ≠ .error why := hs.plain u (by simp)
  have hadvance : s.advance = { s with previous := s.current, current := u, rest := ts } := by
    rw [State.advance, hrest, State.shift]
    split
    · rename_i why hwhy
      exact absurd hwhy (hplain why)
    · rfl
  rw [hadvance]
  exact ⟨⟨rfl, fun v hv => hs.plain v (by simp [List.mem_cons.1 hv]), hs.clean, hs.calm,
    hs.interactive⟩, hcurrent⟩

/-- Consuming a token, and what comes after it. -/
lemma Accepts.advance {g : Unit → CompileM β} {t u : Token} (hs : Awaits s (t :: u :: ts))
    (h : ∀ s', Awaits s' (u :: ts) → s'.previous = t → Accepts (g ()) s' Q) :
    Accepts (advance >>= g) s Q :=
  .step (advance_apply s) (h _ hs.advance.1 hs.advance.2)

/-- Consuming a token that the grammar promises. -/
lemma Accepts.consume {g : Unit → CompileM β} {k : Token.Kind} {w : Expected} {t u : Token}
    (hs : Awaits s (t :: u :: ts)) (ht : t.kind = k)
    (h : ∀ s', Awaits s' (u :: ts) → s'.previous = t → Accepts (g ()) s' Q) :
    Accepts (consume k w >>= g) s Q := by
  refine .step (consume_apply k w s) ?_
  rw [if_pos (by rw [hs.current, ht])]
  exact h _ hs.advance.1 hs.advance.2

/-- Nothing comes after the token. -/
lemma Accepts.consumed {k : Token.Kind} {w : Expected} {t u : Token}
    (hs : Awaits s (t :: u :: ts)) (ht : t.kind = k) :
    Accepts (Compiler.consume k w) s fun _ s' => Awaits s' (u :: ts) := by
  have hrun := consume_apply k w s
  rw [if_pos (by rw [hs.current, ht])] at hrun
  exact .of_ok hrun hs.advance.1.clean hs.advance.1

/-- The token is the one that was asked for. -/
lemma Accepts.accept {g : Bool → CompileM β} {k : Token.Kind} {t u : Token}
    (hs : Awaits s (t :: u :: ts)) (ht : t.kind = k)
    (h : ∀ s', Awaits s' (u :: ts) → s'.previous = t → Accepts (g true) s' Q) :
    Accepts (accept k >>= g) s Q := by
  have hrun := accept_apply k s
  rw [if_pos (by rw [hs.current, ht])] at hrun
  exact .step hrun (h _ hs.advance.1 hs.advance.2)

/-- The token is another one. -/
lemma Accepts.decline {g : Bool → CompileM β} {k : Token.Kind} {t : Token}
    (hs : Awaits s (t :: ts)) (ht : t.kind ≠ k) (h : Accepts (g false) s Q) :
    Accepts (Compiler.accept k >>= g) s Q := by
  have hrun := accept_apply k s
  rw [if_neg (by rwa [hs.current])] at hrun
  exact .step hrun h

lemma Accepts.nested {f : CompileM Unit} (hs : Awaits s ts)
    (h : ∀ s', Awaits s' ts → s'.previous = s.previous → Accepts f s' fun _ t => Awaits t us) :
    Accepts (nested f) s fun _ t => Awaits t us := by
  rw [Accepts, nested_apply]
  by_cases hdeep : maxNesting ≤ s.nesting
  · rw [if_pos hdeep]
    exact .inl hs.clean
  · rw [if_neg hdeep]
    have hinside := h _ (hs.of_scopes (s.nesting + 1) s.scope s.enclosing) rfl
    rw [Accepts] at hinside
    cases hrun : f { s with nesting := s.nesting + 1 } with
    | ok a t =>
      rw [hrun] at hinside
      rcases hinside with ⟨hclean, ht⟩ | hstrays
      · exact .inl ⟨hclean, ht.of_scopes (t.nesting - 1) t.scope t.enclosing⟩
      · exact .inr hstrays
    | error e t =>
      rw [hrun] at hinside
      cases e <;> exact hinside

/-- A function between entering and leaving its scope. -/
lemma Accepts.bracket [∀ a, Steady (g a)] (hs : Awaits s ts)
    (h : ∀ s', Awaits s' ts → Accepts f s' fun _ t => Awaits t us)
    (h' : ∀ a t, Awaits t us → Accepts (g a) t Q) :
    Accepts (enterFunction >>= fun _ => f >>= fun a => leaveFunction >>= fun _ => g a) s Q := by
  refine .step (enterFunction_apply s) ?_
  have hinside := h _ (hs.of_scopes s.nesting (.new .function s.previous.lexeme)
    (s.scope :: s.enclosing))
  -- Leaving changes neither the tokens nor the errors.
  have hleave : ∀ t : State, ∃ scope enclosing,
      leaveFunction t = .ok () { t with scope, enclosing } := by
    intro t
    rw [leaveFunction, modify_apply]
    cases henclosing : t.enclosing with
    | nil =>
      refine ⟨t.scope, t.enclosing, ?_⟩
      simp only [henclosing]
      rw [← henclosing]
    | cons scope enclosing => exact ⟨scope, enclosing, rfl⟩
  rw [Accepts] at hinside ⊢
  rw [bind_apply]
  generalize { s with scope := _, enclosing := _ } = s' at hinside ⊢
  cases hrun : f s' with
  | ok a t =>
    obtain ⟨scope, enclosing, hleft⟩ := hleave t
    rw [hrun] at hinside
    dsimp only
    rw [bind_apply, hleft]
    rcases hinside with ⟨-, ht⟩ | ⟨e, es, hes, hcause⟩
    · exact h' a _ (ht.of_scopes t.nesting scope enclosing)
    · exact Accepts.of_strays (f := g a) ⟨e, es, hes, hcause⟩
  | error e t =>
    rw [hrun] at hinside
    cases e <;> exact hinside

end Sequences

end Compiler

end Lox
