import Lox.Proofs.Compiler.Mirroring

/-!
# The printed expression

Two compilations of one source can come to differ in one place: an interactive one prints an
expression that ends the source, and the other one drops it.  The code they have written then
differs in the opcode at that place (`Chunk.PrintsAt`).  `Keeps` says of a step that it makes no
further difference; since the source has ended, all such steps emit code, and they write the same
instructions after the place and patch the same jumps around it.

`Prints` is what a statement does: it is compiled alike, or it ends the source and comes to differ.
-/

namespace Lox

/-! ## Code that differs in one opcode -/

/-- The same code, but what `c` prints is dropped in `d`. -/
structure Chunk.PrintsAt (k : Nat) (c d : Chunk) : Prop where
  print : c.code[k]? = some Opcode.print.toByte
  code : d.code = c.code.setIfInBounds k Opcode.pop.toByte
  constants : d.constants = c.constants
  strings : d.strings = c.strings
  functions : d.functions = c.functions

/-- The same function, but what `p` prints at `k` is dropped in `q`. -/
structure Prototype.PrintsAt (k : Nat) (p q : Prototype) : Prop where
  name : q.name = p.name
  arity : q.arity = p.arity
  captures : q.captures = p.captures
  chunk : ∃ c d, p.chunk = some c ∧ q.chunk = some d ∧ c.PrintsAt k d

namespace Chunk.PrintsAt

variable {k : Nat} {c d : Chunk}

lemma lt (h : PrintsAt k c d) : k < c.code.size :=
  (Array.getElem?_eq_some_iff.1 h.print).1

lemma size_eq (h : PrintsAt k c d) : d.code.size = c.code.size := by
  rw [h.code, Array.size_setIfInBounds]

lemma append (h : PrintsAt k c d) (i : Instruction) (line line' : UInt32) :
    PrintsAt k (c.append [(i, line)]) (d.append [(i, line')]) where
  print := by
    have hk := h.lt
    simp [Chunk.append, Array.getElem?_append_left hk, h.print]
  code := by
    simp [Chunk.append, h.code, Array.setIfInBounds_append_left h.lt]
  constants := h.constants
  strings := h.strings
  functions := h.functions

lemma setShort (h : PrintsAt k c d) {offset n : Nat} (hk : offset + 1 < k ∨ k < offset) :
    PrintsAt k (c.setShort offset n) (d.setShort offset n) := by
  have h₁ : k ≠ offset := by omega
  have h₂ : k ≠ offset + 1 := by omega
  refine ⟨?_, ?_, h.constants, h.strings, h.functions⟩
  · simp [Chunk.setShort, h₁.symm, h₂.symm, h.print]
  · simp only [Chunk.setShort, h.code]
    rw [Array.setIfInBounds_comm _ _ h₁, Array.setIfInBounds_comm _ _ h₂]

end Chunk.PrintsAt

namespace Compiler

open FunctionScope

/-! ## The error about it -/

/-- The error about an expression that is followed by some other token than a semicolon. -/
def missingSemicolon (t : Token) : CompileError where
  line := t.line
  location := .ofToken t
  cause := .expected .semicolonAfterExpression

/-- What the other compilation has to say about the last expression. -/
def Prospect.complaints (x : Prospect) : List CompileError :=
  if x.current.kind = .semicolon then [] else [missingSemicolon x.current]

/-- One compilation printed the last expression and the other one dropped it. -/
structure Printed (x : Prospect) (k : Nat) (t u : State) : Prop where
  current : u.current.kind = .eof
  rest : u.rest = []
  errors : u.errors.toList = x.complaints
  scope : u.scope = { t.scope with chunk := u.scope.chunk }
  chunk : t.scope.chunk.PrintsAt k u.scope.chunk

namespace Printed

variable {x : Prospect} {k : Nat} {t u : State}

lemma mapChunk (h : Printed x k t u) {f g : Chunk → Chunk}
    (hchunk : (f t.scope.chunk).PrintsAt k (g u.scope.chunk)) :
    Printed x k (t.mapChunk f) (u.mapChunk g) := by
  refine ⟨h.current, h.rest, h.errors, ?_, hchunk⟩
  exact congrArg (fun scope : FunctionScope => { scope with chunk := g u.scope.chunk }) h.scope

lemma write (h : Printed x k t u) (i : Instruction) (line line' : UInt32) :
    Printed x k (t.write i line) (u.write i line') :=
  h.mapChunk (h.chunk.append i line line')

end Printed

/-! ## Steps that make no further difference -/

section Keeps

variable {α β : Type} {mode : Bool} {e : Token} {s t : State} {k : Nat}

/-- The source has ended, and the code at `k` was written. -/
structure Spent (mode : Bool) (e : Token) (k : Nat) (t : State) : Prop where
  ends : Ends mode e t
  current : t.current.kind = .eof
  lt : k < t.scope.chunk.code.size

lemma Spent.of_prospect {v : State} (ht : Spent mode e k t) (h : v.prospect = t.prospect)
    (hsize : t.scope.chunk.code.size ≤ v.scope.chunk.code.size) : Spent mode e k v := by
  have hcurrent : v.current = t.current := congrArg Prospect.current h
  exact ⟨ht.ends.of_prospect h, hcurrent ▸ ht.current, Nat.lt_of_lt_of_le ht.lt hsize⟩

/-- After the expression was printed in one compilation and dropped in the other one, nothing that
the step does makes a further difference. -/
def Keeps (mode : Bool) (e : Token) (k : Nat) (f : CompileM α) (f' : Prospect → CompileM α)
    (t : State) : Prop :=
  Spent mode e k t → Yields f t fun a v =>
    Spent mode e k v ∧ ∀ x u, Printed x k t u → ∃ w, f' x u = .ok a w ∧ Printed x k v w

namespace Keeps

variable {f : CompileM α} {f' : Prospect → CompileM α} {g : α → CompileM β}
  {g' : α → Prospect → CompileM β}

lemma absurd (h : t.current.kind = .eof → Yields f t fun _ _ => False) : Keeps mode e k f f' t :=
  fun ht => (h ht.current).mono fun _ _ h => h.elim

lemma bind [Steady f] [∀ a, Steady (g a)] (h : Keeps mode e k f f' t)
    (h' : ∀ a v, Keeps mode e k (g a) (g' a) v) :
    Keeps mode e k (f >>= g) (fun x => f' x >>= fun a => g' a x) t := by
  refine fun ht => Yields.bind (h ht) fun a v _ ⟨hv, hfv⟩ => (h' a v hv).mono ?_
  rintro b w ⟨hw, hgw⟩
  refine ⟨hw, fun x u hu => ?_⟩
  obtain ⟨u₁, hu₁, hp₁⟩ := hfv x u hu
  obtain ⟨u₂, hu₂, hp₂⟩ := hgw x u₁ hp₁
  refine ⟨u₂, ?_, hp₂⟩
  show (f' x >>= fun a => g' a x) u = _
  rw [bind_apply, hu₁]
  exact hu₂

/-- A step that always completes and consumes nothing. -/
lemma of_ok [hsteady : Steady f] {a : α} {v : State} (hf : f t = .ok a v)
    (hv : v.prospect = t.prospect)
    (hf' : ∀ x u, Printed x k t u → ∃ w, f' x u = .ok a w ∧ Printed x k v w) :
    Keeps mode e k f f' t :=
  fun ht => .of_ok hf ⟨ht.of_prospect hv (hsteady.advances hf).codeSize, hf'⟩

lemma pure (a : α) : Keeps mode e k (pure a : CompileM α) (fun _ => Pure.pure a) t :=
  .of_ok (pure_apply a t) rfl fun _ u hu => ⟨u, rfl, hu⟩

/-- A first step that always completes and consumes nothing. -/
lemma step [hsteady : Steady f] {a : α} {v : State} (hf : f t = .ok a v)
    (hv : v.prospect = t.prospect)
    (hf' : ∀ x u, Printed x k t u → ∃ w, f' x u = .ok a w ∧ Printed x k v w)
    (hg : Keeps mode e k (g a) (g' a) v) :
    Keeps mode e k (f >>= g) (fun x => f' x >>= fun a => g' a x) t := by
  refine fun ht => Yields.step hf fun htv => (hg (ht.of_prospect hv htv.codeSize)).mono ?_
  rintro b w ⟨hw, hfollows⟩
  refine ⟨hw, fun x u hu => ?_⟩
  obtain ⟨u', hu', hprinted⟩ := hf' x u hu
  show ∃ w, (f' x >>= fun a => g' a x) u = _ ∧ _
  rw [bind_apply, hu']
  exact hfollows x u' hprinted

/-- At the end no token is there to be accepted. -/
lemma accept {kind : Token.Kind} (hkind : kind ≠ .eof) {g : Bool → CompileM β}
    {g' : Bool → Prospect → CompileM β} (h : Keeps mode e k (g false) (g' false) t) :
    Keeps mode e k (accept kind >>= g) (fun x => accept kind >>= fun b => g' b x) t := by
  exact fun ht => step (accept_of_end hkind ht.current) rfl
    (fun x u hu => ⟨u, accept_of_end hkind hu.current, hu⟩) h ht

/-- A jump that is emitted afterwards. -/
lemma jump {op : Opcode} (hop : op.operandWidth = 2) {g : Nat → CompileM β}
    {g' : Nat → Prospect → CompileM β}
    (h : ∀ offset v, k < offset → Keeps mode e k (g offset) (g' offset) v) :
    Keeps mode e k (emitJump op >>= g) (fun x => emitJump op >>= fun a => g' a x) t := by
  refine fun ht => step (emitJump_apply op t hop) rfl (fun x u hu => ?_)
    (h _ _ (Nat.lt_succ_of_lt ht.lt)) ht
  refine ⟨u.write ⟨op, Chunk.maxShort⟩ u.previous.line, ?_, hu.write _ _ _⟩
  rw [emitJump_apply op u hop, hu.chunk.size_eq]

end Keeps

lemma keeps_emitOp {op : Opcode} (hop : op.operandWidth = 0) :
    Keeps mode e k (emitOp op) (fun _ => emitOp op) t :=
  .of_ok (emitOp_apply op t hop) rfl fun _ u hu => ⟨_, emitOp_apply op u hop, hu.write _ _ _⟩

lemma keeps_patchJump {offset : Nat} (hk : offset + 1 < k ∨ k < offset) :
    Keeps mode e k (patchJump offset) (fun _ => patchJump offset) t := by
  intro ht hsane a v h hv
  have hadvances := (steady_patchJump offset).advances h
  rw [patchJump_apply] at h
  cases hdistance : t.scope.chunk.jumpDistance offset with
  | error fault =>
    rw [hdistance] at h
    cases h
  | ok distance? =>
    rw [hdistance] at h
    cases distance? with
    | none =>
      cases h
      exact absurd hv (hsane.report_errors_ne_nil _ _)
    | some n =>
      cases h
      refine ⟨ht.of_prospect rfl hadvances.codeSize, fun x u hu =>
        ⟨u.mapChunk (·.setShort offset n), ?_, hu.mapChunk (hu.chunk.setShort hk)⟩⟩
      have hsame : u.scope.chunk.jumpDistance offset = t.scope.chunk.jumpDistance offset := by
        simp only [Chunk.jumpDistance, hu.chunk.size_eq]
      beta_reduce
      rw [patchJump_apply, hsame, hdistance]

lemma keeps_emitLoop {start : Nat} (hstart : start ≤ k) :
    Keeps mode e k (emitLoop start) (fun _ => emitLoop start) t := by
  intro ht hsane a v h hv
  have hadvances := (steady_emitLoop start).advances h
  have hlt := ht.lt
  rw [emitLoop_apply _ _ (by omega)] at h
  dsimp only at h
  split at h
  · -- A jump that is too long is an error.
    refine absurd (((steady_emitShort 0).advances h).errors_nil hv) ?_
    exact (hsane.of_advances (advances_mapChunk (by simp [Chunk.writeOp, Chunk.write])))
      |>.report_errors_ne_nil _ _
  · rename_i hfits
    cases h
    refine ⟨ht.of_prospect rfl hadvances.codeSize, fun x u hu => ⟨_, ?_, hu.write _ _ u.previous.line⟩⟩
    have hsize := hu.chunk.size_eq
    beta_reduce
    rw [emitLoop_apply _ _ (by omega), hsize]
    exact if_neg hfits

lemma keeps_emitDrops (ls : List Local) :
    Keeps mode e k (emitDrops ls) (fun _ => emitDrops ls) t := by
  induction ls generalizing t with
  | nil => exact .pure ()
  | cons l ls ih =>
    simp only [emitDrops]
    exact .bind (keeps_emitOp (by split <;> rfl)) fun _ v => ih

lemma keeps_endScope : Keeps mode e k endScope (fun _ => endScope) t := by
  intro ht
  have hdrops : Keeps mode e k (emitDrops (t.scope.locals.span (Local.inBlock t.scope.depth)).1)
      (fun _ => emitDrops (t.scope.locals.span (Local.inBlock t.scope.depth)).1)
      { t with scope := { t.scope with
        depth := t.scope.depth - 1
        locals := (t.scope.locals.span (Local.inBlock t.scope.depth)).2 } } := keeps_emitDrops _
  replace hdrops := hdrops ⟨ht.ends.of_prospect rfl, ht.current, ht.lt⟩
  refine fun hsane a v h hv => ?_
  rw [endScope_apply] at h
  obtain ⟨hspent, hfollows⟩ :=
    hdrops (hsane.of_advances (.of_scope (Nat.le_refl _) rfl)) a v h hv
  refine ⟨hspent, fun x u hu => ?_⟩
  have hlocals : u.scope.locals = t.scope.locals := by rw [hu.scope]
  have hdepth : u.scope.depth = t.scope.depth := by rw [hu.scope]
  beta_reduce
  rw [endScope_apply, hlocals, hdepth]
  refine hfollows x _ ⟨hu.current, hu.rest, hu.errors, ?_, hu.chunk⟩
  exact congrArg (fun scope : FunctionScope => { scope with
    depth := t.scope.depth - 1
    locals := (t.scope.locals.span (Local.inBlock t.scope.depth)).2 }) hu.scope

end Keeps

/-! ## Steps that may print -/

section Prints

variable {α β : Type} {mode : Bool} {e : Token} {s t : State}

/-- If the step completes without an error, then so does the step of the other compilation, with
the state that corresponds; or else the step ended the source and printed an expression, which the
other one dropped. -/
def Prints (mode : Bool) (e : Token) (f : CompileM α) (f' : Prospect → CompileM α) (s : State) :
    Prop :=
  Yields f s fun a t =>
    (Ends mode e t ∧ ∀ x, x.Fits mode e → f' x (s.onto x) = .ok a (t.onto x)) ∨
    (mode = true ∧ ∃ k, s.scope.chunk.code.size ≤ k ∧ Spent mode e k t ∧
      ∀ x, x.Fits mode e → ∃ u, f' x (s.onto x) = .ok a u ∧ Printed x k t u)

namespace Prints

variable {f : CompileM α} {f' : Prospect → CompileM α} {g : α → CompileM β}
  {g' : α → Prospect → CompileM β}

lemma of_mirrors (h : Mirrors mode e f f' s) : Prints mode e f f' s :=
  h.mono fun _ _ => .inl

/-- What comes after a first step that both compilations have taken alike. -/
lemma onward {a : α} (hsize : s.scope.chunk.code.size ≤ t.scope.chunk.code.size)
    (hf' : ∀ x, x.Fits mode e → f' x (s.onto x) = .ok a (t.onto x))
    (h : Prints mode e (g a) (g' a) t) :
    Yields (g a) t fun b v =>
      (Ends mode e v ∧ ∀ x, x.Fits mode e →
        (f' x >>= fun a => g' a x) (s.onto x) = .ok b (v.onto x)) ∨
      (mode = true ∧ ∃ k, s.scope.chunk.code.size ≤ k ∧ Spent mode e k v ∧
        ∀ x, x.Fits mode e → ∃ u, (f' x >>= fun a => g' a x) (s.onto x) = .ok b u ∧
          Printed x k v u) := by
  have hseq : ∀ x, x.Fits mode e → (f' x >>= fun a => g' a x) (s.onto x) = g' a x (t.onto x) :=
    fun x hx => by rw [bind_apply, hf' x hx]
  refine h.mono ?_
  rintro b v (⟨hv, hg'⟩ | ⟨hmode, k, hk, hv, hg'⟩)
  · exact .inl ⟨hv, fun x hx => (hseq x hx).trans (hg' x hx)⟩
  · refine .inr ⟨hmode, k, Nat.le_trans hsize hk, hv, fun x hx => ?_⟩
    rw [hseq x hx]
    exact hg' x hx

/-- A step that may print, after one that does not and about which something is known. -/
lemma after_of {P : α → State → Prop} [Steady f] [∀ a, Steady (g a)] (h : Mirrors mode e f f' s)
    (hP : Yields f s P)
    (h' : ∀ a t, P a t → Advances s t → Ends mode e t → Prints mode e (g a) (g' a) t) :
    Prints mode e (f >>= g) (fun x => f' x >>= fun a => g' a x) s := by
  have hboth : Yields f s fun a t =>
      (Ends mode e t ∧ ∀ x, x.Fits mode e → f' x (s.onto x) = .ok a (t.onto x)) ∧ P a t :=
    fun hs a t hft ht => ⟨h hs a t hft ht, hP hs a t hft ht⟩
  exact Yields.bind hboth fun a t hst ⟨⟨ht, hf'⟩, hPt⟩ =>
    onward hst.codeSize hf' (h' a t hPt hst ht)

lemma after [Steady f] [∀ a, Steady (g a)] (h : Mirrors mode e f f' s)
    (h' : ∀ a t, Advances s t → Ends mode e t → Prints mode e (g a) (g' a) t) :
    Prints mode e (f >>= g) (fun x => f' x >>= fun a => g' a x) s :=
  after_of h (P := fun _ _ => True) (fun _ _ _ _ _ => trivial) fun a t _ => h' a t

/-- The same with a step that does nothing but emit code. -/
lemma emit [hf : Heedless f] [Steady f] {a : α} (hs : Ends mode e s) (h : f s = .ok a t)
    (h' : Ends mode e t → Prints mode e (g a) (g' a) t) :
    Prints mode e (f >>= g) (fun x => f >>= fun a => g' a x) s := by
  have hprospect := Heedless.prospect_eq h
  refine Yields.step h fun hst => onward hst.codeSize (fun x _ => ?_) (h' (hs.of_prospect hprospect))
  rw [State.onto, State.onto, toward_congr hprospect]
  exact Heedless.apply h _

/-- A step that does not print, after one that may. -/
lemma bind [Steady f] [∀ a, Steady (g a)] (h : Prints mode e f f' s)
    (h' : ∀ a t, Advances s t → Ends mode e t → Prints mode e (g a) (g' a) t)
    (hkeeps : ∀ a t k, s.scope.chunk.code.size ≤ k → Keeps mode e k (g a) (g' a) t) :
    Prints mode e (f >>= g) (fun x => f' x >>= fun a => g' a x) s := by
  refine Yields.bind h fun a t hst hf => ?_
  rcases hf with ⟨ht, hf'⟩ | ⟨hmode, k, hk, ht, hf'⟩
  · exact onward hst.codeSize hf' (h' a t hst ht)
  · refine (hkeeps a t k hk ht).mono ?_
    rintro b v ⟨hv, hg'⟩
    refine .inr ⟨hmode, k, hk, hv, fun x hx => ?_⟩
    obtain ⟨u, hu, hprinted⟩ := hf' x hx
    obtain ⟨w, hw, hdone⟩ := hg' x u hprinted
    refine ⟨w, ?_, hdone⟩
    show (f' x >>= fun a => g' a x) (s.onto x) = _
    rw [bind_apply, hu]
    exact hw

lemma ite {c : Prop} [Decidable c] {f₁ f₂ : CompileM α} {f₁' f₂' : Prospect → CompileM α}
    (h₁ : c → Prints mode e f₁ f₁' s) (h₂ : ¬ c → Prints mode e f₂ f₂' s) :
    Prints mode e (if c then f₁ else f₂) (fun x => if c then f₁' x else f₂' x) s := by
  by_cases h : c
  · simp only [if_pos h]
    exact h₁ h
  · simp only [if_neg h]
    exact h₂ h

lemma nested {f : CompileM Unit} {f' : Prospect → CompileM Unit}
    (h : Prints mode e f f' { s with nesting := s.nesting + 1 }) :
    Prints mode e (nested f) (fun x => nested (f' x)) s := by
  intro hsane a t hrun ht
  rw [nested_apply] at hrun
  split at hrun
  · cases hrun
  · rename_i hroom
    have hin : ∀ x b u, f' x (({ s with nesting := s.nesting + 1 } : State).onto x) = .ok b u →
        Compiler.nested (f' x) (s.onto x) = .ok () { u with nesting := u.nesting - 1 } := by
      intro x b u hu
      have hnesting : (s.onto x).nesting = s.nesting := rfl
      have hinside : f' x { s.onto x with nesting := s.nesting + 1 } = .ok b u := hu
      rw [nested_apply, hnesting, if_neg hroom, hinside]
    split at hrun
    · rename_i u hu
      cases hrun
      rcases h ⟨hsane.reported, hsane.fed⟩ _ u hu ht with ⟨hends, honto⟩ | ⟨hmode, k, hk, hv, honto⟩
      · exact .inl ⟨hends.of_prospect rfl, fun x hx => hin x _ _ (honto x hx)⟩
      · refine .inr ⟨hmode, k, hk, ⟨hv.ends.of_prospect rfl, hv.current, hv.lt⟩, fun x hx => ?_⟩
        obtain ⟨w, hw, hprinted⟩ := honto x hx
        exact ⟨_, hin x _ _ hw, hprinted.current, hprinted.rest, hprinted.errors, hprinted.scope,
          hprinted.chunk⟩
    · cases hrun

end Prints

end Prints

end Compiler

end Lox
