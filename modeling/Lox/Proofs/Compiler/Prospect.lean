import Lox.Proofs.Compiler.Advance

/-!
# What the compiler has not seen yet

Code is emitted for the token just consumed.  The tokens to come, and whether the compilation is
interactive, matter only where the compiler decides what to do next.  A `Prospect` is this part of a
state, and `State.facing` replaces it.  A step is `Heedless` if it does the same whatever it faces; it
leaves the prospect as it is (`Heedless.prospect_eq`).  All of emission is heedless, and so is what
concerns variables and blocks.  The steps that are not are those that consume tokens.
-/

namespace Lox.Compiler

/-! ## Prospects -/

/-- What of a compilation is still to come. -/
structure Prospect where
  interactive : Bool
  current : Token
  rest : List Token

/-- What a state has not seen yet. -/
def State.prospect (s : State) : Prospect :=
  ⟨s.interactive, s.current, s.rest⟩

/-- The state with something else to come. -/
def State.facing (s : State) (p : Prospect) : State :=
  { s with interactive := p.interactive, current := p.current, rest := p.rest }

@[simp] lemma facing_prospect (s : State) : s.facing s.prospect = s := rfl

@[simp] lemma prospect_facing (s : State) (p : Prospect) : (s.facing p).prospect = p := rfl

@[simp] lemma facing_facing (s : State) (p q : Prospect) : (s.facing p).facing q = s.facing q := rfl

section Heedless

variable {α β : Type}

/-- What a step has come to, with something else to come after it. -/
def facingResult (p : Prospect) : EStateM.Result Abort State α → EStateM.Result Abort State α
  | .ok a t => .ok a (t.facing p)
  | .error e t => .error e (t.facing p)

/-- The step does the same whatever is to come. -/
class Heedless (f : CompileM α) : Prop where
  spec : ∀ s p, f (s.facing p) = facingResult p (f s)

lemma Heedless.apply {f : CompileM α} [hf : Heedless f] {s t : State} {a : α} (h : f s = .ok a t)
    (p : Prospect) : f (s.facing p) = .ok a (t.facing p) := by
  rw [hf.spec, h]
  rfl

/-- Nothing of what is to come is used up. -/
lemma Heedless.prospect_eq {f : CompileM α} [hf : Heedless f] {s t : State} {a : α}
    (h : f s = .ok a t) : t.prospect = s.prospect := by
  have hsame := hf.apply h s.prospect
  rw [facing_prospect, h] at hsame
  have hback : t = t.facing s.prospect := (EStateM.Result.ok.inj hsame).2
  rw [hback, prospect_facing]

/-- A step that always completes. -/
lemma Heedless.of_ok {f : CompileM α} (a : State → α) (t : State → State)
    (hf : ∀ s, f s = .ok (a s) (t s)) (ha : ∀ s p, a (s.facing p) = a s)
    (ht : ∀ s p, t (s.facing p) = (t s).facing p) : Heedless f := by
  refine ⟨fun s p => ?_⟩
  rw [hf, hf, ha, ht]
  rfl

instance (a : α) : Heedless (pure a : CompileM α) := ⟨fun _ _ => rfl⟩

instance (e : Abort) : Heedless (throw e : CompileM α) := ⟨fun _ _ => rfl⟩

instance (f : CompileM α) (g : α → CompileM β) [hf : Heedless f] [hg : ∀ a, Heedless (g a)] :
    Heedless (f >>= g) := by
  refine ⟨fun s p => ?_⟩
  rw [bind_apply, bind_apply, hf.spec]
  cases f s with
  | ok a t => exact (hg a).spec t p
  | error e t => rfl

instance (c : Prop) [Decidable c] (f g : CompileM α) [hf : Heedless f] [hg : Heedless g] :
    Heedless (if c then f else g) := by
  split
  · exact hf
  · exact hg

/-- A look at the state that is not a look at what is to come. -/
lemma Heedless.get {g : State → CompileM β} (hsame : ∀ s p, g (State.facing s p) = g s)
    (hg : ∀ s, Heedless (g s)) : Heedless (get >>= g) := by
  refine ⟨fun s p => ?_⟩
  rw [bind_apply, bind_apply, get_apply, get_apply]
  dsimp only
  rw [hsame]
  exact (hg s).spec s p

lemma Heedless.modify {t : State → State} (ht : ∀ s p, t (State.facing s p) = (t s).facing p) :
    Heedless (modify t : CompileM Unit) :=
  .of_ok (fun _ => ()) t (fun _ => rfl) (fun _ _ => rfl) ht

/-! ## Errors and code -/

lemma report_facing (s : State) (t : Token) (c : CompileError.Cause) (p : Prospect) :
    (s.facing p).report t c = (s.report t c).facing p := by
  have hpanicking : (s.facing p).panicking = s.panicking := rfl
  rw [State.report, State.report, hpanicking]
  split <;> rfl

instance (c : CompileError.Cause) : Heedless (error c) :=
  .modify fun s p => report_facing s s.previous c p

lemma heedless_forM_error (cs : List CompileError.Cause) : Heedless (cs.forM error) := by
  induction cs with
  | nil => exact inferInstanceAs (Heedless (pure () : CompileM Unit))
  | cons c cs ih => exact inferInstanceAs (Heedless (error c >>= fun _ => cs.forM error))

instance : Heedless previousLine :=
  .of_ok (fun s => s.previous.line) id previousLine_apply (fun _ _ => rfl) fun _ _ => rfl

instance : Heedless codeSize :=
  .of_ok (fun s => s.scope.chunk.code.size) id codeSize_apply (fun _ _ => rfl) fun _ _ => rfl

instance (f : Chunk → Chunk) : Heedless (modifyChunk f) := .modify fun _ _ => rfl

instance (f : Chunk → Nat × Chunk) : Heedless (modifyGetChunk f) :=
  .of_ok _ _ (modifyGetChunk_apply f) (fun _ _ => rfl) fun _ _ => rfl

instance (op : Opcode) (line : UInt32) : Heedless (emitOpAt op line) :=
  inferInstanceAs (Heedless (modifyChunk _))

instance (op : Opcode) : Heedless (emitOp op) :=
  inferInstanceAs (Heedless (previousLine >>= fun line => emitOpAt op line))

instance (b : UInt8) : Heedless (emitByte b) :=
  .of_ok (fun _ => ()) _ (emitByte_apply b) (fun _ _ => rfl) fun _ _ => rfl

instance (n : Nat) : Heedless (emitShort n) :=
  inferInstanceAs (Heedless (emitByte _ >>= fun _ => emitByte _))

instance (op : Opcode) (n : Nat) : Heedless (emitOpShort op n) :=
  inferInstanceAs (Heedless (emitOp op >>= fun _ => emitShort n))

instance : Heedless emitReturn :=
  inferInstanceAs (Heedless (emitOp .loadNil >>= fun _ => emitOp .ret))

instance (index : Nat) : Heedless (operandOfIndex index) := by
  refine ⟨fun s p => ?_⟩
  rw [operandOfIndex_apply, operandOfIndex_apply, apply_ite (facingResult p)]
  refine if_congr Iff.rfl ?_ rfl
  show EStateM.Result.ok 0 _ = EStateM.Result.ok 0 _
  congr 1
  rw [apply_ite (State.facing · p)]
  refine if_congr Iff.rfl rfl ?_
  exact report_facing { s with scope := { s.scope with overflowReported := true } } s.previous _ p

instance (t : Text) : Heedless (stringOperand t) :=
  inferInstanceAs (Heedless (modifyGetChunk (·.addString t) >>= fun i => operandOfIndex i))

instance (t : Text) : Heedless (emitString t) :=
  inferInstanceAs (Heedless (stringOperand t >>= fun n => emitOpShort .loadString n))

instance (bits : UInt64) : Heedless (emitConstant bits) :=
  inferInstanceAs (Heedless (modifyGetChunk (·.addConstant bits) >>= fun i =>
    operandOfIndex i >>= fun n => emitOpShort .loadConstant n))

instance : Heedless compileNumber := by
  refine .get (fun _ _ => rfl) fun s => ?_
  split <;> infer_instance

instance : Heedless compileString := .get (fun _ _ => rfl) fun _ => inferInstance

instance (op : Opcode) : Heedless (emitJump op) :=
  inferInstanceAs (Heedless (previousLine >>= fun line => modifyGetChunk (·.emitJump op line)))

instance (offset : Nat) : Heedless (patchJump offset) := by
  refine .get (fun _ _ => rfl) fun s => ?_
  split
  · infer_instance
  · infer_instance
  · infer_instance

instance (start : Nat) : Heedless (emitLoop start) :=
  inferInstanceAs (Heedless (emitOp .loop >>= fun _ => codeSize >>= fun size =>
    if Chunk.maxShort < size - start + 2 then
      error (.limit .loop) >>= fun _ => emitShort 0
    else emitShort (size - start + 2)))

/-! ## Blocks, variables and functions -/

instance : Heedless beginScope := .modify fun _ _ => rfl

lemma heedless_emitDrops (ls : List Local) : Heedless (emitDrops ls) := by
  induction ls with
  | nil => exact inferInstanceAs (Heedless (pure () : CompileM Unit))
  | cons l ls ih =>
    exact inferInstanceAs (Heedless (emitOp (if l.captured then .closeUpvalue else .pop) >>=
      fun _ => emitDrops ls))

instance : Heedless endScope := by
  refine ⟨fun s p => ?_⟩
  rw [endScope_apply, endScope_apply]
  exact (heedless_emitDrops (s.scope.locals.span (Local.inBlock s.scope.depth)).1).spec
    { s with scope := { s.scope with
        depth := s.scope.depth - 1
        locals := (s.scope.locals.span (Local.inBlock s.scope.depth)).2 } } p

instance (name : Text) : Heedless (declareLocal name) := by
  refine .get (fun _ _ => rfl) fun s => ?_
  dsimp only
  have : Heedless (modify fun s : State => { s with scope := { s.scope with
      locals := { name, depth := none, captured := false } :: s.scope.locals } } : CompileM Unit) :=
    .modify fun _ _ => rfl
  split
  · infer_instance
  · split <;> infer_instance

instance : Heedless markInitialized := by
  refine .modify fun s p => ?_
  have hscope : (s.facing p).scope = s.scope := rfl
  rw [hscope]
  split <;> rfl

instance (global : Nat) : Heedless (defineVariable global) := by
  refine .get (fun _ _ => rfl) fun s => ?_
  infer_instance

instance (name : Text) : Heedless (resolve name) := by
  have := heedless_forM_error
  refine ⟨fun s p => ?_⟩
  rw [resolve_apply, resolve_apply]
  have hscope : (s.facing p).scope = s.scope := rfl
  have henclosing : (s.facing p).enclosing = s.enclosing := rfl
  rw [hscope, henclosing]
  split
  · exact Heedless.spec s p
  · split
    · rename_i i scope enclosing errors _
      exact Heedless.spec { s with scope, enclosing } p
    · exact Heedless.spec s p

instance : Heedless enterFunction := .modify fun _ _ => rfl

instance : Heedless leaveFunction := by
  refine .modify fun s p => ?_
  have henclosing : (s.facing p).enclosing = s.enclosing := rfl
  rw [henclosing]
  split <;> rfl

instance : Heedless finishFunction := by
  have : Heedless (get >>= fun s : State => pure s.scope.toPrototype : CompileM Prototype) :=
    .get (fun _ _ => rfl) fun _ => inferInstance
  exact inferInstanceAs (Heedless (emitReturn >>= fun _ => get >>= fun s : State =>
    pure s.scope.toPrototype))

end Heedless

end Lox.Compiler
