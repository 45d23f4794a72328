import Lox.Proofs.Compiler.Advance

/-!
# What compilation keeps

Many a fact about the state of a compilation survives whatever may be done short of ending a panic:
that the innermost function changes, that a token is consumed, that an error is reported at the token
just consumed or at the one being looked at.  Such a fact is `Durable`, and `Maintains` says of a step
that it keeps the fact.  That all steps of the compiler do so is said here once, by instances; the
phrases inside a phrase are assumed to.

A step may also be given up because something is nested too deeply, and then what is left of the fact
is something weaker, which is all that a durable fact has to imply.  An error about the nesting is
never among those that are reported on the way (`CompileError.Cause.Ordinary`).
-/

namespace Lox

/-- The cause of an error that does not end the compilation. -/
class CompileError.Cause.Ordinary (c : CompileError.Cause) : Prop where
  ne_nesting : c ≠ .limit .nesting

namespace CompileError.Cause

instance (why : LexicalError) : Ordinary (.lexical why) := ⟨nofun⟩

instance (what : Expected) : Ordinary (.expected what) := ⟨nofun⟩

instance : Ordinary .invalidAssignmentTarget := ⟨nofun⟩

instance (what : Unsupported) : Ordinary (.unsupported what) := ⟨nofun⟩

instance (rule : StaticRule) : Ordinary (.static rule) := ⟨nofun⟩

instance : Ordinary (.limit .locals) := ⟨nofun⟩

instance : Ordinary (.limit .closureVariables) := ⟨nofun⟩

instance : Ordinary (.limit .parameters) := ⟨nofun⟩

instance : Ordinary (.limit .arguments) := ⟨nofun⟩

instance : Ordinary (.limit .constants) := ⟨nofun⟩

instance : Ordinary (.limit .jump) := ⟨nofun⟩

instance : Ordinary (.limit .loop) := ⟨nofun⟩

instance : Ordinary (.limit .number) := ⟨nofun⟩

end CompileError.Cause

namespace Compiler

open FunctionScope

-- The longest sequences of steps that are found to keep a fact by instance resolution are here.
set_option synthInstance.maxSize 4000

/-! ## Steps and what they establish -/

section Steps

variable {α β : Type}

/-- If the step completes, then it establishes `P`; and if it goes too deep, then it leaves `D`.
Whether there is a fault is not its concern. -/
structure Attains (D : State → Prop) (f : CompileM α) (s : State) (P : α → State → Prop) : Prop where
  ok : ∀ {a t}, f s = .ok a t → P a t
  tooDeep : ∀ {line t}, f s = .error (.tooDeep line) t → D t

namespace Attains

variable {D : State → Prop} {f : CompileM α} {g : α → CompileM β} {s t : State} {a : α}
  {P P' : α → State → Prop} {Q : β → State → Prop}

lemma of_ok (h : f s = .ok a t) (hP : P a t) : Attains D f s P := by
  refine ⟨fun h' => ?_, fun h' => ?_⟩
  · rw [h] at h'
    cases h'
    exact hP
  · rw [h] at h'
    cases h'

lemma of_fault {fault : Fault} (h : f s = .error (.fault fault) t) : Attains D f s P := by
  constructor <;> intro _ _ h' <;> rw [h] at h' <;> cases h'

lemma mono (h : Attains D f s P) (hP : ∀ a t, P a t → P' a t) : Attains D f s P' :=
  ⟨fun h' => hP _ _ (h.ok h'), h.tooDeep⟩

/-- A step that does what another one does. -/
lemma congr {f' : CompileM α} {s' : State} (h : f s = f' s') (h' : Attains D f' s' P) : Attains D f s P :=
  ⟨fun hok => h'.ok (h ▸ hok), fun hdeep => h'.tooDeep (h ▸ hdeep)⟩

/-- A first step whose result is known. -/
lemma step (h : f s = .ok a t) (h' : Attains D (g a) t Q) : Attains D (f >>= g) s Q := by
  have hsame : (f >>= g) s = g a t := by rw [bind_apply, h]
  exact congr hsame h'

/-- A first step that is aborted. -/
lemma abort (h : Attains D f s P) {e : Abort} (hf : f s = .error e t) : Attains D (f >>= g) s Q := by
  have hsame : (f >>= g) s = .error e t := by rw [bind_apply, hf]
  refine ⟨fun hok => ?_, fun hdeep => ?_⟩
  · rw [hsame] at hok
    cases hok
  · rw [hsame] at hdeep
    cases hdeep
    exact h.tooDeep hf

lemma bind (h : Attains D f s P) (h' : ∀ a t, f s = .ok a t → P a t → Attains D (g a) t Q) :
    Attains D (f >>= g) s Q := by
  cases hf : f s with
  | ok a t => exact step hf (h' a t hf (h.ok hf))
  | error e t => exact h.abort hf

lemma nested {f : CompileM Unit} {P : Unit → State → Prop} (hs : D s)
    (h : Attains D f { s with nesting := s.nesting + 1 } fun a t =>
      P a { t with nesting := t.nesting - 1 }) : Attains D (nested f) s P := by
  have hrun := nested_apply f s
  split at hrun
  · refine ⟨fun hok => ?_, fun hdeep => ?_⟩
    · rw [hrun] at hok
      cases hok
    · rw [hrun] at hdeep
      cases hdeep
      exact hs
  · split at hrun
    · rename_i a t hinside
      exact .of_ok hrun (h.ok hinside)
    · rename_i e t hinside
      refine ⟨fun hok => ?_, fun hdeep => ?_⟩
      · rw [hrun] at hok
        cases hok
      · rw [hrun] at hdeep
        cases hdeep
        exact h.tooDeep hinside

end Attains

/-! ## Steps that keep a fact -/

/-- The step keeps the fact, or leaves `D` where it goes too deep. -/
class Maintains (I D : State → Prop) (f : CompileM α) : Prop where
  spec : ∀ s, I s → Attains D f s fun _ t => I t

section Facts

variable {I D : State → Prop}

lemma Maintains.of_ok {f : CompileM α} (a : State → α) (t : State → State)
    (hf : ∀ s, f s = .ok (a s) (t s)) (ht : ∀ s, I s → I (t s)) : Maintains I D f :=
  ⟨fun s hs => .of_ok (hf s) (ht s hs)⟩

lemma Maintains.modify {t : State → State} (ht : ∀ s, I s → I (t s)) :
    Maintains I D (modify t : CompileM Unit) :=
  .of_ok (fun _ => ()) t (fun _ => rfl) ht

instance (a : α) : Maintains I D (pure a : CompileM α) := .of_ok _ id (pure_apply a) fun _ => id

instance : Maintains I D (get : CompileM State) := .of_ok id id get_apply fun _ => id

instance (f : Fault) : Maintains I D (throw (.fault f) : CompileM α) :=
  ⟨fun s _ => .of_fault (throw_apply (.fault f) s)⟩

instance (f : CompileM α) (g : α → CompileM β) [hf : Maintains I D f] [hg : ∀ a, Maintains I D (g a)] :
    Maintains I D (f >>= g) :=
  ⟨fun s hs => (hf.spec s hs).bind fun a t _ ht => (hg a).spec t ht⟩

instance (c : Prop) [Decidable c] (f g : CompileM α) [hf : Maintains I D f] [hg : Maintains I D g] :
    Maintains I D (if c then f else g) := by
  split
  · exact hf
  · exact hg

instance (step : CompileM Bool) (bound : Nat) [hstep : Maintains I D step] :
    Maintains I D (loop bound step) := by
  induction bound with
  | zero => exact inferInstanceAs (Maintains I D (throw (.fault .tokensExhausted) : CompileM Unit))
  | succ bound ih =>
    exact inferInstanceAs (Maintains I D (step >>= fun b => if b then loop bound step else pure ()))

instance : Maintains I D currentKind := .of_ok _ id currentKind_apply fun _ => id

instance : Maintains I D previousLine := .of_ok _ id previousLine_apply fun _ => id

instance : Maintains I D codeSize := .of_ok _ id codeSize_apply fun _ => id

instance (k : Token.Kind) : Maintains I D (check k) := .of_ok _ id (check_apply k) fun _ => id

/-! ### Consuming tokens -/

section Tokens

variable [Maintains I D advance]

instance (k : Token.Kind) : Maintains I D (accept k) :=
  inferInstanceAs (Maintains I D
    (check k >>= fun b => if b then advance >>= fun _ => pure true else pure false))

/-- A class body is passed over token by token. -/
instance (bound depth : Nat) : Maintains I D (skipBraces bound depth) := by
  induction bound generalizing depth with
  | zero =>
    cases depth with
    | zero => exact inferInstanceAs (Maintains I D (pure () : CompileM Unit))
    | succ depth => exact inferInstanceAs (Maintains I D (throw (.fault .tokensExhausted) : CompileM Unit))
  | succ bound ih =>
    cases depth with
    | zero => exact inferInstanceAs (Maintains I D (pure () : CompileM Unit))
    | succ depth =>
      have hkind : ∀ k : Token.Kind, Maintains I D (match k with
          | .eof => return ()
          | .leftBrace => do
            advance
            skipBraces bound (depth + 2)
          | .rightBrace => do
            advance
            skipBraces bound depth
          | _ => do
            advance
            skipBraces bound (depth + 1)) := by
        intro k
        split <;> infer_instance
      exact inferInstanceAs (Maintains I D (currentKind >>= fun _ => _))

end Tokens

/-! ## Durable facts -/

/-- The fact survives whatever may be done short of ending a panic, and leaves `D` of itself where a
compilation is given up. -/
class Durable (I : State → Prop) (D : outParam (State → Prop)) : Prop where
  left : ∀ {s}, I s → D s
  scope : ∀ {s}, I s → ∀ scope enclosing, I { s with scope, enclosing }
  nesting : ∀ {s}, I s → ∀ n, I { s with nesting := n }
  advance : ∀ {s}, I s → I s.advance
  error : ∀ {s}, I s → ∀ c : CompileError.Cause, c.Ordinary → I (s.report s.previous c)
  errorAtCurrent : ∀ {s}, I s → ∀ c : CompileError.Cause, c.Ordinary → I (s.report s.current c)

variable [Durable I D]

/-- A change of the innermost function. -/
instance (scope : State → FunctionScope) :
    Maintains I D (modify fun s => { s with scope := scope s } : CompileM Unit) :=
  .modify fun _ hs => Durable.scope hs _ _

instance (f : CompileM Unit) [hf : Maintains I D f] : Maintains I D (nested f) :=
  ⟨fun _ hs => .nested (Durable.left hs)
    ((hf.spec _ (Durable.nesting hs _)).mono fun _ _ ht => Durable.nesting ht _)⟩

instance : Maintains I D advance := .modify fun _ hs => Durable.advance hs

instance (c : CompileError.Cause) [hc : c.Ordinary] : Maintains I D (error c) :=
  .modify fun _ hs => Durable.error hs c hc

instance (c : CompileError.Cause) [hc : c.Ordinary] : Maintains I D (errorAtCurrent c) :=
  .modify fun _ hs => Durable.errorAtCurrent hs c hc

instance (k : Token.Kind) (w : Expected) : Maintains I D (consume k w) :=
  inferInstanceAs (Maintains I D
    (check k >>= fun b => if b then advance else errorAtCurrent (.expected w)))

lemma maintains_forM_error {cs : List CompileError.Cause} (hcs : ∀ c ∈ cs, c.Ordinary) :
    Maintains I D (cs.forM error) := by
  induction cs with
  | nil => exact inferInstanceAs (Maintains I D (pure () : CompileM Unit))
  | cons c cs ih =>
    obtain ⟨hc, hcs⟩ := List.forall_mem_cons.1 hcs
    have := ih hcs
    exact inferInstanceAs (Maintains I D (error c >>= fun _ => cs.forM error))

/-! ### Code -/

instance (f : Chunk → Chunk) : Maintains I D (modifyChunk f) := .modify fun _ hs => Durable.scope hs _ _

instance (f : Chunk → Nat × Chunk) : Maintains I D (modifyGetChunk f) :=
  .of_ok _ _ (modifyGetChunk_apply f) fun _ hs => Durable.scope hs _ _

instance (op : Opcode) (line : UInt32) : Maintains I D (emitOpAt op line) :=
  inferInstanceAs (Maintains I D (modifyChunk _))

instance (op : Opcode) : Maintains I D (emitOp op) :=
  inferInstanceAs (Maintains I D (previousLine >>= fun line => emitOpAt op line))

instance (b : UInt8) : Maintains I D (emitByte b) :=
  .of_ok _ _ (emitByte_apply b) fun _ hs => Durable.scope hs _ _

instance (n : Nat) : Maintains I D (emitShort n) :=
  inferInstanceAs (Maintains I D (emitByte _ >>= fun _ => emitByte _))

instance (op : Opcode) (n : Nat) : Maintains I D (emitOpShort op n) :=
  inferInstanceAs (Maintains I D (emitOp op >>= fun _ => emitShort n))

instance : Maintains I D emitReturn :=
  inferInstanceAs (Maintains I D (emitOp .loadNil >>= fun _ => emitOp .ret))

instance (index : Nat) : Maintains I D (operandOfIndex index) := by
  rw [operandOfIndex]
  infer_instance

instance (t : Text) : Maintains I D (stringOperand t) :=
  inferInstanceAs (Maintains I D (modifyGetChunk (·.addString t) >>= fun i => operandOfIndex i))

instance (t : Text) : Maintains I D (emitString t) :=
  inferInstanceAs (Maintains I D (stringOperand t >>= fun n => emitOpShort .loadString n))

instance (bits : UInt64) : Maintains I D (emitConstant bits) :=
  inferInstanceAs (Maintains I D (modifyGetChunk (·.addConstant bits) >>= fun i =>
    operandOfIndex i >>= fun n => emitOpShort .loadConstant n))

instance (op : Opcode) : Maintains I D (emitJump op) :=
  inferInstanceAs (Maintains I D (previousLine >>= fun line => modifyGetChunk (·.emitJump op line)))

instance (offset : Nat) : Maintains I D (patchJump offset) := by
  have hpatch : ∀ s : State, Maintains I D (match s.scope.chunk.jumpDistance offset with
      | .error f => throw (.fault f)
      | .ok none => error (.limit .jump)
      | .ok (some distance) => modifyChunk (·.setShort offset distance) : CompileM Unit) := by
    intro s
    split <;> infer_instance
  exact inferInstanceAs (Maintains I D (get >>= fun _ => _))

instance (start : Nat) : Maintains I D (emitLoop start) := by
  rw [emitLoop]
  infer_instance

/-! ### Blocks and variables -/

instance : Maintains I D beginScope := .modify fun _ hs => Durable.scope hs _ _

instance (ls : List Local) : Maintains I D (emitDrops ls) := by
  induction ls with
  | nil => exact inferInstanceAs (Maintains I D (pure () : CompileM Unit))
  | cons l ls ih =>
    exact inferInstanceAs (Maintains I D (emitOp (if l.captured then .closeUpvalue else .pop) >>=
      fun _ => emitDrops ls))

instance : Maintains I D endScope :=
  ⟨fun s hs => .congr (endScope_apply s) (Maintains.spec _ (Durable.scope hs _ _))⟩

instance (name : Text) : Maintains I D (declareLocal name) := by
  rw [declareLocal]
  infer_instance

instance : Maintains I D markInitialized := by
  refine .modify fun s hs => ?_
  split
  · exact hs
  · exact hs
  · exact Durable.scope hs _ _

instance (w : Expected) : Maintains I D (parseVariable w) := by
  rw [parseVariable]
  infer_instance

instance (global : Nat) : Maintains I D (defineVariable global) := by
  rw [defineVariable]
  infer_instance

lemma readErrors_ordinary (l : Local) : ∀ c ∈ Local.readErrors l, c.Ordinary := by
  rw [Local.readErrors]
  split
  · exact List.forall_mem_singleton.2 inferInstance
  · exact List.forall_mem_nil _

/-- Reading a variable of an enclosing function gives no error about the nesting. -/
lemma capture?_ordinary {name : Text} {f g : FunctionScope} {outer outer' : List FunctionScope}
    {i : Nat} {errors : List CompileError.Cause}
    (h : f.capture? name outer = some (i, g, outer', errors)) : ∀ c ∈ errors, c.Ordinary := by
  have hadd : ∀ (f : FunctionScope) (c : Capture), ∀ e ∈ (f.addCapture c).2.2, e.Ordinary := by
    intro f c
    rw [addCapture]
    split
    · exact List.forall_mem_nil _
    · split
      · exact List.forall_mem_singleton.2 inferInstance
      · exact List.forall_mem_nil _
  induction outer generalizing f g i outer' errors with
  | nil => cases h
  | cons o rest ih =>
    rw [capture?] at h
    split at h
    · cases h
      exact List.forall_mem_append.2 ⟨readErrors_ordinary _, hadd f _⟩
    · split at h
      · cases h
      · rename_i hrec
        cases h
        exact List.forall_mem_append.2 ⟨ih hrec, hadd f _⟩

instance (name : Text) : Maintains I D (resolve name) := by
  refine ⟨fun s hs => ?_⟩
  have hrun := resolve_apply name s
  split at hrun
  · rename_i slot l _
    have : Maintains I D ((Local.readErrors l).forM error) := maintains_forM_error (readErrors_ordinary l)
    exact .congr hrun (Maintains.spec s hs)
  · split at hrun
    · rename_i i scope enclosing errors hcapture
      have : Maintains I D (errors.forM error) := maintains_forM_error (capture?_ordinary hcapture)
      exact .congr hrun (Maintains.spec _ (Durable.scope hs _ _))
    · exact .congr hrun (Maintains.spec s hs)

instance : Maintains I D enterFunction := .modify fun _ hs => Durable.scope hs _ _

instance : Maintains I D leaveFunction := by
  refine .modify fun s hs => ?_
  split
  · exact hs
  · exact Durable.scope hs _ _

instance : Maintains I D finishFunction :=
  inferInstanceAs (Maintains I D (emitReturn >>= fun _ => get >>= fun s : State => pure s.scope.toPrototype))

instance (bound : Nat) : Maintains I D (compileParameters bound) := by
  induction bound with
  | zero => exact inferInstanceAs (Maintains I D (throw (.fault .tokensExhausted) : CompileM Unit))
  | succ bound ih =>
    simp only [compileParameters]
    infer_instance

/-! ## Phrases -/

section Phrases

variable (bound : Nat) (parse : Parts) [∀ p, Maintains I D (parse (.expression p))]

instance : Maintains I D (expression parse) :=
  inferInstanceAs (Maintains I D (parse (.expression .assignment)))

instance (canAssign : Bool) : Maintains I D (compileVariable parse canAssign) := by
  cases canAssign <;> simp only [compileVariable] <;> infer_instance

instance (canAssign : Bool) (o : Opening) : Maintains I D (compileOpening parse canAssign o) := by
  cases o with
  | number =>
    have hliteral : ∀ s : State, Maintains I D (match Number.readLiteral? s.previous.lexeme with
        | none => error (.limit .number)
        | some bits => emitConstant bits) := by
      intro s
      split <;> infer_instance
    exact inferInstanceAs (Maintains I D (get >>= fun _ => _))
  | string => exact inferInstanceAs (Maintains I D (get >>= fun s : State =>
      emitString (s.previous.lexeme.drop 1).dropLast))
  | _ =>
    rw [compileOpening]
    infer_instance

instance (count : Nat) : Maintains I D (compileArguments parse bound count) := by
  induction bound generalizing count with
  | zero => exact inferInstanceAs (Maintains I D (throw (.fault .tokensExhausted) : CompileM Nat))
  | succ bound ih =>
    simp only [compileArguments]
    infer_instance

instance : Maintains I D (compileCall bound parse) := by
  simp only [compileCall]
  infer_instance

instance (c : Continuation) : Maintains I D (compileContinuation bound parse c) := by
  cases c <;> rw [compileContinuation] <;> infer_instance

instance (p : Precedence) : Maintains I D (continueExpression bound parse p) := by
  have hcontinue : ∀ k : Token.Kind, Maintains I D (match k.continuation? with
      | none => pure false
      | some c =>
        if p.rank ≤ c.precedence.rank then do
          advance
          compileContinuation bound parse c
          return true
        else
          return false) := by
    intro k
    split <;> infer_instance
  exact inferInstanceAs (Maintains I D (currentKind >>= fun _ => _))

/-- An expression from its first token on. -/
lemma maintains_opened (p : Precedence) (s : State) : Maintains I D (match s.previous.kind.opening? with
    | none => error (.expected .expression)
    | some opening => do
      compileOpening parse (p = .assignment) opening
      loop bound (continueExpression bound parse p)
      if p = .assignment then
        if ← accept .equal then
          error .invalidAssignmentTarget) := by
  split <;> infer_instance

instance : Maintains I D (compileVar parse) := by
  simp only [compileVar]
  infer_instance

instance : Maintains I D (compileExpressionStatement parse) := by
  rw [compileExpressionStatement]
  infer_instance

instance : Maintains I D (compileForInitializer parse) := by
  rw [compileForInitializer]
  infer_instance

instance : Maintains I D (compileForCondition parse) := by
  rw [compileForCondition]
  infer_instance

instance (start : Nat) : Maintains I D (compileForIncrement parse start) := by
  rw [compileForIncrement]
  infer_instance

instance : Maintains I D (compilePrint parse) := by
  rw [compilePrint]
  infer_instance

instance : Maintains I D (compileReturn parse) := by
  simp only [compileReturn]
  infer_instance

section Bodies

variable [Maintains I D (parse .statement)]

instance : Maintains I D (compileIf parse) := by
  simp only [compileIf]
  infer_instance

instance : Maintains I D (compileWhile parse) := by
  rw [compileWhile]
  infer_instance

/-- How a for loop ends, with or without a jump that leaves it. -/
lemma maintains_exit (exit? : Option Nat) : Maintains I D (match exit? with
    | none => endScope
    | some exit => do
      patchJump exit
      emitOp .pop
      endScope) := by
  cases exit? <;> infer_instance

instance : Maintains I D (compileFor parse) := by
  have hexit : ∀ exit?, _ := maintains_exit (I := I) (D := D)
  simp only [compileFor]
  infer_instance

end Bodies

section Functions

variable [Maintains I D (compileBlock bound parse)]

instance : Maintains I D (functionBody bound parse) := by
  simp only [functionBody]
  infer_instance

instance : Maintains I D (compileFunction bound parse) := by
  rw [compileFunction_eq]
  infer_instance

instance : Maintains I D (compileFun bound parse) := by
  rw [compileFun]
  infer_instance

end Functions

end Phrases

end Facts

end Steps

end Compiler

end Lox
