import Mathlib.Tactic.Common
import Lox.Bytecode.Instruction
import Lox.Compiler.Program

/-!
# What the compiler's steps do

A step of compilation is a function of the state.  This file says once, for every step of the
vocabulary in `Lox.Compiler.Emit`, which state it leaves: `accept_apply`, `emitOp_apply`,
`patchJump_apply` and so on.  Later files compose these equations and do not open the steps
again.

Code is written an instruction at a time.  `Instruction.bytes` is the encoding of an instruction
and `Chunk.append` writes a list of instructions, each with the source line all its bytes carry;
the emitting steps are equal to appending (`State.write`).
-/

namespace Lox

/-! ## Instructions as bytes -/

/-- The operand bytes of an instruction. -/
def Instruction.operandBytes (i : Instruction) : List UInt8 :=
  match i.opcode.operandWidth with
  | 0 => []
  | 1 => [i.operand.toUInt8]
  | _ => [Chunk.highByte i.operand, Chunk.lowByte i.operand]

/-- The bytes of an instruction. -/
def Instruction.bytes (i : Instruction) : List UInt8 :=
  i.opcode.toByte :: i.operandBytes

@[simp] lemma Instruction.length_bytes (i : Instruction) : i.bytes.length = i.size := by
  rcases i with ⟨op, n⟩
  cases op <;> rfl

lemma Instruction.size_pos (i : Instruction) : 0 < i.size := by
  rw [Instruction.size, Opcode.size]
  omega

/-- A stretch of code: instructions, each with the source line it stems from. -/
abbrev Code := List (Instruction × UInt32)

namespace Code

/-- The bytes of a stretch of code. -/
def bytes (c : Code) : List UInt8 :=
  c.flatMap fun i => i.1.bytes

/-- The line of each byte of a stretch of code. -/
def lines (c : Code) : List UInt32 :=
  c.flatMap fun i => List.replicate i.1.size i.2

/-- How many bytes a stretch of code takes. -/
def size (c : Code) : Nat :=
  c.bytes.length

@[simp] lemma bytes_nil : bytes [] = [] := rfl

@[simp] lemma bytes_cons (i : Instruction × UInt32) (c : Code) :
    bytes (i :: c) = i.1.bytes ++ bytes c := rfl

@[simp] lemma bytes_append (c d : Code) : bytes (c ++ d) = bytes c ++ bytes d := by
  simp [bytes]

@[simp] lemma lines_nil : lines [] = [] := rfl

@[simp] lemma lines_cons (i : Instruction × UInt32) (c : Code) :
    lines (i :: c) = List.replicate i.1.size i.2 ++ lines c := rfl

@[simp] lemma lines_append (c d : Code) : lines (c ++ d) = lines c ++ lines d := by
  simp [lines]

@[simp] lemma size_nil : size [] = 0 := rfl

@[simp] lemma size_cons (i : Instruction × UInt32) (c : Code) : size (i :: c) = i.1.size + size c := by
  simp [size]

lemma size_pop_cons (line : UInt32) (c : Code) : size ((⟨.pop, 0⟩, line) :: c) = 1 + c.size := by
  simp [Instruction.size, Opcode.size, Opcode.operandWidth]

@[simp] lemma size_append (c d : Code) : size (c ++ d) = size c + size d := by
  simp [size]

@[simp] lemma length_bytes (c : Code) : c.bytes.length = c.size := rfl

@[simp] lemma length_lines (c : Code) : c.lines.length = c.size := by
  induction c with
  | nil => rfl
  | cons i c ih => simp [ih]

end Code

/-- Writes a stretch of code at the end of a chunk. -/
def Chunk.append (c : Chunk) (code : Code) : Chunk :=
  { c with code := c.code ++ code.bytes.toArray, lines := c.lines ++ code.lines.toArray }

namespace Chunk

@[simp] lemma append_nil (c : Chunk) : c.append [] = c := by
  cases c
  simp [append]

@[simp] lemma append_append (c : Chunk) (p q : Code) : (c.append p).append q = c.append (p ++ q) := by
  simp [append]

@[simp] lemma size_append (c : Chunk) (p : Code) : (c.append p).code.size = c.code.size + p.size := by
  simp [append]

@[simp] lemma constants_append (c : Chunk) (p : Code) : (c.append p).constants = c.constants := rfl

@[simp] lemma strings_append (c : Chunk) (p : Code) : (c.append p).strings = c.strings := rfl

@[simp] lemma functions_append (c : Chunk) (p : Code) : (c.append p).functions = c.functions := rfl

lemma writeOp_eq_append (c : Chunk) (op : Opcode) (line : UInt32) (h : op.operandWidth = 0) :
    c.writeOp op line = c.append [(⟨op, 0⟩, line)] := by
  simp [writeOp, write, append, Instruction.bytes, Instruction.operandBytes, Instruction.size,
    Opcode.size, h]

end Chunk

namespace Compiler

/-! ## Sequencing -/

section Sequencing

variable {α β : Type}

lemma bind_apply (f : CompileM α) (g : α → CompileM β) (s : State) :
    (f >>= g) s = match f s with
      | .ok a s' => g a s'
      | .error e s' => .error e s' := by
  change EStateM.bind f g s = _
  unfold EStateM.bind
  cases f s <;> rfl

lemma pure_apply (a : α) (s : State) : (pure a : CompileM α) s = .ok a s := rfl

lemma get_apply (s : State) : (get : CompileM State) s = .ok s s := rfl

lemma set_apply (s t : State) : (set t : CompileM PUnit) s = .ok () t := rfl

lemma modify_apply (f : State → State) (s : State) :
    (modify f : CompileM PUnit) s = .ok () (f s) := rfl

lemma throw_apply (e : Abort) (s : State) : (throw e : CompileM α) s = .error e s := rfl

/-- A sequence that completes has completed its first half. -/
lemma bind_ok {f : CompileM α} {g : α → CompileM β} {s s'' : State} {b : β}
    (h : (f >>= g) s = .ok b s'') : ∃ a s', f s = .ok a s' ∧ g a s' = .ok b s'' := by
  rw [bind_apply] at h
  cases hf : f s with
  | ok a s' =>
    rw [hf] at h
    exact ⟨a, s', rfl, h⟩
  | error e s' =>
    rw [hf] at h
    cases h

end Sequencing

/-! ## Tokens and errors -/

lemma currentKind_apply (s : State) : currentKind s = .ok s.current.kind s := rfl

lemma previousLine_apply (s : State) : previousLine s = .ok s.previous.line s := rfl

lemma advance_apply (s : State) : advance s = .ok () s.advance := rfl

lemma check_apply (k : Token.Kind) (s : State) :
    check k s = .ok (decide (s.current.kind = k)) s := rfl

lemma accept_apply (k : Token.Kind) (s : State) :
    accept k s = if s.current.kind = k then .ok true s.advance else .ok false s := by
  rw [accept, bind_apply, check_apply]
  by_cases h : s.current.kind = k
  · simp [h, bind_apply, advance_apply, pure_apply]
  · simp [h, pure_apply]

lemma error_apply (c : CompileError.Cause) (s : State) :
    error c s = .ok () (s.report s.previous c) := rfl

lemma errorAtCurrent_apply (c : CompileError.Cause) (s : State) :
    errorAtCurrent c s = .ok () (s.report s.current c) := rfl

lemma consume_apply (k : Token.Kind) (w : Expected) (s : State) :
    consume k w s = .ok () (if s.current.kind = k then s.advance
      else s.report s.current (.expected w)) := by
  rw [consume, bind_apply, check_apply]
  by_cases h : s.current.kind = k
  · simp [h, advance_apply]
  · simp [h, errorAtCurrent_apply]

/-! ## Code -/

/-- The state with the innermost function's chunk changed. -/
def State.mapChunk (s : State) (f : Chunk → Chunk) : State :=
  { s with scope := { s.scope with chunk := f s.scope.chunk } }

/-- The state after an instruction was written. -/
def State.write (s : State) (i : Instruction) (line : UInt32) : State :=
  s.mapChunk (·.append [(i, line)])

@[simp] lemma size_write (s : State) (op : Opcode) (n : Nat) (line : UInt32) :
    (s.write ⟨op, n⟩ line).scope.chunk.code.size = s.scope.chunk.code.size + op.size := by
  simp [State.write, State.mapChunk, Instruction.size]

lemma modifyChunk_apply (f : Chunk → Chunk) (s : State) :
    modifyChunk f s = .ok () (s.mapChunk f) := rfl

lemma modifyGetChunk_apply (f : Chunk → Nat × Chunk) (s : State) :
    modifyGetChunk f s = .ok (f s.scope.chunk).1 (s.mapChunk fun c => (f c).2) := rfl

lemma codeSize_apply (s : State) : codeSize s = .ok s.scope.chunk.code.size s := rfl

lemma emitOpAt_apply (op : Opcode) (line : UInt32) (s : State) (h : op.operandWidth = 0) :
    emitOpAt op line s = .ok () (s.write ⟨op, 0⟩ line) := by
  rw [emitOpAt, modifyChunk_apply, State.write]
  simp only [Chunk.writeOp_eq_append _ _ _ h]

lemma emitOp_apply (op : Opcode) (s : State) (h : op.operandWidth = 0) :
    emitOp op s = .ok () (s.write ⟨op, 0⟩ s.previous.line) := by
  rw [emitOp, bind_apply, previousLine_apply]
  exact emitOpAt_apply op _ s h

lemma emitByte_apply (b : UInt8) (s : State) :
    emitByte b s = .ok () (s.mapChunk fun c => c.write b (c.lines.back?.getD s.previous.line)) :=
  rfl

lemma emitOpShort_apply (op : Opcode) (n : Nat) (s : State) (h : op.operandWidth = 2) :
    emitOpShort op n s = .ok () (s.write ⟨op, n⟩ s.previous.line) := by
  simp [emitOpShort, emitShort, emitOp, emitOpAt, bind_apply, previousLine_apply,
    modifyChunk_apply, emitByte_apply, State.write, State.mapChunk, Chunk.writeOp, Chunk.write,
    Chunk.append, Instruction.bytes, Instruction.operandBytes, Instruction.size, Opcode.size, h]
  constructor <;> apply Array.ext' <;> simp

/-- A call is written with the line of its parenthesis and its argument count in one byte. -/
lemma emitCall_apply (line : UInt32) (n : Nat) (s : State) :
    (do emitOpAt .call line; emitByte n.toUInt8 : CompileM Unit) s =
      .ok () (s.write ⟨.call, n⟩ line) := by
  simp [emitOpAt, bind_apply, modifyChunk_apply, emitByte_apply, State.write, State.mapChunk,
    Chunk.writeOp, Chunk.write, Chunk.append, Instruction.bytes, Instruction.operandBytes,
    Instruction.size, Opcode.size, Opcode.operandWidth]
  constructor <;> apply Array.ext' <;> simp

lemma emitReturn_apply (s : State) :
    emitReturn s = .ok () ((s.write ⟨.loadNil, 0⟩ s.previous.line).write ⟨.ret, 0⟩
      s.previous.line) := by
  rw [emitReturn, bind_apply, emitOp_apply _ _ rfl]
  exact emitOp_apply _ _ rfl

/-- A forward jump is written with a placeholder for its distance. -/
lemma emitJump_apply (op : Opcode) (s : State) (h : op.operandWidth = 2) :
    emitJump op s =
      .ok (s.scope.chunk.code.size + 1) (s.write ⟨op, Chunk.maxShort⟩ s.previous.line) := by
  have hbytes : Instruction.bytes ⟨op, Chunk.maxShort⟩ = [op.toByte, 0xFF, 0xFF] := by
    simp only [Instruction.bytes, Instruction.operandBytes, h]
    rfl
  simp [emitJump, bind_apply, previousLine_apply, modifyGetChunk_apply, Chunk.emitJump,
    Chunk.emitJumpByte, Chunk.write, State.write, State.mapChunk, Chunk.append, hbytes,
    Instruction.size, Opcode.size, h]
  constructor <;> apply Array.ext' <;> simp

lemma patchJump_apply (offset : Nat) (s : State) :
    patchJump offset s = match s.scope.chunk.jumpDistance offset with
      | .error f => .error (.fault f) s
      | .ok none => .ok () (s.report s.previous (.limit .jump))
      | .ok (some distance) => .ok () (s.mapChunk (·.setShort offset distance)) := by
  rw [patchJump, bind_apply, get_apply]
  cases h : s.scope.chunk.jumpDistance offset with
  | error f => simp [h, throw_apply]
  | ok distance? => cases distance? <;> simp [h, error_apply, modifyChunk_apply]

lemma emitLoop_apply (start : Nat) (s : State) (h : start ≤ s.scope.chunk.code.size) :
    emitLoop start s =
      let distance := s.scope.chunk.code.size + 3 - start
      if Chunk.maxShort < distance then
        emitShort 0 ((s.mapChunk (·.writeOp .loop s.previous.line)).report s.previous (.limit .loop))
      else .ok () (s.write ⟨.loop, distance⟩ s.previous.line) := by
  have hd : (s.mapChunk (·.writeOp .loop s.previous.line)).scope.chunk.code.size - start + 2 =
      s.scope.chunk.code.size + 3 - start := by
    simp [State.mapChunk, Chunk.writeOp, Chunk.write]
    omega
  have hemit : emitOp .loop s = .ok () (s.mapChunk (·.writeOp .loop s.previous.line)) := rfl
  simp only [emitLoop, bind_apply, hemit, codeSize_apply, hd]
  split
  · rfl
  · rw [← emitOpShort_apply .loop _ s rfl, emitOpShort, bind_apply, hemit]

/-! ## Operands -/

lemma operandOfIndex_apply (index : Nat) (s : State) :
    operandOfIndex index s =
      if Chunk.maxShort < index then
        .ok 0 (if s.scope.overflowReported then s
          else ({ s with scope := { s.scope with overflowReported := true } }).report s.previous
            (.limit .constants))
      else .ok index s := by
  rw [operandOfIndex]
  split
  · rw [bind_apply, get_apply]
    by_cases h : s.scope.overflowReported
    · simp only [h, if_true]
      rfl
    · simp only [h]
      rfl
  · rfl

/-! ## Blocks -/

/-- What a block does again and again. -/
def blockStep (parse : Parts) : CompileM Bool := do
  if (← check .rightBrace) || (← check .eof) then
    return false
  parse .declaration
  return true

lemma loop_blockStep_apply (parse : Parts) (bound : Nat) (s : State) :
    loop (bound + 1) (blockStep parse) s =
      if s.current.kind = .rightBrace ∨ s.current.kind = .eof then .ok () s
      else (parse .declaration >>= fun _ => loop bound (blockStep parse)) s := by
  rw [loop, bind_apply, blockStep, bind_apply, check_apply]
  dsimp only
  rw [bind_apply, check_apply]
  by_cases hstop : s.current.kind = .rightBrace ∨ s.current.kind = .eof
  · simp [hstop, pure_apply]
  · simp only [not_or] at hstop
    simp only [hstop, decide_false, Bool.or_self, Bool.false_eq_true, if_false, bind_apply]
    cases parse .declaration s with
    | ok a t => simp [pure_apply]
    | error e t => simp

/-! ## The end of the source -/

lemma accept_of_end {k : Token.Kind} (hk : k ≠ .eof) {s : State} (hs : s.current.kind = .eof) :
    accept k s = .ok false s := by
  rw [accept_apply, if_neg (hs ▸ hk.symm)]

lemma synchronize_of_end {bound : Nat} (hbound : 0 < bound) {s : State} (hs : s.current.kind = .eof) :
    synchronize bound s = .ok () { s with panicking := false } := by
  obtain ⟨bound, rfl⟩ := Nat.exists_eq_succ_of_ne_zero (Nat.ne_of_gt hbound)
  simp [synchronize, bind_apply, modify_apply, loop, get_apply, hs, pure_apply]

end Compiler

end Lox
