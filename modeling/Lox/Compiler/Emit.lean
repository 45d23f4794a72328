import Lox.Compiler.State

/-!
# Tokens, errors and emitted code

The vocabulary of the compiler: consuming tokens, reporting errors, writing instructions into the
innermost function, and opening and closing blocks.  Every emitted opcode carries the line of the
token it stems from, and its operand bytes carry the same line.
-/

namespace Lox.Compiler

/-! ## Tokens -/

/-- The kind of the token being looked at. -/
def currentKind : CompileM Token.Kind := do
  return (← get).current.kind

/-- The line of the token just consumed. -/
def previousLine : CompileM UInt32 := do
  return (← get).previous.line

/-- Consumes the current token. -/
def advance : CompileM Unit :=
  modify State.advance

/-- Whether the current token is of a kind. -/
def check (kind : Token.Kind) : CompileM Bool := do
  return (← currentKind) = kind

/-- Consumes the current token if it is of a kind, and says whether it was. -/
def accept (kind : Token.Kind) : CompileM Bool := do
  if ← check kind then
    advance
    return true
  else
    return false

/-! ## Errors -/

/-- Reports an error at the token just consumed. -/
def error (cause : CompileError.Cause) : CompileM Unit :=
  modify fun s => s.report s.previous cause

/-- Reports an error at the token being looked at. -/
def errorAtCurrent (cause : CompileError.Cause) : CompileM Unit :=
  modify fun s => s.report s.current cause

/-- Consumes a token the grammar asks for; any other token stays and is an error. -/
def consume (kind : Token.Kind) (what : Expected) : CompileM Unit := do
  if ← check kind then advance else errorAtCurrent (.expected what)

/-! ## Loops -/

/-- Runs a step until it says that it is done.  Each step has to consume a token; the bound is
more than the tokens there are, and running out of it is a fault. -/
def loop : (bound : Nat) → (step : CompileM Bool) → CompileM Unit
  | 0, _ => throw (.fault .tokensExhausted)
  | bound + 1, step => do
    if ← step then loop bound step

/-- Ends a panic, and consumes tokens up to a place where a statement may begin: after a
semicolon or before a word that begins one. -/
def synchronize (bound : Nat) : CompileM Unit := do
  modify fun s => { s with panicking := false }
  loop bound do
    let s ← get
    if s.current.kind = .eof || s.previous.kind = .semicolon || s.current.kind.beginsStatement then
      return false
    advance
    return true

/-! ## Code -/

/-- Changes the code of the innermost function. -/
@[inline] def modifyChunk (f : Chunk → Chunk) : CompileM Unit :=
  modify fun s => { s with scope := { s.scope with chunk := f s.scope.chunk } }

/-- Changes the code of the innermost function and gives a result. -/
@[inline] def modifyGetChunk (f : Chunk → Nat × Chunk) : CompileM Nat :=
  modifyGet fun s =>
    let (n, chunk) := f s.scope.chunk
    (n, { s with scope := { s.scope with chunk } })

/-- How much code the innermost function has. -/
def codeSize : CompileM Nat := do
  return (← get).scope.chunk.size

/-- Writes an opcode for a source line. -/
def emitOpAt (op : Opcode) (line : UInt32) : CompileM Unit :=
  modifyChunk (·.writeOp op line)

/-- Writes an opcode for the token just consumed. -/
def emitOp (op : Opcode) : CompileM Unit := do
  emitOpAt op (← previousLine)

/-- Writes an operand byte, with the line of the byte before it. -/
def emitByte (byte : UInt8) : CompileM Unit := do
  let line ← previousLine
  modifyChunk fun c =>
    let line := c.lines.back?.getD line
    c.write byte line

/-- Writes a two-byte operand. -/
def emitShort (value : Nat) : CompileM Unit := do
  emitByte (Chunk.highByte value)
  emitByte (Chunk.lowByte value)

/-- Writes an opcode with a two-byte operand. -/
def emitOpShort (op : Opcode) (operand : Nat) : CompileM Unit := do
  emitOp op
  emitShort operand

/-- A place in a pool as an operand.  One that does not fit is an error, given once per
function, and zero stands in for it. -/
def operandOfIndex (index : Nat) : CompileM Nat := do
  if Chunk.maxShort < index then
    unless (← get).scope.overflowReported do
      modify fun s => { s with scope := { s.scope with overflowReported := true } }
      error (.limit .constants)
    return 0
  else
    return index

/-- Writes the instruction that loads a number. -/
def emitConstant (bits : UInt64) : CompileM Unit := do
  let index ← modifyGetChunk (·.addConstant bits)
  emitOpShort .loadConstant (← operandOfIndex index)

/-- The operand that stands for a text. -/
def stringOperand (t : Text) : CompileM Nat := do
  let index ← modifyGetChunk (·.addString t)
  operandOfIndex index

/-- Writes the instruction that loads a string. -/
def emitString (t : Text) : CompileM Unit := do
  emitOpShort .loadString (← stringOperand t)

/-- Writes a forward jump to be patched; gives the offset of its operand. -/
def emitJump (op : Opcode) : CompileM Nat := do
  let line ← previousLine
  modifyGetChunk (·.emitJump op line)

/-- Points a forward jump at the code to be written next. -/
def patchJump (offset : Nat) : CompileM Unit := do
  match (← get).scope.chunk.jumpDistance offset with
  | .error f => throw (.fault f)
  | .ok none => error (.limit .jump)
  | .ok (some distance) => modifyChunk (·.setShort offset distance)

/-- Writes a backward jump to an offset. -/
def emitLoop (start : Nat) : CompileM Unit := do
  emitOp .loop
  let distance := (← codeSize) - start + 2
  if Chunk.maxShort < distance then
    error (.limit .loop)
    emitShort 0
  else
    emitShort distance

/-- Writes the return of a function that ends without one. -/
def emitReturn : CompileM Unit := do
  emitOp .loadNil
  emitOp .ret

/-! ## Blocks and variables -/

/-- Opens a block. -/
def beginScope : CompileM Unit :=
  modify fun s => { s with scope := { s.scope with depth := s.scope.depth + 1 } }

/-- Whether a local belongs to a block at `depth` or deeper.  A local whose declaration is not
complete belongs to the innermost block. -/
def Local.inBlock (depth : Nat) (l : Local) : Bool :=
  match l.depth with
  | none => true
  | some d => depth ≤ d

/-- Writes the instructions that drop locals: a captured one moves into its upvalue. -/
def emitDrops : List Local → CompileM Unit
  | [] => return ()
  | l :: ls => do
    emitOp (if l.captured then .closeUpvalue else .pop)
    emitDrops ls

/-- Closes a block, dropping its locals. -/
def endScope : CompileM Unit := do
  let s ← get
  let (gone, kept) := s.scope.locals.span (Local.inBlock s.scope.depth)
  set { s with scope := { s.scope with depth := s.scope.depth - 1, locals := kept } }
  emitDrops gone

/-- Declares a local, not yet to be read, unless its block declares the name already or there
are too many. -/
def declareLocal (name : Text) : CompileM Unit := do
  let scope := (← get).scope
  let block := scope.locals.takeWhile (Local.inBlock scope.depth)
  if block.any (·.name = name) then
    error (.static .duplicateLocal)
  else if FunctionScope.maxLocals ≤ scope.locals.length then
    error (.limit .locals)
  else
    modify fun s => { s with scope := { s.scope with
      locals := { name, depth := none, captured := false } :: s.scope.locals } }

/-- Makes the newest local readable.  At the top level there are only globals. -/
def markInitialized : CompileM Unit :=
  modify fun s =>
    match s.scope.depth, s.scope.locals with
    | 0, _ | _, [] => s
    | depth, l :: older =>
      { s with scope := { s.scope with locals := { l with depth := some depth } :: older } }

/-- Reads the name of a variable being declared.  In a block it becomes a local; at the top level
the result is the operand that names the global. -/
def parseVariable (what : Expected) : CompileM Nat := do
  consume .identifier what
  let s ← get
  if 0 < s.scope.depth then
    declareLocal s.previous.lexeme
    return 0
  else
    stringOperand s.previous.lexeme

/-- Completes a declaration whose value is on top of the stack. -/
def defineVariable (global : Nat) : CompileM Unit := do
  if 0 < (← get).scope.depth then markInitialized else emitOpShort .defineGlobal global

/-! ## Functions -/

/-- Begins a function named by the token just consumed. -/
def enterFunction : CompileM Unit :=
  modify fun s =>
    { s with scope := .new .function s.previous.lexeme, enclosing := s.scope :: s.enclosing }

/-- Completes the innermost function. -/
def finishFunction : CompileM Prototype := do
  emitReturn
  return (← get).scope.toPrototype

/-- Goes back to the function around the innermost one. -/
def leaveFunction : CompileM Unit :=
  modify fun s =>
    match s.enclosing with
    | [] => s
    | scope :: enclosing => { s with scope, enclosing }

end Lox.Compiler
