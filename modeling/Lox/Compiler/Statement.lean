import Lox.Compiler.Expression

/-!
# Compiling declarations and statements

As for expressions, the compiler of the phrases inside is a parameter.  Control flow becomes
jumps: a condition is left on the stack by the conditional jump, so both ways on begin with a
pop.  A declaration is the unit of error recovery.
-/

namespace Lox.Compiler

/-! ## Declarations -/

/-- A variable declaration after its keyword. -/
def compileVar (parse : Parts) : CompileM Unit := do
  let global ← parseVariable .variableName
  if ← accept .equal then expression parse else emitOp .loadNil
  consume .semicolon .semicolonAfterVariable
  defineVariable global

/-- Declarations up to the closing brace. -/
def compileBlock (bound : Nat) (parse : Parts) : CompileM Unit := do
  loop bound do
    if (← check .rightBrace) || (← check .eof) then
      return false
    parse .declaration
    return true
  consume .rightBrace .braceAfterBlock

/-- The parameters of a function, at least one. -/
def compileParameters : (bound : Nat) → CompileM Unit
  | 0 => throw (.fault .tokensExhausted)
  | bound + 1 => do
    modify fun s => { s with scope := { s.scope with arity := s.scope.arity + 1 } }
    if maxArguments < (← get).scope.arity then
      errorAtCurrent (.limit .parameters)
    let parameter ← parseVariable .parameterName
    defineVariable parameter
    if ← accept .comma then compileParameters bound

/-- A function from its parameter list on, named by the token just consumed, and the instruction
that makes a closure of it. -/
def compileFunction (bound : Nat) (parse : Parts) : CompileM Unit := do
  enterFunction
  beginScope
  consume .leftParen .parenAfterFunctionName
  unless ← check .rightParen do
    compileParameters bound
  consume .rightParen .parenAfterParameters
  consume .leftBrace .braceBeforeBody
  compileBlock bound parse
  let prototype ← finishFunction
  leaveFunction
  let index ← modifyGetChunk (·.addFunction prototype)
  emitOpShort .closure (← operandOfIndex index)

/-- A function declaration after its keyword.  The function may refer to itself. -/
def compileFun (bound : Nat) (parse : Parts) : CompileM Unit := do
  let global ← parseVariable .functionName
  markInitialized
  compileFunction bound parse
  defineVariable global

/-- Passes over a class body in which `depth` braces are open. -/
def skipBraces : (bound depth : Nat) → CompileM Unit
  | _, 0 => return ()
  | 0, _ => throw (.fault .tokensExhausted)
  | bound + 1, depth + 1 => do
    match ← currentKind with
    | .eof => return ()
    | .leftBrace =>
      advance
      skipBraces bound (depth + 2)
    | .rightBrace =>
      advance
      skipBraces bound depth
    | _ =>
      advance
      skipBraces bound (depth + 1)

/-- A class declaration after its keyword: refused, and passed over as a whole so that its body
gives no further errors. -/
def refuseClass (bound : Nat) : CompileM Unit := do
  error (.unsupported .classes)
  let _ ← accept .identifier
  if ← accept .less then
    let _ ← accept .identifier
  if ← accept .leftBrace then
    skipBraces bound 1
  modify fun s => { s with panicking := false }

/-- A declaration or statement, after which a panic ends. -/
def compileDeclaration (bound : Nat) (parse : Parts) : CompileM Unit :=
  nested do
    if ← accept .classWord then refuseClass bound
    else if ← accept .funWord then compileFun bound parse
    else if ← accept .varWord then compileVar parse
    else parse .statement
    if (← get).panicking then synchronize bound

/-! ## Statements -/

/-- A print statement after its keyword. -/
def compilePrint (parse : Parts) : CompileM Unit := do
  expression parse
  consume .semicolon .semicolonAfterValue
  emitOp .print

/-- A conditional after its keyword. -/
def compileIf (parse : Parts) : CompileM Unit := do
  consume .leftParen .parenAfterIf
  expression parse
  consume .rightParen .parenAfterCondition
  let else_ ← emitJump .jumpIfFalse
  emitOp .pop
  parse .statement
  let end_ ← emitJump .jump
  patchJump else_
  emitOp .pop
  if ← accept .elseWord then
    parse .statement
  patchJump end_

/-- A while loop after its keyword. -/
def compileWhile (parse : Parts) : CompileM Unit := do
  let start ← codeSize
  consume .leftParen .parenAfterWhile
  expression parse
  consume .rightParen .parenAfterCondition
  let exit ← emitJump .jumpIfFalse
  emitOp .pop
  parse .statement
  emitLoop start
  patchJump exit
  emitOp .pop

/-- An expression statement.  In an interactive compilation an expression that ends the source at
the top level is printed instead of dropped. -/
def compileExpressionStatement (parse : Parts) : CompileM Unit := do
  expression parse
  let s ← get
  if s.interactive && s.scope.kind = .script && s.scope.depth = 0 && s.current.kind = .eof then
    emitOp .print
  else
    consume .semicolon .semicolonAfterExpression
    emitOp .pop

/-- The first clause of a for loop. -/
def compileForInitializer (parse : Parts) : CompileM Unit := do
  if ← accept .semicolon then return ()
  else if ← accept .varWord then compileVar parse
  else compileExpressionStatement parse

/-- The condition clause of a for loop; gives the jump that leaves the loop. -/
def compileForCondition (parse : Parts) : CompileM (Option Nat) := do
  if ← accept .semicolon then
    return none
  else
    expression parse
    consume .semicolon .semicolonAfterLoopCondition
    let exit ← emitJump .jumpIfFalse
    emitOp .pop
    return some exit

/-- The last clause of a for loop, which runs after the body although it stands before it; gives
the offset that the body jumps back to. -/
def compileForIncrement (parse : Parts) (start : Nat) : CompileM Nat := do
  if ← accept .rightParen then
    return start
  else
    let body ← emitJump .jump
    let increment ← codeSize
    expression parse
    emitOp .pop
    consume .rightParen .parenAfterForClauses
    emitLoop start
    patchJump body
    return increment

/-- A for loop after its keyword. -/
def compileFor (parse : Parts) : CompileM Unit := do
  beginScope
  consume .leftParen .parenAfterFor
  compileForInitializer parse
  let start ← codeSize
  let exit? ← compileForCondition parse
  let start ← compileForIncrement parse start
  parse .statement
  emitLoop start
  match exit? with
  | none => pure ()
  | some exit =>
    patchJump exit
    emitOp .pop
  endScope

/-- A return statement after its keyword. -/
def compileReturn (parse : Parts) : CompileM Unit := do
  if (← get).scope.kind = .script then
    error (.static .returnAtTopLevel)
  if ← accept .semicolon then
    emitReturn
  else
    expression parse
    consume .semicolon .semicolonAfterReturnValue
    emitOp .ret

/-- A statement. -/
def compileStatement (bound : Nat) (parse : Parts) : CompileM Unit := do
  if ← accept .printWord then compilePrint parse
  else if ← accept .ifWord then compileIf parse
  else if ← accept .returnWord then compileReturn parse
  else if ← accept .whileWord then compileWhile parse
  else if ← accept .forWord then compileFor parse
  else if ← accept .leftBrace then
    beginScope
    compileBlock bound parse
    endScope
  else compileExpressionStatement parse

end Lox.Compiler
