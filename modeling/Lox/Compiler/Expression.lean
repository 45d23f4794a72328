import Lox.Number.Literal
import Lox.Compiler.Emit

/-!
# Compiling expressions

The grammar's recursion is left open here: a phrase is compiled by a function that is given the
compiler of its parts, `parse`, and a bound for its loops.  `Compiler/Program` ties the knot.

An expression of precedence `p` is an opening token with what belongs to it, followed by
continuations that bind at least as tightly as `p`.  Only an expression of the lowest precedence
may be an assignment.
-/

namespace Lox.Compiler

/-- The phrases of the grammar that contain one another. -/
inductive Phrase where
  | declaration
  | statement
  | expression (precedence : Precedence)
  deriving DecidableEq, Repr

/-- The compiler of the phrases inside a phrase. -/
abbrev Parts := Phrase → CompileM Unit

/-- At most this many declarations and expressions may contain one another. -/
def maxNesting : Nat := 256

/-- At most this many arguments and parameters. -/
def maxArguments : Nat := 255

/-- Compiles something one level deeper. -/
def nested (inside : CompileM Unit) : CompileM Unit := do
  let s ← get
  if maxNesting ≤ s.nesting then
    throw (.tooDeep s.previous.line)
  set { s with nesting := s.nesting + 1 }
  inside
  modify fun s => { s with nesting := s.nesting - 1 }

/-- A whole expression. -/
def expression (parse : Parts) : CompileM Unit :=
  parse (.expression .assignment)

/-! ## Openings -/

/-- A number literal. -/
def compileNumber : CompileM Unit := do
  match Number.readLiteral? (← get).previous.lexeme with
  | none => error (.limit .number)
  | some bits => emitConstant bits

/-- A string literal, without its quotes. -/
def compileString : CompileM Unit := do
  emitString ((← get).previous.lexeme.drop 1).dropLast

/-- How a variable is reached. -/
structure Access where
  read : Opcode
  write : Opcode
  operand : Nat

/-- Finds a variable: a local of this function, one of an enclosing function, or else a
global. -/
def resolve (name : Text) : CompileM Access := do
  let s ← get
  match FunctionScope.findLocal name s.scope.locals with
  | some (slot, l) =>
    (FunctionScope.Local.readErrors l).forM error
    return { read := .getLocal, write := .setLocal, operand := slot }
  | none =>
    match s.scope.capture? name s.enclosing with
    | some (i, scope, enclosing, errors) =>
      set { s with scope, enclosing }
      errors.forM error
      return { read := .getUpvalue, write := .setUpvalue, operand := i }
    | none =>
      return { read := .getGlobal, write := .setGlobal, operand := ← stringOperand name }

/-- Reading a variable, or assigning to it where an assignment may stand.  An assignment carries
the line where its value ends. -/
def compileVariable (parse : Parts) (canAssign : Bool) : CompileM Unit := do
  let access ← resolve (← get).previous.lexeme
  if canAssign && (← check .equal) then
    advance
    expression parse
    emitOpShort access.write access.operand
  else
    emitOpShort access.read access.operand

/-- What the opening token of an expression stands for. -/
def compileOpening (parse : Parts) (canAssign : Bool) : Opening → CompileM Unit
  | .grouping => do
    expression parse
    consume .rightParen .parenAfterExpression
  | .unary op => do
    let line ← previousLine
    parse (.expression .unary)
    emitOpAt op line
  | .variable => compileVariable parse canAssign
  | .string => compileString
  | .number => compileNumber
  | .literal op => emitOp op
  | .unsupported what => error (.unsupported what)

/-! ## Continuations -/

/-- The arguments of a call from the `count`-th on, at least one; gives how many there are. -/
def compileArguments (parse : Parts) : (bound count : Nat) → CompileM Nat
  | 0, _ => throw (.fault .tokensExhausted)
  | bound + 1, count => do
    expression parse
    if count = maxArguments then
      error (.limit .arguments)
    if ← accept .comma then compileArguments parse bound (count + 1) else return count + 1

/-- An argument list whose opening parenthesis was consumed, and the call. -/
def compileCall (bound : Nat) (parse : Parts) : CompileM Unit := do
  let line ← previousLine
  let count ← if ← check .rightParen then pure 0 else compileArguments parse bound 0
  consume .rightParen .parenAfterArguments
  emitOpAt .call line
  emitByte (min count maxArguments).toUInt8

/-- What a continuation adds to the operand compiled before it. -/
def compileContinuation (bound : Nat) (parse : Parts) : Continuation → CompileM Unit
  | .binary op precedence => do
    let line ← previousLine
    parse (.expression precedence.tighter)
    emitOpAt op line
  | .and => do
    let end_ ← emitJump .jumpIfFalse
    emitOp .pop
    parse (.expression .and)
    patchJump end_
  | .or => do
    let else_ ← emitJump .jumpIfFalse
    let end_ ← emitJump .jump
    patchJump else_
    emitOp .pop
    parse (.expression .or)
    patchJump end_
  | .call => compileCall bound parse
  | .unsupported what => error (.unsupported what)

/-! ## Expressions -/

/-- Compiles a continuation if the current token is one that binds tightly enough, and says
whether it was. -/
def continueExpression (bound : Nat) (parse : Parts) (precedence : Precedence) :
    CompileM Bool := do
  match (← currentKind).continuation? with
  | none => return false
  | some c =>
    if precedence.rank ≤ c.precedence.rank then
      advance
      compileContinuation bound parse c
      return true
    else
      return false

/-- An expression of a precedence. -/
def compileExpression (bound : Nat) (parse : Parts) (precedence : Precedence) : CompileM Unit :=
  nested do
    advance
    match (← get).previous.kind.opening? with
    | none => error (.expected .expression)
    | some opening =>
      let canAssign := precedence = .assignment
      compileOpening parse canAssign opening
      loop bound (continueExpression bound parse precedence)
      if canAssign then
        if ← accept .equal then
          error .invalidAssignmentTarget

end Lox.Compiler
