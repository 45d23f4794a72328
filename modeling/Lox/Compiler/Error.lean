import Lox.Compiler.Precedence

/-!
# Compile errors

An error has a cause, the line it is reported at, and the token it is pinned to.  The causes fall
into families that are told apart in the type: the source has no reading as tokens, as a program,
or as a program of the supported language; or it has one, and breaks a static rule or exceeds a
limit.  `CompileError.Cause.message` words them all.
-/

namespace Lox

/-- What the grammar asks for at a place where something else stands. -/
inductive Expected where
  | expression
  | functionName
  | variableName
  | parameterName
  | parenAfterFunctionName
  | parenAfterParameters
  | braceBeforeBody
  | braceAfterBlock
  | parenAfterIf
  | parenAfterWhile
  | parenAfterFor
  | parenAfterCondition
  | parenAfterForClauses
  | parenAfterExpression
  | parenAfterArguments
  | semicolonAfterVariable
  | semicolonAfterValue
  | semicolonAfterLoopCondition
  | semicolonAfterReturnValue
  | semicolonAfterExpression
  deriving DecidableEq, Repr

/-- The rule a well-formed program breaks. -/
inductive StaticRule where
  /-- A local scope declares a name twice. -/
  | duplicateLocal
  /-- A local is read in its own initializer. -/
  | ownInitializer
  | returnAtTopLevel
  deriving DecidableEq, Repr

/-- The limit a well-formed program exceeds. -/
inductive Limit where
  | locals
  | closureVariables
  | parameters
  | arguments
  | constants
  | jump
  | loop
  | number
  | nesting
  deriving DecidableEq, Repr

/-- Why a source is rejected. -/
inductive CompileError.Cause where
  | lexical (why : LexicalError)
  | expected (what : Expected)
  | invalidAssignmentTarget
  | unsupported (what : Unsupported)
  | static (rule : StaticRule)
  | limit (which : Limit)
  deriving DecidableEq, Repr

/-- What is missing, in words. -/
def Expected.message : Expected → Text
  | .expression => "Expect expression."
  | .functionName => "Expect function name."
  | .variableName => "Expect variable name."
  | .parameterName => "Expect parameter name."
  | .parenAfterFunctionName => "Expect '(' after function name."
  | .parenAfterParameters => "Expect ')' after parameters."
  | .braceBeforeBody => "Expect '\x7b' before function body."
  | .braceAfterBlock => "Expect '\x7d' after block."
  | .parenAfterIf => "Expect '(' after 'if'."
  | .parenAfterWhile => "Expect '(' after 'while'."
  | .parenAfterFor => "Expect '(' after 'for'."
  | .parenAfterCondition => "Expect ')' after condition."
  | .parenAfterForClauses => "Expect ')' after for clauses."
  | .parenAfterExpression => "Expect ')' after expression."
  | .parenAfterArguments => "Expect ')' after arguments."
  | .semicolonAfterVariable => "Expect ';' after variable declaration."
  | .semicolonAfterValue => "Expect ';' after value."
  | .semicolonAfterLoopCondition => "Expect ';' after loop condition."
  | .semicolonAfterReturnValue => "Expect ';' after return value."
  | .semicolonAfterExpression => "Expect ';' after expression."

/-- What is refused, in words. -/
def Unsupported.message : Unsupported → Text
  | .classes => "Classes are not supported."
  | .thisWord => "Can't use 'this': classes are not supported."
  | .superWord => "Can't use 'super': classes are not supported."
  | .properties => "Property access is not supported."

/-- The broken rule, in words. -/
def StaticRule.message : StaticRule → Text
  | .duplicateLocal => "Already a variable with this name in this scope."
  | .ownInitializer => "Can't read local variable in its own initializer."
  | .returnAtTopLevel => "Can't return from top-level code."

/-- The exceeded limit, in words. -/
def Limit.message : Limit → Text
  | .locals => "Too many local variables in function."
  | .closureVariables => "Too many closure variables in function."
  | .parameters => "Can't have more than 255 parameters."
  | .arguments => "Can't have more than 255 arguments."
  | .constants => "Too many constants in one chunk."
  | .jump => "Too much code to jump over."
  | .loop => "Loop body too large."
  | .number => "Invalid number literal."
  | .nesting => "Maximum nesting depth exceeded"

/-- The cause in words. -/
def CompileError.Cause.message : CompileError.Cause → Text
  | .lexical why => why.message
  | .expected what => what.message
  | .invalidAssignmentTarget => "Invalid assignment target."
  | .unsupported what => what.message
  | .static rule => rule.message
  | .limit which => which.message

/-- What an error is pinned to. -/
inductive CompileError.Location where
  /-- No token. -/
  | nowhere
  /-- The end of the source. -/
  | atEnd
  /-- A token with this spelling. -/
  | atToken (lexeme : Text)
  deriving DecidableEq, Repr

/-- The location as it stands in a report. -/
def CompileError.Location.toText : CompileError.Location → Text
  | .nowhere => ""
  | .atEnd => " at end"
  | .atToken lexeme => " at '" ++ lexeme ++ "'"

/-- The place a token stands for.  An error token has a complaint instead of a spelling. -/
def CompileError.Location.ofToken (t : Token) : CompileError.Location :=
  match t.kind with
  | .eof => .atEnd
  | .error _ => .nowhere
  | _ => .atToken t.lexeme

/-- A reported error. -/
structure CompileError where
  line : UInt32
  location : CompileError.Location
  cause : CompileError.Cause
  deriving DecidableEq, Repr

namespace CompileError

/-- The message without line and place. -/
def message (e : CompileError) : Text :=
  e.cause.message

/-- The report of an error. -/
def toText (e : CompileError) : Text :=
  "[line " ++ Text.ofNat e.line.toNat ++ "] Error" ++ e.location.toText ++ ": " ++ e.message

end CompileError

end Lox
