import Lox.Lexer
import Lox.Compiler.Statement

/-!
# Compiling programs

`Compiler.parse` ties the knot of the grammar's recursion with a fuel argument.  Every phrase
inside a phrase either follows a consumed token or is of a smaller kind (a declaration may be a
statement, a statement an expression), so fuel in proportion to the number of tokens is enough,
and running out of it would be a fault.

A `Compiler` can be used for one source after another.  It keeps the last two tokens of a source
it has left, but every token is written again before it is read.  The script of a source is compiled
as if inside whatever functions the compiler is in; when a source is left, wherever it was abandoned,
these are again the functions from before it.
-/

namespace Lox

namespace Compiler

/-- Compiles a phrase. -/
def parse : (fuel : Nat) → Phrase → CompileM Unit
  | 0, _ => throw (.fault .tokensExhausted)
  | fuel + 1, .declaration => compileDeclaration fuel (parse fuel)
  | fuel + 1, .statement => compileStatement fuel (parse fuel)
  | fuel + 1, .expression precedence => compileExpression fuel (parse fuel) precedence

/-- Fuel for a source of this many tokens. -/
def fuelFor (tokens : Nat) : Nat :=
  4 * tokens + 4

/-- Compiles a whole program. -/
def program (fuel : Nat) : CompileM Prototype := do
  advance
  loop fuel do
    if ← accept .eof then
      return false
    parse fuel .declaration
    return true
  finishFunction

end Compiler

/-- What becomes of a source. -/
inductive Compilation where
  /-- The script, if there was no error. -/
  | script (p : Prototype)
  /-- The errors in the order they were found; there is at least one. -/
  | rejected (errors : List CompileError)
  /-- The compiler broke a promise of its own. -/
  | fault (f : Fault)

/-- The errors of a compilation. -/
def Compilation.errors : Compilation → List CompileError
  | .rejected errors => errors
  | _ => []

/-- A compiler for one source after another. -/
structure Compiler where
  /-- Whether a last expression without semicolon is printed. -/
  interactive : Bool
  /-- The token consumed last in the source before. -/
  previous : Token
  /-- The token looked at last in the source before. -/
  current : Token
  /-- The functions that a script will be compiled in, inside out. -/
  around : List Compiler.FunctionScope

namespace Compiler

/-- A compiler that has not seen a source yet. -/
def new (interactive : Bool) : Compiler :=
  { interactive, previous := .blank, current := .blank, around := [] }

/-- The state a compilation begins in. -/
def start (c : Compiler) (tokens : List Token) : State :=
  { interactive := c.interactive
    previous := c.previous
    current := c.current
    rest := tokens
    panicking := false
    errors := #[]
    nesting := 0
    scope := .new .script []
    enclosing := c.around }

/-- The compiler that is left after a compilation.  A compilation that is abandoned leaves the
functions it was in the middle of, the script last. -/
def after (c : Compiler) (s : State) : Compiler :=
  { c with
    previous := s.previous
    current := s.current
    around := s.enclosing.drop (s.enclosing.length - c.around.length) }

/-- Compiles the tokens of a source. -/
def compileTokens (c : Compiler) (tokens : List Token) : Compilation × Compiler :=
  match (program (fuelFor tokens.length)).run (c.start tokens) with
  | .ok script s =>
    (if s.errors.isEmpty then .script script else .rejected s.errors.toList, c.after s)
  | .error (.tooDeep line) s =>
    let nesting : CompileError := { line, location := .nowhere, cause := .limit .nesting }
    (.rejected (s.errors.push nesting).toList, c.after s)
  | .error (.fault f) s => (.fault f, c.after s)

/-- Compiles a source. -/
def compile (c : Compiler) (source : Text) : Compilation × Compiler :=
  c.compileTokens (tokenize source)

end Compiler

/-- Compiles a source on its own. -/
def compile (interactive : Bool) (source : Text) : Compilation :=
  ((Compiler.new interactive).compile source).1

end Lox
