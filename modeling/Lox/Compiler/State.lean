import Lox.Bytecode.Chunk
import Lox.Compiler.Error

/-!
# The state of a compilation

Compilation is one pass over the tokens that emits code as it goes.  Its state is the token just
consumed and the one being looked at, the errors so far, and the functions being compiled,
innermost first, each with the code written for it and the variables visible in it.

After an error the compiler is *in panic*: it reports nothing more until it has found a place to
resume.  Two things end a compilation at once: nesting too deep, and a fault.
-/

namespace Lox.Compiler

/-! ## Functions under compilation -/

/-- A variable that lives on the stack.  Its slot is its distance from the oldest local. -/
structure Local where
  name : Text
  /-- The block depth it belongs to; none while its initializer is compiled. -/
  depth : Option Nat
  /-- Whether some inner function captures it. -/
  captured : Bool
  deriving DecidableEq, Repr

/-- The two kinds of code: the script itself and declared functions. -/
inductive FunctionKind where
  | script
  | function
  deriving DecidableEq, Repr

/-- A function under compilation. -/
structure FunctionScope where
  kind : FunctionKind
  name : Text
  arity : Nat
  chunk : Chunk
  /-- Visible locals, innermost first. -/
  locals : List Local
  /-- How a closure of it will obtain captured variables. -/
  captures : Array Capture
  /-- How many blocks are open. -/
  depth : Nat
  /-- Whether the error about too many constants was already given. -/
  overflowReported : Bool

/-- A function nothing was compiled for yet.  Slot zero is taken: it holds the callee. -/
def FunctionScope.new (kind : FunctionKind) (name : Text) : FunctionScope :=
  { kind, name, arity := 0, chunk := .empty
    locals := [{ name := [], depth := some 0, captured := false }]
    captures := #[], depth := 0, overflowReported := false }

namespace FunctionScope

/-- At most this many locals, the callee's slot included. -/
def maxLocals : Nat := 256

/-- At most this many captured variables. -/
def maxCaptures : Nat := 256

/-- The innermost local of a name with its slot. -/
def findLocal (name : Text) : List Local → Option (Nat × Local)
  | [] => none
  | l :: older => if l.name = name then some (older.length, l) else findLocal name older

/-- Marks the local in a slot as captured. -/
def markCaptured (slot : Nat) : List Local → List Local
  | [] => []
  | l :: older =>
    if older.length = slot then { l with captured := true } :: older
    else l :: markCaptured slot older

/-- The place of a capture, which is added if it is new and there is room; if there is none,
place zero and a complaint. -/
def addCapture (f : FunctionScope) (c : Capture) :
    Nat × FunctionScope × List CompileError.Cause :=
  match f.captures.idxOf? c with
  | some i => (i, f, [])
  | none =>
    if maxCaptures ≤ f.captures.size then (0, f, [.limit .closureVariables])
    else (f.captures.size, { f with captures := f.captures.push c }, [])

/-- Reading a local whose initializer is still being compiled is an error. -/
def Local.readErrors (l : Local) : List CompileError.Cause :=
  if l.depth.isNone then [.static .ownInitializer] else []

/-- Captures a variable of an enclosing function for `f`.  The function that declares it gives
the slot; every function in between captures it in turn.  Gives nothing if no enclosing function
declares the name. -/
def capture? (name : Text) (f : FunctionScope) : List FunctionScope →
    Option (Nat × FunctionScope × List FunctionScope × List CompileError.Cause)
  | [] => none
  | outer :: rest =>
    match findLocal name outer.locals with
    | some (slot, l) =>
      let outer := { outer with locals := markCaptured slot outer.locals }
      let (i, f, errors) := f.addCapture { index := slot, isLocal := true }
      some (i, f, outer :: rest, Local.readErrors l ++ errors)
    | none =>
      match capture? name outer rest with
      | none => none
      | some (j, outer, rest, before) =>
        let (i, f, errors) := f.addCapture { index := j, isLocal := false }
        some (i, f, outer :: rest, before ++ errors)

/-- The finished function. -/
def toPrototype (f : FunctionScope) : Prototype :=
  { name := match f.kind with
      | .script => []
      | .function => f.name
    arity := f.arity
    captures := f.captures
    chunk := some f.chunk }

end FunctionScope

/-! ## The state -/

/-- What ends a compilation at once. -/
inductive Abort where
  /-- Statements or expressions are nested too deeply; the line it was noticed at. -/
  | tooDeep (line : UInt32)
  | fault (f : Fault)
  deriving DecidableEq, Repr

/-- The state of a compilation. -/
structure State where
  /-- Whether a last expression without semicolon is printed. -/
  interactive : Bool
  /-- The token just consumed. -/
  previous : Token
  /-- The token being looked at. -/
  current : Token
  /-- The tokens after it. -/
  rest : List Token
  /-- Whether errors are being suppressed. -/
  panicking : Bool
  /-- The errors reported so far. -/
  errors : Array CompileError
  /-- How deeply declarations and expressions are nested. -/
  nesting : Nat
  /-- The innermost function. -/
  scope : FunctionScope
  /-- The functions around it, inside out. -/
  enclosing : List FunctionScope

namespace State

/-- Reports an error at a token, unless in panic. -/
def report (s : State) (t : Token) (cause : CompileError.Cause) : State :=
  if s.panicking then s
  else
    { s with
      panicking := true
      errors := s.errors.push { line := t.line, location := .ofToken t, cause } }

/-- Looks at the next token, reporting error tokens on the way.  The end token stays. -/
def shift : List Token → State → State
  | [], s => { s with rest := [] }
  | t :: ts, s =>
    match t.kind with
    | .error why => shift ts ({ s with current := t }.report t (.lexical why))
    | _ => { s with current := t, rest := ts }

/-- Consumes the current token. -/
def advance (s : State) : State :=
  shift s.rest { s with previous := s.current }

end State

end Lox.Compiler

namespace Lox

/-- A step of compilation. -/
abbrev CompileM := EStateM Compiler.Abort Compiler.State

end Lox
