import Mathlib.Logic.Function.Basic
import Lox.Heap.Object
import Lox.Machine.Error
import Lox.Number.Literal
import Lox.Proofs.Syntax

/-!
# Evaluation of trees

What a program without functions means, said on its syntax tree.  There is no code, no stack and no
heap here: a `Store` has the variables of the blocks around the current place, innermost block
first, the globals by name, and the lines printed so far.  Evaluating an expression gives a `Datum`,
which is a value as the language sees it: a string is its text.

A runtime error ends the evaluation and keeps what was printed and assigned before it.  An
evaluation need not end, so the rounds of every loop are counted: `Stmt.run` takes a bound on the
rounds of a loop, and an evaluation that would need more is exhausted.  It ends if it is not
exhausted for some bound.

## Contents

* `Datum` and the operators on data;
* `Store`, with lookup, assignment and declaration in the innermost block;
* `Expr.eval` and `Stmt.run`, and `Stmt.evaluate` for whole programs.
-/

namespace Lox

/-! ## Data -/

/-- A value as the language sees it. -/
inductive Datum where
  | nil
  | bool (b : Bool)
  | number (x : Float)
  | string (t : Text)
  /-- A function or another object that is not a string: its identity, how it prints, and what
  `typeof` says of it. -/
  | object (ref : Option ObjectId) (text : Text) (typeName : Text)
  deriving DecidableEq

namespace Datum

/-- Nil and false are false in a condition; everything else is true. -/
def isFalsey : Datum → Bool
  | .nil => true
  | .bool b => !b
  | _ => false

/-- Data of different types differ; numbers compare as numbers, strings by their texts, and other
objects by identity. -/
def equals : Datum → Datum → Bool
  | .nil, .nil => true
  | .bool a, .bool b => a == b
  | .number x, .number y => x == y
  | .string s, .string t => s == t
  | .object a _ _, .object b _ _ => a == b
  | _, _ => false

/-- How a datum prints. -/
def text : Datum → Text
  | .nil => "nil"
  | .bool b => if b then "true" else "false"
  | .number x => Number.format x.toBits
  | .string t => t
  | .object _ text _ => text

/-- What `typeof` says of a datum. -/
def typeName : Datum → Text
  | .nil => "nil"
  | .bool _ => "boolean"
  | .number _ => "number"
  | .string _ => "string"
  | .object _ _ typeName => typeName

/-- The number that digits spell.  Digits that spell none are not compiled. -/
def ofDigits (digits : Text) : Datum :=
  match Number.readLiteral? digits with
  | some bits => .number (Float.ofBits bits)
  | none => .nil

end Datum

/-- The value a word spells. -/
def Literal.datum : Literal → Datum
  | .nil => .nil
  | .true => .bool Bool.true
  | .false => .bool Bool.false

/-- What an operator makes of its operand. -/
def UnaryOperator.apply : UnaryOperator → Datum → Except RuntimeError.Cause Datum
  | .negate, .number x => .ok (.number (-x))
  | .negate, _ => .error .operandNotNumber
  | .not, d => .ok (.bool d.isFalsey)
  | .typeof, d => .ok (.string d.typeName)

namespace BinaryOperator

/-- An operation on numbers, and only on numbers. -/
def onNumbers (f : Float → Float → Datum) : Datum → Datum → Except RuntimeError.Cause Datum
  | .number x, .number y => .ok (f x y)
  | _, _ => .error .operandsNotNumbers

/-- The sum of two numbers, or two strings joined. -/
def sum : Datum → Datum → Except RuntimeError.Cause Datum
  | .number x, .number y => .ok (.number (x + y))
  | .string s, .string t => .ok (.string (s ++ t))
  | _, _ => .error .operandsNotAddable

/-- What an operator makes of its operands. -/
def apply : BinaryOperator → Datum → Datum → Except RuntimeError.Cause Datum
  | .add => sum
  | .subtract => onNumbers fun x y => .number (x - y)
  | .multiply => onNumbers fun x y => .number (x * y)
  | .divide => onNumbers fun x y => .number (x / y)
  | .equal => fun a b => .ok (.bool (a.equals b))
  | .notEqual => fun a b => .ok (.bool (!a.equals b))
  | .less => onNumbers fun x y => .bool (x < y)
  | .greater => onNumbers fun x y => .bool (x > y)
  | .lessEqual => onNumbers fun x y => .bool (x ≤ y)
  | .greaterEqual => onNumbers fun x y => .bool (x ≥ y)

end BinaryOperator

/-! ## Variables -/

/-- The variables of a block, newest first. -/
abbrev Scope := List (Text × Datum)

/-- What an evaluation works on. -/
structure Store where
  /-- The blocks around the current place, innermost first.  At the top level there is none. -/
  scopes : List Scope
  globals : Text → Option Datum
  /-- The lines that were printed. -/
  printed : List Text

/-- Assigns to the first variable of this name, if there is one. -/
def Scope.assign? (name : Text) (d : Datum) : Scope → Option Scope
  | [] => none
  | (name', d') :: rest =>
    if name = name' then some ((name, d) :: rest)
    else (assign? name d rest).map ((name', d') :: ·)

/-- Assigns to the variable of this name in the innermost block that has one. -/
def assignScopes? (name : Text) (d : Datum) : List Scope → Option (List Scope)
  | [] => none
  | sc :: outer =>
    match sc.assign? name d with
    | some sc => some (sc :: outer)
    | none => (assignScopes? name d outer).map (sc :: ·)

namespace Store

/-- The value of a variable: of the innermost block that has one, or else of the global. -/
def read? (σ : Store) (name : Text) : Option Datum :=
  (σ.scopes.findSome? (·.lookup name)).or (σ.globals name)

/-- Defines a global, or defines it anew. -/
def defineGlobal (σ : Store) (name : Text) (d : Datum) : Store :=
  { σ with globals := Function.update σ.globals name (some d) }

/-- Assigns to a variable that exists. -/
def write? (σ : Store) (name : Text) (d : Datum) : Option Store :=
  match assignScopes? name d σ.scopes with
  | some scopes => some { σ with scopes }
  | none => if (σ.globals name).isSome then some (σ.defineGlobal name d) else none

/-- Declares a variable: a global at the top level, and otherwise one of the innermost block. -/
def declare (σ : Store) (name : Text) (d : Datum) : Store :=
  match σ.scopes with
  | [] => σ.defineGlobal name d
  | sc :: outer => { σ with scopes := ((name, d) :: sc) :: outer }

/-- Enters a block. -/
def enter (σ : Store) : Store :=
  { σ with scopes := [] :: σ.scopes }

/-- Leaves the innermost block, with its variables. -/
def leave (σ : Store) : Store :=
  { σ with scopes := σ.scopes.tail }

/-- Prints a datum on a line. -/
def print (σ : Store) (d : Datum) : Store :=
  { σ with printed := σ.printed ++ [d.text ++ [Text.newline]] }

end Store

/-! ## Expressions and statements -/

/-- Why an evaluation does not complete. -/
inductive Interruption where
  | failed (cause : RuntimeError.Cause)
  /-- A loop needed more rounds than it was allowed. -/
  | exhausted
  deriving DecidableEq, Repr

/-- A computation on a store. -/
abbrev EvalM := EStateM Interruption Store

/-- Goes on with a result, or fails. -/
def EvalM.ofExcept (r : Except RuntimeError.Cause Datum) : EvalM Datum :=
  match r with
  | .ok d => return d
  | .error cause => throw (.failed cause)

/-- The value of an expression.  Calls have none here. -/
def Expr.eval : Expr → EvalM Datum
  | .literal l => return l.datum
  | .number digits => return .ofDigits digits
  | .string t => return .string t
  | .var name => do
    match (← get).read? name with
    | some d => return d
    | none => throw (.failed (.undefinedVariable name))
  | .assign name e => do
    let d ← e.eval
    match (← get).write? name d with
    | some σ =>
      set σ
      return d
    | none => throw (.failed (.undefinedVariable name))
  | .unary op e => do
    let d ← e.eval
    EvalM.ofExcept (op.apply d)
  | .binary op l r => do
    let a ← l.eval
    let b ← r.eval
    EvalM.ofExcept (op.apply a b)
  | .and l r => do
    let a ← l.eval
    if a.isFalsey then return a else r.eval
  | .or l r => do
    let a ← l.eval
    if a.isFalsey then r.eval else return a
  | .call _ _ => throw (.failed .notCallable)

/-- The condition of a loop; without one the loop goes on. -/
def Expr.holds (condition : Option Expr) : EvalM Bool :=
  match condition with
  | some e => do
    let d ← e.eval
    return !d.isFalsey
  | none => return true

/-- An expression that is evaluated for what it assigns, if it is there. -/
def Expr.perform (e : Option Expr) : EvalM Unit :=
  match e with
  | some e => do
    let _ ← e.eval
  | none => return ()

/-- Repeats `round` until it says to stop, at most `bound` times. -/
def EvalM.repeat (round : EvalM Bool) : (bound : Nat) → EvalM Unit
  | 0 => throw .exhausted
  | bound + 1 => do
    if ← round then EvalM.repeat round bound

/-- What a statement does, with at most `bound` rounds of each loop. -/
def Stmt.run (bound : Nat) : Stmt → EvalM Unit
  | .skip => return ()
  | .seq first rest => do
    first.run bound
    rest.run bound
  | .declareVar name e => do
    let d ← e.eval
    modify (·.declare name d)
  | .print e | .echo e => do
    let d ← e.eval
    modify (·.print d)
  | .discard e => do
    let _ ← e.eval
  | .branch e yes no => do
    let d ← e.eval
    if d.isFalsey then no.run bound else yes.run bound
  | .whileLoop e body =>
    EvalM.repeat (do
      let d ← e.eval
      if d.isFalsey then return false
      body.run bound
      return true) bound
  | .forLoop initializer condition increment body => do
    modify Store.enter
    initializer.run bound
    EvalM.repeat (do
      if ← Expr.holds condition then
        body.run bound
        Expr.perform increment
        return true
      else
        return false) bound
    modify Store.leave
  | .block body => do
    modify Store.enter
    body.run bound
    modify Store.leave
  | .declareFun _ _ _ | .ret _ => throw (.failed .notCallable)

/-! ## Programs -/

/-- How the evaluation of a program ends. -/
structure Evaluation where
  /-- The error that ended it, if one did. -/
  cause? : Option RuntimeError.Cause
  /-- The globals that it leaves. -/
  globals : Text → Option Datum
  /-- The lines that it printed. -/
  printed : List Text

/-- Evaluates a program from given globals, with at most `bound` rounds of each loop.  There is no
result if a loop would need more. -/
def Stmt.evaluate (bound : Nat) (program : Stmt) (globals : Text → Option Datum) :
    Option Evaluation :=
  match program.run bound { scopes := [], globals, printed := [] } with
  | .ok () σ => some { cause? := none, globals := σ.globals, printed := σ.printed }
  | .error (.failed cause) σ =>
    some { cause? := some cause, globals := σ.globals, printed := σ.printed }
  | .error .exhausted _ => none

/-! ## Programs without functions -/

/-- The expression has no call. -/
def Expr.isFunctionFree : Expr → Bool
  | .literal _ | .number _ | .string _ | .var _ => true
  | .assign _ e | .unary _ e => e.isFunctionFree
  | .binary _ l r | .and l r | .or l r => l.isFunctionFree && r.isFunctionFree
  | .call _ _ => false

/-- The statement declares no function, calls none and does not return. -/
def Stmt.isFunctionFree : Stmt → Bool
  | .skip => true
  | .seq first rest => first.isFunctionFree && rest.isFunctionFree
  | .declareVar _ e | .print e | .discard e | .echo e => e.isFunctionFree
  | .branch e yes no => e.isFunctionFree && yes.isFunctionFree && no.isFunctionFree
  | .whileLoop e body => e.isFunctionFree && body.isFunctionFree
  | .forLoop initializer condition increment body =>
    initializer.isFunctionFree && condition.all Expr.isFunctionFree &&
      increment.all Expr.isFunctionFree && body.isFunctionFree
  | .block body => body.isFunctionFree
  | .declareFun _ _ _ | .ret _ => false

end Lox
