import Mathlib.Tactic.Common
import Lox.Compiler.Precedence

/-!
# Syntax trees

The trees that sources stand for.  The compiler never builds one: it emits code as it reads.  A
tree is what its work is measured against, by the grammar (`Lox.Proofs.Grammar`), by the code it
has to emit (`Lox.Proofs.Compiler.Emission`) and by the meaning that code has to have.

Trees leave out what makes no difference: parentheses, a missing initializer or return value
(which is nil), and a missing `else` (which does nothing).
-/

namespace Lox

/-! ## Expressions -/

/-- Values that are spelled with a word of their own. -/
inductive Literal where
  | nil
  | true
  | false
  deriving DecidableEq, Repr

/-- Operators before their operand. -/
inductive UnaryOperator where
  | negate
  | not
  | typeof
  deriving DecidableEq, Repr

/-- Operators between two operands that are both evaluated. -/
inductive BinaryOperator where
  | add
  | subtract
  | multiply
  | divide
  | equal
  | notEqual
  | less
  | greater
  | lessEqual
  | greaterEqual
  deriving DecidableEq, Repr

/-- An expression. -/
inductive Expr where
  | literal (l : Literal)
  /-- A number as it is spelled. -/
  | number (digits : Text)
  /-- A string without its quotes. -/
  | string (content : Text)
  | var (name : Text)
  | assign (name : Text) (value : Expr)
  | unary (op : UnaryOperator) (operand : Expr)
  | binary (op : BinaryOperator) (left right : Expr)
  | and (left right : Expr)
  | or (left right : Expr)
  | call (callee : Expr) (arguments : List Expr)

mutual

/-- How deeply the operands of an expression are nested.  What stands to the left of an operator
is not nested: it is read before the operator is met. -/
def Expr.height : Expr → Nat
  | .literal _ | .number _ | .string _ | .var _ => 1
  | .assign _ e | .unary _ e => 1 + e.height
  | .binary _ l r | .and l r | .or l r => max l.height (1 + r.height)
  | .call f args => max f.height (1 + heightOfAll args)

/-- The greatest height of several expressions. -/
def Expr.heightOfAll : List Expr → Nat
  | [] => 0
  | e :: es => max e.height (heightOfAll es)

end

mutual

/-- The variables that an expression reads or assigns to. -/
def Expr.names : Expr → List Text
  | .literal _ | .number _ | .string _ => []
  | .var name => [name]
  | .assign name e => name :: e.names
  | .unary _ e => e.names
  | .binary _ l r | .and l r | .or l r => l.names ++ r.names
  | .call f args => f.names ++ namesOfAll args

/-- The variables of several expressions. -/
def Expr.namesOfAll : List Expr → List Text
  | [] => []
  | e :: es => e.names ++ namesOfAll es

end

/-- Every variable of the expression has a name. -/
def Expr.Named (e : Expr) : Prop :=
  [] ∉ e.names

/-! ## Statements -/

/-- A declaration or statement, or several in a row. -/
inductive Stmt where
  /-- Nothing at all. -/
  | skip
  | seq (first rest : Stmt)
  | declareVar (name : Text) (value : Expr)
  | declareFun (name : Text) (parameters : List Text) (body : Stmt)
  | print (e : Expr)
  /-- An expression whose value is dropped. -/
  | discard (e : Expr)
  /-- An expression that ends an interactive source and is printed. -/
  | echo (e : Expr)
  /-- A conditional; without an `else` the second branch is `skip`. -/
  | branch (condition : Expr) (yes no : Stmt)
  | whileLoop (condition : Expr) (body : Stmt)
  | forLoop (initializer : Stmt) (condition increment : Option Expr) (body : Stmt)
  | ret (e : Expr)
  | block (body : Stmt)

namespace Stmt

/-- The statement ends with a conditional that could still take an `else`. -/
def EndsOpen : Stmt → Prop
  | .branch _ _ .skip => True
  | .branch _ _ no => no.EndsOpen
  | .whileLoop _ body | .forLoop _ _ _ body => body.EndsOpen
  | _ => False

/-- Every `else` belongs to the nearest conditional it can belong to. -/
def NearestElse : Stmt → Prop
  | .seq first rest => first.NearestElse ∧ rest.NearestElse
  | .declareFun _ _ body | .whileLoop _ body | .block body => body.NearestElse
  | .branch _ yes no => yes.NearestElse ∧ no.NearestElse ∧ (no = .skip ∨ ¬ yes.EndsOpen)
  | .forLoop initializer _ _ body => initializer.NearestElse ∧ body.NearestElse
  | _ => True

/-- Not a declaration: what can stand in a branch or be the body of a loop. -/
def IsStatement : Stmt → Prop
  | .seq _ _ | .declareVar _ _ | .declareFun _ _ _ => False
  | _ => True

/-- No declaration is a branch of a conditional or the body of a loop. -/
def Structured : Stmt → Prop
  | .seq first rest => first.Structured ∧ rest.Structured
  | .declareFun _ _ body | .block body => body.Structured
  | .branch _ yes no => yes.IsStatement ∧ yes.Structured ∧ no.IsStatement ∧ no.Structured
  | .whileLoop _ body => body.IsStatement ∧ body.Structured
  | .forLoop initializer _ _ body => initializer.Structured ∧ body.IsStatement ∧ body.Structured
  | _ => True

/-- Every expression in the statement satisfies `P`. -/
def AllExprs (P : Expr → Prop) : Stmt → Prop
  | .skip => True
  | .seq first rest => first.AllExprs P ∧ rest.AllExprs P
  | .declareFun _ _ body | .block body => body.AllExprs P
  | .declareVar _ e | .print e | .discard e | .echo e | .ret e => P e
  | .branch e yes no => P e ∧ yes.AllExprs P ∧ no.AllExprs P
  | .whileLoop e body => P e ∧ body.AllExprs P
  | .forLoop initializer condition increment body =>
    initializer.AllExprs P ∧ (∀ e ∈ condition, P e) ∧ (∀ e ∈ increment, P e) ∧ body.AllExprs P

/-- The length of the longest chain of statements in which each is a branch or the body of the one
before, or stands in its body. -/
def chain : Stmt → Nat
  | .skip => 0
  | .seq first rest => max first.chain rest.chain
  | .declareFun _ _ body | .whileLoop _ body | .forLoop _ _ _ body | .block body => 1 + body.chain
  | .branch _ yes no => 1 + max yes.chain no.chain
  | _ => 1

/-- How deeply the declarations of blocks and function bodies are nested.  A statement that is itself
a branch or the body of a loop is not nested in this sense. -/
def nesting : Stmt → Nat
  | .seq first rest => max (1 + first.nesting) rest.nesting
  | .declareFun _ _ body | .whileLoop _ body | .forLoop _ _ _ body | .block body => body.nesting
  | .branch _ yes no => max yes.nesting no.nesting
  | _ => 0

end Stmt

/-! ## What the operators are spelled and compiled with -/

/-- The word that spells a literal. -/
def Literal.ofKind? : Token.Kind → Option Literal
  | .nilWord => some .nil
  | .trueWord => some .true
  | .falseWord => some .false
  | _ => none

def Literal.opcode : Literal → Opcode
  | .nil => .loadNil
  | .true => .loadTrue
  | .false => .loadFalse

def UnaryOperator.ofKind? : Token.Kind → Option UnaryOperator
  | .minus => some .negate
  | .bang => some .not
  | .typeofWord => some .typeof
  | _ => none

def UnaryOperator.opcode : UnaryOperator → Opcode
  | .negate => .negate
  | .not => .not
  | .typeof => .typeof

namespace BinaryOperator

def ofKind? : Token.Kind → Option BinaryOperator
  | .plus => some .add
  | .minus => some .subtract
  | .star => some .multiply
  | .slash => some .divide
  | .equalEqual => some .equal
  | .bangEqual => some .notEqual
  | .less => some .less
  | .greater => some .greater
  | .lessEqual => some .lessEqual
  | .greaterEqual => some .greaterEqual
  | _ => none

def opcode : BinaryOperator → Opcode
  | .add => .add
  | .subtract => .subtract
  | .multiply => .multiply
  | .divide => .divide
  | .equal => .equal
  | .notEqual => .notEqual
  | .less => .less
  | .greater => .greater
  | .lessEqual => .lessEqual
  | .greaterEqual => .greaterEqual

/-- The level of the expression grammar an operator belongs to. -/
def precedence : BinaryOperator → Precedence
  | .equal | .notEqual => .equality
  | .less | .greater | .lessEqual | .greaterEqual => .comparison
  | .add | .subtract => .term
  | .multiply | .divide => .factor

end BinaryOperator

end Lox
