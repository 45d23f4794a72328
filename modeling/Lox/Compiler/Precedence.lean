import Lox.Token
import Lox.Bytecode.Opcode

/-!
# Precedence and parse rules

Expressions are read by precedence climbing: a token may begin an expression, continue one, or
do neither.  The two tables here say which, and how tightly a continuation binds.  Assignment has
no row of its own: it is part of reading a variable, and only where an expression of the lowest
precedence may stand.
-/

namespace Lox

/-- How tightly an operator binds, loosest first. -/
inductive Precedence where
  | assignment
  | or
  | and
  | equality
  | comparison
  | term
  | factor
  | unary
  | call
  | primary
  deriving DecidableEq, Repr

namespace Precedence

/-- The position in the order of precedence. -/
def rank (p : Precedence) : Nat :=
  p.ctorIdx

/-- The next tighter precedence: the right operand of a left-associative operator. -/
def tighter : Precedence → Precedence
  | .assignment => .or
  | .or => .and
  | .and => .equality
  | .equality => .comparison
  | .comparison => .term
  | .term => .factor
  | .factor => .unary
  | .unary => .call
  | .call | .primary => .primary

end Precedence

/-- Features of the wider language that are recognised and refused. -/
inductive Unsupported where
  | classes
  | thisWord
  | superWord
  | properties
  deriving DecidableEq, Repr

/-- How a token begins an expression. -/
inductive Opening where
  /-- An expression in parentheses. -/
  | grouping
  /-- An operator before its operand. -/
  | unary (op : Opcode)
  | variable
  | string
  | number
  /-- A value with an instruction of its own. -/
  | literal (op : Opcode)
  | unsupported (what : Unsupported)
  deriving DecidableEq, Repr

/-- How a token continues an expression. -/
inductive Continuation where
  /-- A left-associative operator between two operands. -/
  | binary (op : Opcode) (precedence : Precedence)
  | and
  | or
  /-- An argument list. -/
  | call
  | unsupported (what : Unsupported)
  deriving DecidableEq, Repr

/-- How tightly a continuation binds. -/
def Continuation.precedence : Continuation → Precedence
  | .binary _ p => p
  | .and => .and
  | .or => .or
  | .call => .call
  | .unsupported _ => .call

namespace Token.Kind

/-- What a token means at the beginning of an expression. -/
def opening? : Kind → Option Opening
  | .leftParen => some .grouping
  | .minus => some (.unary .negate)
  | .bang => some (.unary .not)
  | .typeofWord => some (.unary .typeof)
  | .identifier => some .variable
  | .string => some .string
  | .number => some .number
  | .falseWord => some (.literal .loadFalse)
  | .trueWord => some (.literal .loadTrue)
  | .nilWord => some (.literal .loadNil)
  | .thisWord => some (.unsupported .thisWord)
  | .superWord => some (.unsupported .superWord)
  | _ => none

/-- What a token means after an operand. -/
def continuation? : Kind → Option Continuation
  | .leftParen => some .call
  | .dot => some (.unsupported .properties)
  | .minus => some (.binary .subtract .term)
  | .plus => some (.binary .add .term)
  | .slash => some (.binary .divide .factor)
  | .star => some (.binary .multiply .factor)
  | .bangEqual => some (.binary .notEqual .equality)
  | .equalEqual => some (.binary .equal .equality)
  | .greater => some (.binary .greater .comparison)
  | .greaterEqual => some (.binary .greaterEqual .comparison)
  | .less => some (.binary .less .comparison)
  | .lessEqual => some (.binary .lessEqual .comparison)
  | .andWord => some .and
  | .orWord => some .or
  | _ => none

/-- The tokens that begin a statement, at which reading resumes after an error. -/
def beginsStatement : Kind → Bool
  | .classWord | .funWord | .varWord | .forWord | .ifWord | .whileWord | .printWord
  | .returnWord => true
  | _ => false

end Token.Kind

end Lox
