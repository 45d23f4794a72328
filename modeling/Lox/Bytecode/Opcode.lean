import Lox.Text

/-!
# Opcodes

The instruction set of the stack machine.  The byte that encodes an opcode is its place in the
listing below, and every opcode is followed by operand bytes of one fixed width.
-/

namespace Lox

/-- What an instruction does. -/
inductive Opcode where
  | loadConstant
  | loadString
  | loadNil
  | loadTrue
  | loadFalse
  | pop
  | add
  | subtract
  | multiply
  | divide
  | negate
  | not
  | equal
  | notEqual
  | less
  | greater
  | lessEqual
  | greaterEqual
  | typeof
  | defineGlobal
  | getGlobal
  | setGlobal
  | getLocal
  | setLocal
  | getUpvalue
  | setUpvalue
  | closeUpvalue
  | jump
  | jumpIfFalse
  | loop
  | call
  | closure
  | ret
  | print
  deriving DecidableEq, Repr

namespace Opcode

/-- All opcodes in the order of their encoding. -/
def all : Array Opcode :=
  #[loadConstant, loadString, loadNil, loadTrue, loadFalse, pop, add, subtract, multiply, divide,
    negate, not, equal, notEqual, less, greater, lessEqual, greaterEqual, typeof, defineGlobal,
    getGlobal, setGlobal, getLocal, setLocal, getUpvalue, setUpvalue, closeUpvalue, jump,
    jumpIfFalse, loop, call, closure, ret, print]

/-- The byte that encodes an opcode. -/
def toByte (op : Opcode) : UInt8 :=
  op.ctorIdx.toUInt8

/-- The opcode a byte encodes, if it encodes one. -/
def ofByte? (b : UInt8) : Option Opcode :=
  all[b.toNat]?

/-- Reading back what was written. -/
@[simp] theorem ofByte?_toByte (op : Opcode) : ofByte? op.toByte = some op := by
  cases op <;> rfl

/-- The names in listings, in the order of the encoding. -/
def names : List String :=
  ["OP_CONSTANT", "OP_STRING", "OP_NIL", "OP_TRUE", "OP_FALSE", "OP_POP",
   "OP_ADD", "OP_SUBTRACT", "OP_MULTIPLY", "OP_DIVIDE", "OP_NEGATE", "OP_NOT",
   "OP_EQUAL", "OP_NOT_EQUAL", "OP_LESS", "OP_GREATER", "OP_LESS_EQUAL", "OP_GREATER_EQUAL",
   "OP_TYPEOF",
   "OP_DEFINE_GLOBAL", "OP_GET_GLOBAL", "OP_SET_GLOBAL", "OP_GET_LOCAL", "OP_SET_LOCAL",
   "OP_GET_UPVALUE", "OP_SET_UPVALUE", "OP_CLOSE_UPVALUE",
   "OP_JUMP", "OP_JUMP_IF_FALSE", "OP_LOOP",
   "OP_CALL", "OP_CLOSURE", "OP_RETURN", "OP_PRINT"]

/-- The name a byte has in listings. -/
def nameOfByte (b : UInt8) : Text :=
  Text.ofString (names.getD b.toNat "OP_UNKNOWN")

/-- The name of an opcode in listings. -/
def name (op : Opcode) : Text :=
  nameOfByte op.toByte

/-- How many operand bytes follow an opcode. -/
def operandWidth : Opcode → Nat
  | .loadConstant | .loadString | .defineGlobal | .getGlobal | .setGlobal | .getLocal | .setLocal
  | .getUpvalue | .setUpvalue | .jump | .jumpIfFalse | .loop | .closure => 2
  | .call => 1
  | _ => 0

/-- The length of an instruction in bytes. -/
def size (op : Opcode) : Nat :=
  1 + op.operandWidth

end Opcode

end Lox
