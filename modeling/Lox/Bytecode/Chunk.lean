import Lox.Fault
import Lox.Bytecode.Opcode
import Lox.Bytecode.Pool

/-!
# Chunks and prototypes

A chunk is the code of one function: instruction bytes, the source line of every byte, the pools
its operands point into, and the prototypes of the functions declared directly inside it.  A
prototype is the description of a function that a closure is made from.

Forward jumps are written before their distance is known: `emitJump` leaves a placeholder and
says where, `patchJump` points it at the current end of the code.  Operands of two bytes are
big-endian, and distances count from the byte after the operand.
-/

namespace Lox

/-- How a new closure obtains one captured variable. -/
structure Capture where
  /-- A slot of the enclosing frame, or the place of a captured variable of the enclosing
  closure. -/
  index : Nat
  /-- Which of the two it is. -/
  isLocal : Bool
  deriving DecidableEq, Repr

mutual

/-- The code of one function. -/
structure Chunk where
  /-- Instructions and their operands. -/
  code : Array UInt8
  /-- The source line of each byte of code. -/
  lines : Array UInt32
  /-- Numbers, by bit pattern. -/
  constants : Pool UInt64
  /-- String values and names. -/
  strings : Pool Text
  /-- Functions declared in this one. -/
  functions : Array Prototype

/-- The description of a function. -/
structure Prototype where
  /-- Its name, empty for a script. -/
  name : Text
  /-- How many arguments it takes. -/
  arity : Int
  /-- How its captured variables are obtained. -/
  captures : Array Capture
  /-- Its code; a prototype made by hand may lack it. -/
  chunk : Option Chunk

end

namespace Chunk

/-- A chunk with nothing in it. -/
def empty : Chunk :=
  { code := #[], lines := #[], constants := .empty, strings := .empty, functions := #[] }

instance : Inhabited Chunk := ⟨empty⟩

/-! ## Writing -/

/-- Appends one byte that belongs to a source line. -/
def write (c : Chunk) (byte : UInt8) (line : UInt32) : Chunk :=
  { c with code := c.code.push byte, lines := c.lines.push line }

/-- Appends an opcode. -/
def writeOp (c : Chunk) (op : Opcode) (line : UInt32) : Chunk :=
  c.write op.toByte line

/-- The place of a number among the constants, which it joins if it is new.  Numbers are the
same if their bit patterns are. -/
def addConstant (c : Chunk) (bits : UInt64) : Nat × Chunk :=
  let (place, constants) := c.constants.add bits
  (place, { c with constants })

/-- The place of a text among the strings, which it joins if it is new. -/
def addString (c : Chunk) (t : Text) : Nat × Chunk :=
  let (place, strings) := c.strings.add t
  (place, { c with strings })

/-- Appends a function; functions are never shared. -/
def addFunction (c : Chunk) (p : Prototype) : Nat × Chunk :=
  (c.functions.size, { c with functions := c.functions.push p })

/-! ## Jumps -/

/-- The greatest value of a two-byte operand. -/
def maxShort : Nat := 0xFFFF

/-- The high byte of a two-byte operand. -/
def highByte (n : Nat) : UInt8 :=
  (n / 256).toUInt8

/-- The low byte of a two-byte operand. -/
def lowByte (n : Nat) : UInt8 :=
  n.toUInt8

/-- Appends a byte and a placeholder for a two-byte operand; gives the offset of the operand. -/
def emitJumpByte (c : Chunk) (byte : UInt8) (line : UInt32) : Nat × Chunk :=
  let c := ((c.write byte line).write 0xFF line).write 0xFF line
  (c.code.size - 2, c)

/-- Appends a jump whose distance is not known yet; gives the offset of its operand. -/
def emitJump (c : Chunk) (op : Opcode) (line : UInt32) : Nat × Chunk :=
  c.emitJumpByte op.toByte line

/-- The distance from the jump whose operand is at `offset` to the current end of the code, if
it fits the operand. -/
def jumpDistance (c : Chunk) (offset : Nat) : Except Fault (Option Nat) :=
  if c.code.size < offset + 2 then .error (.patchOutside offset)
  else
    let distance := c.code.size - offset - 2
    .ok (if maxShort < distance then none else some distance)

/-- Overwrites a two-byte operand. -/
def setShort (c : Chunk) (offset value : Nat) : Chunk :=
  { c with
    code := (c.code.setIfInBounds offset (highByte value)).setIfInBounds (offset + 1)
      (lowByte value) }

/-- Points the jump whose operand is at `offset` to the current end of the code.  Gives nothing
if the distance does not fit the operand. -/
def patchJump (c : Chunk) (offset : Nat) : Except Fault (Option Chunk) :=
  (c.jumpDistance offset).map fun distance? => distance?.map (c.setShort offset)

/-! ## Reading -/

/-- The number of bytes of code. -/
def size (c : Chunk) : Nat :=
  c.code.size

/-- The byte at an offset. -/
def readByte (c : Chunk) (offset : Nat) : Except Fault UInt8 :=
  match c.code[offset]? with
  | some b => .ok b
  | none => .error (.readPastEnd offset)

/-- The two bytes at an offset as one number. -/
def readShort (c : Chunk) (offset : Nat) : Except Fault Nat :=
  match c.code[offset]?, c.code[offset + 1]? with
  | some high, some low => .ok (256 * high.toNat + low.toNat)
  | _, _ => .error (.readPastEnd offset)

/-- The source line of an offset: that of the last byte past the end, and zero if there are no
lines at all. -/
def lineAt (c : Chunk) (offset : Nat) : UInt32 :=
  match c.lines[offset]? with
  | some line => line
  | none => c.lines.back?.getD 0

end Chunk

/-- A prototype without name, parameters or code. -/
def Prototype.empty : Prototype :=
  { name := [], arity := 0, captures := #[], chunk := none }

instance : Inhabited Prototype := ⟨.empty⟩

end Lox
