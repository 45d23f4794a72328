import Lox.Bytecode.Chunk

/-!
# Instructions

`Chunk.decode` reads the instruction at an offset: its opcode, and its operand of the width that the
opcode asks for.  This is how the machine reads code.  A listing reads it in a way of its own
(`Lox.Bytecode.Listing`).
-/

namespace Lox

/-- A decoded instruction. -/
structure Instruction where
  /-- What to do. -/
  opcode : Opcode
  /-- With what; zero if the opcode takes no operand. -/
  operand : Nat
  deriving DecidableEq, Repr

/-- The length of an instruction in bytes. -/
def Instruction.size (i : Instruction) : Nat :=
  i.opcode.size

/-- An operand of the given width at an offset. -/
def Chunk.readOperand (c : Chunk) (width offset : Nat) : Except Fault Nat :=
  match width with
  | 0 => .ok 0
  | 1 => (c.readByte offset).map UInt8.toNat
  | _ => c.readShort offset

/-- The instruction at an offset. -/
def Chunk.decode (c : Chunk) (offset : Nat) : Except Fault Instruction :=
  match c.readByte offset with
  | .error f => .error f
  | .ok byte =>
    match Opcode.ofByte? byte with
    | none => .error (.unknownOpcode byte)
    | some opcode => (c.readOperand opcode.operandWidth (offset + 1)).map ({ opcode, operand := · })

end Lox
