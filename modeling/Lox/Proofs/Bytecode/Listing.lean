import Mathlib.Tactic.Common
import Lox.Bytecode.Instruction
import Lox.Bytecode.Listing

/-!
# Listings of decoded instructions

The length of an instruction is fixed twice.  `Chunk.decode`, which the machine goes through, has the
width of the operand from a table of the opcodes; a listing reads the operand in the form in which it
is shown.  The two agree at every opcode and on all code, also on code that ends inside an instruction
(`Chunk.opcodeLine_eq`), so that what is listed is what was decoded (`Chunk.listAt_eq`).
-/

namespace Lox.Chunk

variable {c : Chunk} {offset : Nat}

/-- How a listing shows an instruction that was decoded at `offset`. -/
def instructionText (c : Chunk) (offset : Nat) (i : Instruction) : Text :=
  match i.opcode with
  | .loadConstant =>
    operandColumns i.opcode i.operand ++ quoted ((c.constants.get? i.operand).map Number.format)
  | .loadString | .defineGlobal | .getGlobal | .setGlobal =>
    operandColumns i.opcode i.operand ++ quoted (c.strings.get? i.operand)
  | .getLocal | .setLocal | .getUpvalue | .setUpvalue | .call =>
    operandColumns i.opcode i.operand ++ "\n"
  | .jump | .jumpIfFalse =>
    operandColumns i.opcode offset ++ " -> " ++
      Text.ofInt ((offset : Int) + 3 + (i.operand : Int)) ++ "\n"
  | .loop =>
    operandColumns i.opcode offset ++ " -> " ++
      Text.ofInt ((offset : Int) + 3 - (i.operand : Int)) ++ "\n"
  | .closure => operandColumns i.opcode i.operand ++ c.closureText i.operand
  | op => op.name ++ "\n"

/-- At an opcode the listing reads the operand that decoding reads, and goes on where the instruction
ends. -/
lemma opcodeLine_eq (c : Chunk) (op : Opcode) (offset : Nat) :
    c.opcodeLine op offset = (c.readOperand op.operandWidth (offset + 1)).map fun operand =>
      (c.instructionText offset ⟨op, operand⟩, offset + op.size) := by
  cases op with
  | jump | jumpIfFalse =>
    simp only [opcodeLine, jumpLine, Int.one_mul]
    rfl
  | loop =>
    simp only [opcodeLine, jumpLine, Int.neg_one_mul, ← Int.sub_eq_add_neg]
    rfl
  | call =>
    unfold opcodeLine byteLine
    show _ = ((c.readByte (offset + 1)).map UInt8.toNat).map _
    cases c.readByte (offset + 1) <;> rfl
  | _ => rfl

/-- An operand can be read, or code is missing. -/
lemma readOperand_cases (c : Chunk) (width offset : Nat) :
    c.readOperand width offset = .error (.readPastEnd offset) ∨
      ∃ operand, c.readOperand width offset = .ok operand := by
  unfold readOperand
  split
  · exact .inr ⟨0, rfl⟩
  · unfold readByte
    split
    · exact .inr ⟨_, rfl⟩
    · exact .inl rfl
  · unfold readShort
    split
    · exact .inr ⟨_, rfl⟩
    · exact .inl rfl

/-- What is listed at an offset is the instruction that is decoded there, and where code is missing
for the one it is missing for the other.  They differ at a byte that is no opcode. -/
theorem listAt_eq (c : Chunk) (offset : Nat) :
    c.listAt offset = match c.decode offset with
      | .ok i => .ok (c.instructionText offset i, offset + i.size)
      | .error (.unknownOpcode byte) =>
        .ok ("Unknown opcode " ++ Text.ofNat byte.toNat ++ "\n", offset + 1)
      | .error f => .error f := by
  unfold listAt decode readByte
  cases c.code[offset]? with
  | none => rfl
  | some byte =>
    dsimp only
    cases Opcode.ofByte? byte with
    | none => rfl
    | some op =>
      dsimp only
      rw [opcodeLine_eq]
      rcases c.readOperand_cases op.operandWidth (offset + 1) with herror | ⟨operand, hok⟩
      · rw [herror]
        rfl
      · rw [hok]
        rfl

lemma listAt_of_decode {i : Instruction} (h : c.decode offset = .ok i) :
    c.listAt offset = .ok (c.instructionText offset i, offset + i.size) := by
  rw [listAt_eq, h]

/-- If an instruction cannot be listed, then it cannot be decoded either, for the same reason. -/
lemma decode_of_listAt {f : Fault} (h : c.listAt offset = .error f) : c.decode offset = .error f := by
  rw [listAt_eq] at h
  split at h
  · cases h
  · cases h
  · rename_i g _ hg
    cases h
    exact hg

end Lox.Chunk
