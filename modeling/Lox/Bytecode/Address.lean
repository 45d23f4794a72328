import Lox.Bytecode.Chunk

/-!
# Chunk access by machine word

A host addresses code with 64-bit offsets.  The bounds checks add the operand's width to the
offset before comparing, and that addition wraps at `2 ^ 64`: an offset in the last bytes of the
address space passes the check although it lies outside the code.  A byte outside the code reads
as zero and ignores writes.
-/

namespace Lox.Chunk

/-- The byte at a 64-bit offset. -/
def readByteAt (c : Chunk) (offset : UInt64) : Except Fault UInt8 :=
  if c.code.size ≤ offset.toNat then .error (.readPastEnd offset.toNat)
  else .ok (c.code.getD offset.toNat 0)

/-- The two bytes at a 64-bit offset as one number. -/
def readShortAt (c : Chunk) (offset : UInt64) : Except Fault Nat :=
  if c.code.size ≤ (offset + 1).toNat then .error (.readPastEnd offset.toNat)
  else
    .ok (256 * (c.code.getD offset.toNat 0).toNat + (c.code.getD (offset + 1).toNat 0).toNat)

/-- Points the jump whose operand is at a 64-bit offset to the current end of the code.  Gives
nothing if the distance, which wraps too, does not fit the operand. -/
def patchJumpAt (c : Chunk) (offset : UInt64) : Except Fault (Option Chunk) :=
  if c.code.size < (offset + 2).toNat then .error (.patchOutside offset.toNat)
  else
    let distance := (c.code.size.toUInt64 - offset - 2).toNat
    if maxShort < distance then .ok none
    else
      .ok (some { c with
        code := (c.code.setIfInBounds offset.toNat (highByte distance)).setIfInBounds
          (offset + 1).toNat (lowByte distance) })

end Lox.Chunk
