import Lox.Proofs.Bytecode.Patching

/-!
# Bounds checks by machine word

A host reads and patches code at offsets that are machine words.  Each access checks that the bytes it
needs are inside the code, and raises a fault that names the offset if they are not.  An access that
passes the check touches no other bytes (`Chunk.accesses_checked`).

To check two bytes is to add to the offset, and this wraps at `2 ^ 64`.  From the last two offsets that
there are the sum comes out at the beginning of the code, and they pass the check although nothing is
there (`Chunk.patch_unchecked`).
-/

namespace Lox.Chunk

/-- So many bytes from the offset on are all inside the code. -/
def Covers (c : Chunk) (offset width : Nat) : Prop :=
  ∀ k < width, offset + k < c.code.size

section Words

variable {c : Chunk} {offset : UInt64} {o width : Nat}

lemma covers_iff (hwidth : 0 < width) : c.Covers o width ↔ o + width ≤ c.code.size := by
  constructor
  · intro hcovers
    have hlast := hcovers (width - 1) (Nat.sub_one_lt (Nat.ne_of_gt hwidth))
    omega
  · intro hle k hk
    omega

lemma not_covers_iff (hwidth : 0 < width) : ¬ c.Covers o width ↔ c.code.size < o + width := by
  rw [covers_iff hwidth, Nat.not_le]

/-! ## Reading -/

lemma readByte_of_covers (hcovers : c.Covers o 1) :
    ∃ b, c.code[o]? = some b ∧ c.readByte o = .ok b := by
  have hlt := (covers_iff Nat.one_pos).1 hcovers
  refine ⟨_, Array.getElem?_eq_getElem hlt, ?_⟩
  rw [readByte, Array.getElem?_eq_getElem hlt]

lemma readByte_of_not_covers (hnot : ¬ c.Covers o 1) : c.readByte o = .error (.readPastEnd o) := by
  have hle := Nat.lt_succ_iff.1 ((not_covers_iff Nat.one_pos).1 hnot)
  rw [readByte, Array.getElem?_eq_none hle]

/-- Two bytes are read as the digits of a number in base 256, the high one first. -/
lemma readShort_of_covers (hcovers : c.Covers o 2) :
    ∃ high low, c.code[o]? = some high ∧ c.code[o + 1]? = some low ∧
      c.readShort o = .ok (256 * high.toNat + low.toNat) := by
  have hlow : o + 1 < c.code.size := (covers_iff Nat.two_pos).1 hcovers
  have hhigh := Nat.lt_of_succ_lt hlow
  refine ⟨_, _, Array.getElem?_eq_getElem hhigh, Array.getElem?_eq_getElem hlow, ?_⟩
  rw [readShort, Array.getElem?_eq_getElem hhigh, Array.getElem?_eq_getElem hlow]

lemma readShort_of_not_covers (hnot : ¬ c.Covers o 2) : c.readShort o = .error (.readPastEnd o) := by
  have hle := Nat.lt_succ_iff.1 ((not_covers_iff Nat.two_pos).1 hnot)
  rw [readShort, Array.getElem?_eq_none hle]
  cases c.code[o]? with
  | none => rfl
  | some high => rfl

/-- What is read at a machine word is what is read at the number it stands for. -/
lemma readByteAt_eq (c : Chunk) (offset : UInt64) : c.readByteAt offset = c.readByte offset.toNat := by
  rw [readByteAt, readByte, Array.getD_eq_getD_getElem?]
  split
  case isTrue hle => rw [Array.getElem?_eq_none hle]
  case isFalse hlt => rw [Array.getElem?_eq_getElem (Nat.not_le.1 hlt), Option.getD_some]

lemma readShortAt_eq (hword : offset.toNat + 1 < 2 ^ 64 ∨ c.code.size = 0) :
    c.readShortAt offset = c.readShort offset.toNat := by
  by_cases hcovers : c.Covers offset.toNat 2
  · have hlow : offset.toNat + 1 < c.code.size := (covers_iff Nat.two_pos).1 hcovers
    have hsecond : (offset + 1).toNat = offset.toNat + 1 :=
      (toNat_offset_add offset 1).1 (hword.resolve_right (Nat.ne_of_gt (Nat.zero_lt_of_lt hlow)))
    obtain ⟨high, low, hhigh, hlow', hread⟩ := readShort_of_covers hcovers
    rw [hread, readShortAt, hsecond, if_neg (Nat.not_le.2 hlow), Array.getD_eq_getD_getElem?,
      Array.getD_eq_getD_getElem?, hhigh, hlow', Option.getD_some, Option.getD_some]
  · rw [readShort_of_not_covers hcovers]
    rw [not_covers_iff Nat.two_pos] at hcovers
    refine if_pos ?_
    rcases hword with hword | hempty
    · rw [(toNat_offset_add offset 1).1 hword]
      exact Nat.lt_succ_iff.1 hcovers
    · rw [hempty]
      exact Nat.zero_le _

/-- The byte behind the last offset is taken for the first byte of the code. -/
lemma readShortAt_of_wraps (hword : offset.toNat + 1 = 2 ^ 64) (hcode : 0 < c.code.size) :
    ∃ n, c.readShortAt offset = .ok n := by
  have hsecond : (offset + 1).toNat = offset.toNat + 1 - 2 ^ 64 :=
    (toNat_offset_add offset 1).2 (Nat.le_of_eq hword.symm)
  exact ⟨_, if_neg (by omega)⟩

/-! ## Patching -/

lemma patchJumpAt_of_not_covers (hword : offset.toNat + 2 < 2 ^ 64 ∨
      offset.toNat + 1 = 2 ^ 64 ∧ c.code.size = 0) (hnot : ¬ c.Covers offset.toNat 2) :
    c.patchJumpAt offset = .error (.patchOutside offset.toNat) := by
  rw [not_covers_iff Nat.two_pos] at hnot
  refine if_pos ?_
  obtain ⟨hon, haround⟩ := toNat_offset_add offset 2
  rw [show (2 : UInt64).toNat = 2 from rfl] at hon haround
  rcases hword with hword | ⟨hword, hempty⟩
  · rwa [hon hword]
  · rw [haround (by omega), hempty]
    omega

/-- The bytes behind the last two offsets are taken for bytes of the code. -/
lemma patchJumpAt_of_wraps (hword : 2 ^ 64 ≤ offset.toNat + 2)
    (hcode : offset.toNat + 2 - 2 ^ 64 ≤ c.code.size) :
    ∃ patched?, c.patchJumpAt offset = .ok patched? := by
  have hend : (offset + 2).toNat = offset.toNat + 2 - 2 ^ 64 := (toNat_offset_add offset 2).2 hword
  rw [patchJumpAt, hend, if_neg (Nat.not_lt.2 hcode)]
  dsimp only
  split
  · exact ⟨_, rfl⟩
  · exact ⟨_, rfl⟩

/-- From the last but one offset, the distance comes out as the size of the code. -/
lemma patchJumpAt_eq_none (hword : offset.toNat + 2 = 2 ^ 64) (hfar : maxShort < c.code.size)
    (hsize : c.code.size < 2 ^ 64) : c.patchJumpAt offset = .ok none := by
  have hend : (offset + 2).toNat = 0 := by
    rw [(toNat_offset_add offset 2).2 (Nat.le_of_eq hword.symm), show (2 : UInt64).toNat = 2 from rfl, hword,
      Nat.sub_self]
  have hdistance : (c.code.size.toUInt64 - offset - 2).toNat = c.code.size := by
    rw [UInt64.toNat_sub, UInt64.toNat_sub, toNat_of_le_size hsize (Nat.le_refl _),
      show (2 : UInt64).toNat = 2 from rfl]
    omega
  rw [patchJumpAt, hend, if_neg (Nat.not_lt_zero _)]
  dsimp only
  rw [hdistance, if_pos hfar]

end Words

/-! ## Main result -/

/-- **Accesses are checked.**  Code is read and patched at an offset where all bytes that this takes are
inside the code, and elsewhere a fault is raised that names the offset:

* one byte is read as it is;
* two bytes are read as a number, the high byte first;
* a patch changes no byte but the two at its offset, and nothing at all if the distance from behind them
  to the end of the code does not fit.

The exceptions are all at the end of the address space.  No fault is raised at the last offset by a read
of two bytes or by a patch, unless the chunk is empty, nor at the last but one by a patch. -/
theorem accesses_checked (c : Chunk) (offset : UInt64) :
    let o := offset.toNat
    ((¬ c.Covers o 1 → c.readByteAt offset = .error (.readPastEnd o)) ∧
      (c.Covers o 1 → ∃ b, c.code[o]? = some b ∧ c.readByteAt offset = .ok b)) ∧
    (¬ (o + 1 = 2 ^ 64 ∧ 0 < c.code.size) →
      (¬ c.Covers o 2 → c.readShortAt offset = .error (.readPastEnd o)) ∧
      (c.Covers o 2 → ∃ high low, c.code[o]? = some high ∧ c.code[o + 1]? = some low ∧
        c.readShortAt offset = .ok (256 * high.toNat + low.toNat))) ∧
    (o + 1 = 2 ^ 64 → 0 < c.code.size → ∃ n, c.readShortAt offset = .ok n) ∧
    (¬ (o + 1 = 2 ^ 64 ∧ 0 < c.code.size) ∧ o + 2 ≠ 2 ^ 64 →
      (¬ c.Covers o 2 → c.patchJumpAt offset = .error (.patchOutside o)) ∧
      (c.Covers o 2 → ∃ patched?, c.patchJumpAt offset = .ok patched? ∧
        (∀ patched ∈ patched?, patched = { c with code := patched.code } ∧
          patched.code.size = c.code.size ∧
          ∀ i, i ≠ o → i ≠ o + 1 → patched.code[i]? = c.code[i]?) ∧
        (c.code.size < 2 ^ 64 → patched? =
          if maxShort < c.code.size - o - 2 then none
          else some (c.setShort o (c.code.size - o - 2))))) ∧
    (o + 1 = 2 ^ 64 ∧ 0 < c.code.size ∨ o + 2 = 2 ^ 64 →
      ∃ patched?, c.patchJumpAt offset = .ok patched?) := by
  intro o
  have hlt : o < 2 ^ 64 := offset.toNat_lt
  refine ⟨?byte, fun hword => ?short, readShortAt_of_wraps, fun hword => ⟨?outside, ?inside⟩, ?wraps⟩
  case byte =>
    rw [readByteAt_eq]
    exact ⟨readByte_of_not_covers, readByte_of_covers⟩
  case short =>
    rw [readShortAt_eq (by omega)]
    exact ⟨readShort_of_not_covers, readShort_of_covers⟩
  case outside => exact patchJumpAt_of_not_covers (by omega)
  case inside =>
    intro hcovers
    have hle : o + 2 ≤ c.code.size := (covers_iff Nat.two_pos).1 hcovers
    obtain ⟨distance, hpatch, hdistance⟩ := patchJumpAt_of_inside (c := c) (by omega) hle
    refine ⟨_, hpatch, fun patched hpatched => ?_, fun hsize => by rw [hdistance hsize]⟩
    split at hpatched
    · cases hpatched
    · cases hpatched
      exact ⟨rfl, size_setShort c _ _, getElem?_setShort c _ _⟩
  case wraps =>
    intro hwraps
    exact patchJumpAt_of_wraps (by omega) (by omega)

/-- The last two bytes of a chunk, and the last one alone. -/
theorem accesses_checked_end :
    let c := ((empty.write 0x12 1).write 0x34 1).write 0x56 1
    c.readByteAt 2 = .ok 0x56 ∧ c.readByteAt 3 = .error (.readPastEnd 3) ∧
      c.readShortAt 1 = .ok 0x3456 ∧ c.readShortAt 2 = .error (.readPastEnd 2) ∧
      c.patchJumpAt 1 = .ok (some (c.setShort 1 0)) ∧
      c.patchJumpAt 2 = .error (.patchOutside 2) ∧
      ∃ n, c.readShortAt 0xFFFFFFFFFFFFFFFF = .ok n := by
  intro c
  obtain ⟨-, hshort, -, hpatch, -⟩ := accesses_checked c 1
  obtain ⟨⟨-, hbyte⟩, hshort', -, hpatch', -⟩ := accesses_checked c 2
  obtain ⟨⟨hbyte', -⟩, -⟩ := accesses_checked c 3
  obtain ⟨-, -, hwraps, -⟩ := accesses_checked c 0xFFFFFFFFFFFFFFFF
  have hin : c.Covers 1 2 := (covers_iff Nat.two_pos).2 (Nat.le_refl 3)
  have hout : ¬ c.Covers 2 2 := (not_covers_iff Nat.two_pos).2 (Nat.lt_succ_self 3)
  obtain ⟨b, hb, hread⟩ := hbyte ((covers_iff Nat.one_pos).2 (Nat.le_refl 3))
  obtain ⟨high, low, hhigh, hlow, hread'⟩ := (hshort (by decide)).2 hin
  obtain ⟨patched?, hpatched, -, hvalue⟩ := (hpatch (by decide)).2 hin
  cases hb
  cases hhigh
  cases hlow
  refine ⟨hread, hbyte' ?_, hread', (hshort' (by decide)).1 hout, ?_, (hpatch' (by decide)).1 hout,
    hwraps rfl (by decide)⟩
  · exact (not_covers_iff Nat.one_pos).2 (Nat.lt_succ_self 3)
  · rw [hpatched, hvalue (by decide), if_neg (by decide)]
    rfl

/-- At the last but one offset a patch passes the check, although nothing is there.  Its distance comes
out as the size of the code, here one more than fits. -/
theorem patch_unchecked :
    let c : Chunk := { empty with code := Array.replicate 65536 2, lines := Array.replicate 65536 1 }
    let offset : UInt64 := 0xFFFFFFFFFFFFFFFE
    ¬ c.Covers offset.toNat 2 ∧ c.patchJumpAt offset = .ok none := by
  intro c offset
  have hsize : c.code.size = 65536 := Array.size_replicate
  clear_value c
  constructor
  · rw [not_covers_iff Nat.two_pos, hsize]
    decide
  · refine patchJumpAt_eq_none (by decide) ?_ ?_
    · rw [hsize]
      decide
    · rw [hsize]
      decide

end Lox.Chunk
