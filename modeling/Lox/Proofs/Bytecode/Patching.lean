import Mathlib.Algebra.Group.Nat.Defs
import Lox.Bytecode.Address
import Lox.Proofs.Compiler.Steps
import Lox.Proofs.Machine.Steps

/-!
# Jumps stay patched

A forward jump is written before it is known where it leads.  Other code is written behind it, other
jumps among it, and these may be patched in any order.  `Edit` lists what is done to a chunk while its
code is written, and `Chunk.edited` is the chunk after any sequence of this.

Operands never overlap (`pairwise_operands`), so that a patch of one jump leaves the others alone
(`getElem?_edited`).  A jump that was patched therefore leads where the code ended at that moment,
whatever is done afterwards, and a loop leads back to where it begins (`jumps_stay_patched`).
-/

namespace Lox

/-- What is done to a chunk while its code is written. -/
inductive Edit where
  | write (byte : UInt8) (line : UInt32)
  | writeOp (op : Opcode) (line : UInt32)
  | emitJump (op : Opcode) (line : UInt32)
  | patchJump (offset : Nat)

namespace Edit

/-- The operand that is patched, if one is. -/
def patched? : Edit → Option Nat
  | patchJump offset => some offset
  | _ => none

/-- The operands that are patched, in this order. -/
def patches (es : List Edit) : List Nat :=
  es.filterMap patched?

lemma patches_cons (e : Edit) (es : List Edit) :
    patches (e :: es) = e.patched?.toList ++ patches es := by
  cases e <;> rfl

lemma patches_append (es fs : List Edit) : patches (es ++ fs) = patches es ++ patches fs :=
  List.filterMap_append

end Edit

namespace Chunk

/-- The chunk after an edit.  A patch that fails leaves it as it is. -/
def edit (c : Chunk) : Edit → Chunk
  | .write byte line => c.write byte line
  | .writeOp op line => c.writeOp op line
  | .emitJump op line => (c.emitJump op line).2
  | .patchJump offset =>
    match c.patchJump offset with
    | .ok (some patched) => patched
    | _ => c

/-- The chunk after a sequence of edits. -/
def edited (c : Chunk) (es : List Edit) : Chunk :=
  es.foldl edit c

/-- The operand of the jump that an edit writes, if it writes one. -/
def operand? (c : Chunk) : Edit → Option Nat
  | .emitJump op line => some (c.emitJump op line).1
  | _ => none

/-- The operands of the jumps that are written, in this order. -/
def operands (c : Chunk) : List Edit → List Nat
  | [] => []
  | e :: es => (c.operand? e).toList ++ (c.edit e).operands es

section Edits

variable {c d : Chunk} {e : Edit} {es fs : List Edit} {i o p : Nat}

lemma edited_append (c : Chunk) (es fs : List Edit) : c.edited (es ++ fs) = (c.edited es).edited fs :=
  List.foldl_append

lemma operands_append (c : Chunk) (es fs : List Edit) :
    c.operands (es ++ fs) = c.operands es ++ (c.edited es).operands fs := by
  induction es generalizing c with
  | nil => rfl
  | cons e es ih => rw [List.cons_append, operands, operands, ih, List.append_assoc, edited, edited,
      List.foldl_cons]

/-! ## One patch -/

lemma fst_emitJump (c : Chunk) (op : Opcode) (line : UInt32) :
    (c.emitJump op line).1 = c.code.size + 1 := by
  simp [emitJump, emitJumpByte, write]

lemma code_emitJump (c : Chunk) (op : Opcode) (line : UInt32) :
    (c.emitJump op line).2.code = ((c.code.push op.toByte).push 0xFF).push 0xFF := rfl

/-- The distance of a jump inside the code is always found. -/
lemma patchJump_eq (hinside : o + 2 ≤ c.code.size) :
    c.patchJump o = .ok (if maxShort < c.code.size - o - 2 then none
      else some (c.setShort o (c.code.size - o - 2))) := by
  rw [patchJump, jumpDistance, if_neg (Nat.not_lt.2 hinside)]
  dsimp only [Except.map]
  split
  · rfl
  · rfl

lemma edit_patchJump (hinside : o + 2 ≤ c.code.size) :
    c.edit (.patchJump o) =
      if maxShort < c.code.size - o - 2 then c else c.setShort o (c.code.size - o - 2) := by
  by_cases hfar : maxShort < c.code.size - o - 2
  · rw [edit, patchJump_eq hinside, if_pos hfar, if_pos hfar]
  · rw [edit, patchJump_eq hinside, if_neg hfar, if_neg hfar]

lemma getElem?_setShort (c : Chunk) (o n i : Nat) (hlow : i ≠ o) (hhigh : i ≠ o + 1) :
    (c.setShort o n).code[i]? = c.code[i]? := by
  rw [setShort, Array.getElem?_setIfInBounds_ne (Ne.symm hhigh),
    Array.getElem?_setIfInBounds_ne (Ne.symm hlow)]

lemma size_setShort (c : Chunk) (o n : Nat) : (c.setShort o n).code.size = c.code.size := by
  simp [setShort]

/-- Both bytes of a number that was written. -/
lemma getElem?_setShort_self (hinside : o + 2 ≤ c.code.size) (n : Nat) :
    (c.setShort o n).code[o]? = some (highByte n) ∧
      (c.setShort o n).code[o + 1]? = some (lowByte n) := by
  have hsize : o < c.code.size := by omega
  have hsize' : o + 1 < (c.code.setIfInBounds o (highByte n)).size := by
    rw [Array.size_setIfInBounds]
    omega
  constructor
  · rw [setShort, Array.getElem?_setIfInBounds_ne (Nat.succ_ne_self o),
      Array.getElem?_setIfInBounds_self_of_lt hsize]
  · rw [setShort, Array.getElem?_setIfInBounds_self_of_lt hsize']

/-! ## Addressing by machine word -/

lemma toNat_of_le_size (hsize : c.code.size < 2 ^ 64) (hle : i ≤ c.code.size) : i.toUInt64.toNat = i :=
  UInt64.toNat_ofNat_of_lt' (Nat.lt_of_le_of_lt hle hsize)

/-- What is added to an offset leads further on, or around to the beginning. -/
lemma toNat_offset_add (offset w : UInt64) :
    (offset.toNat + w.toNat < 2 ^ 64 → (offset + w).toNat = offset.toNat + w.toNat) ∧
      (2 ^ 64 ≤ offset.toNat + w.toNat → (offset + w).toNat = offset.toNat + w.toNat - 2 ^ 64) := by
  have hoffset := offset.toNat_lt
  have hw := w.toNat_lt
  rw [UInt64.toNat_add]
  omega

/-- Machine words are wide enough for distances in code. -/
lemma toNat_distance {offset : UInt64} (hsize : c.code.size < 2 ^ 64)
    (hinside : offset.toNat + 2 ≤ c.code.size) :
    (c.code.size.toUInt64 - offset - 2).toNat = c.code.size - offset.toNat - 2 := by
  rw [UInt64.toNat_sub, UInt64.toNat_sub, toNat_of_le_size hsize (Nat.le_refl _),
    show (2 : UInt64).toNat = 2 from rfl]
  omega

/-- A patch writes the two bytes that were checked, or nothing if the distance does not fit. -/
lemma patchJumpAt_of_inside {offset : UInt64} (hword : offset.toNat + 2 < 2 ^ 64)
    (hinside : offset.toNat + 2 ≤ c.code.size) :
    ∃ distance, c.patchJumpAt offset =
        .ok (if maxShort < distance then none else some (c.setShort offset.toNat distance)) ∧
      (c.code.size < 2 ^ 64 → distance = c.code.size - offset.toNat - 2) := by
  have hend : (offset + 2).toNat = offset.toNat + 2 := (toNat_offset_add offset 2).1 hword
  have hsecond : (offset + 1).toNat = offset.toNat + 1 :=
    (toNat_offset_add offset 1).1 (Nat.lt_of_succ_lt hword)
  refine ⟨(c.code.size.toUInt64 - offset - 2).toNat, ?_, fun hsize => toNat_distance hsize hinside⟩
  rw [patchJumpAt, hend, hsecond, if_neg (Nat.not_lt.2 hinside)]
  dsimp only
  split
  · rfl
  · rfl

/-- Machine words are wide enough to address code. -/
lemma patchJumpAt_eq (hsize : c.code.size < 2 ^ 64) (hinside : o + 2 ≤ c.code.size) :
    c.patchJumpAt o.toUInt64 = c.patchJump o := by
  have hoffset : o.toUInt64.toNat = o := toNat_of_le_size hsize (by omega)
  have hword : o.toUInt64.toNat + 2 ≤ c.code.size := by rwa [hoffset]
  obtain ⟨distance, hpatch, hdistance⟩ :=
    patchJumpAt_of_inside (Nat.lt_of_le_of_lt hword hsize) hword
  rw [hpatch, hdistance hsize, hoffset, patchJump_eq hinside]

/-! ## Sequences of edits -/

/-- Code only grows, and of what there is only patched operands change. -/
lemma edit_cases (c : Chunk) (e : Edit) :
    c.code.size ≤ (c.edit e).code.size ∧
      ∀ i < c.code.size, (∀ p ∈ e.patched?, i ≠ p ∧ i ≠ p + 1) →
        (c.edit e).code[i]? = c.code[i]? := by
  have hpush : ∀ {a : Array UInt8} (b : UInt8) {i : Nat}, i < a.size → (a.push b)[i]? = a[i]? :=
    fun b _ h => (Array.getElem?_push_lt h).trans (Array.getElem?_eq_getElem h).symm
  cases e with
  | write byte line | writeOp op line =>
    refine ⟨?_, fun i hi _ => hpush _ hi⟩
    simp [edit, writeOp, write]
  | emitJump op line =>
    refine ⟨?_, fun i hi _ => ?_⟩
    · rw [edit, code_emitJump, Array.size_push, Array.size_push, Array.size_push]
      omega
    rw [edit, code_emitJump, hpush, hpush, hpush]
    · exact hi
    · rw [Array.size_push]
      omega
    · rw [Array.size_push, Array.size_push]
      omega
  | patchJump o =>
    by_cases hinside : o + 2 ≤ c.code.size
    · rw [edit_patchJump hinside]
      split
      · exact ⟨Nat.le_refl _, fun _ _ _ => rfl⟩
      · refine ⟨Nat.le_of_eq (size_setShort c o _).symm, fun i _ hpatch => ?_⟩
        obtain ⟨hlow, hhigh⟩ := hpatch o rfl
        exact getElem?_setShort c o _ i hlow hhigh
    · rw [edit, patchJump, jumpDistance, if_pos (Nat.not_le.1 hinside)]
      exact ⟨Nat.le_refl _, fun _ _ _ => rfl⟩

lemma size_le_edited (c : Chunk) (es : List Edit) : c.code.size ≤ (c.edited es).code.size := by
  induction es generalizing c with
  | nil => exact Nat.le_refl _
  | cons e es ih => exact Nat.le_trans (c.edit_cases e).1 (ih (c.edit e))

/-- A byte stays what it is as long as its operand is not patched. -/
lemma getElem?_edited (hi : i < c.code.size)
    (hpatches : ∀ p ∈ Edit.patches es, i ≠ p ∧ i ≠ p + 1) :
    (c.edited es).code[i]? = c.code[i]? := by
  induction es generalizing c with
  | nil => rfl
  | cons e es ih =>
    obtain ⟨hgrows, hsame⟩ := c.edit_cases e
    rw [Edit.patches_cons, List.forall_mem_append] at hpatches
    have hrest := ih (c := c.edit e) (by omega) hpatches.2
    rw [← hsame i hi fun p hp => hpatches.1 p (Option.mem_toList.2 hp)]
    exact hrest

/-- Operands are written behind the code that is there. -/
lemma lt_of_mem_operands (ho : o ∈ c.operands es) : c.code.size < o := by
  induction es generalizing c with
  | nil => cases ho
  | cons e es ih =>
    rcases List.mem_append.1 ho with ho | ho
    · cases e with
      | emitJump op line =>
        rw [operand?, Option.toList_some, List.mem_singleton, fst_emitJump] at ho
        omega
      | _ => cases ho
    · exact Nat.lt_of_le_of_lt (c.edit_cases e).1 (ih ho)

/-- Between two operands there is at least the opcode of the second. -/
lemma pairwise_operands (c : Chunk) (es : List Edit) :
    (c.operands es).Pairwise fun o p => o + 3 ≤ p := by
  induction es generalizing c with
  | nil => exact .nil
  | cons e es ih =>
    refine List.pairwise_append.2 ⟨?_, ih (c.edit e), fun o ho p hp => ?_⟩
    · cases c.operand? e with
      | none => exact .nil
      | some o => exact List.pairwise_singleton _ _
    · have hbehind := lt_of_mem_operands hp
      cases e with
      | emitJump op line =>
        rw [operand?, Option.toList_some, List.mem_singleton, fst_emitJump] at ho
        rw [edit, code_emitJump, Array.size_push, Array.size_push, Array.size_push] at hbehind
        omega
      | _ => cases ho

lemma eq_or_apart (ho : o ∈ c.operands es) (hp : p ∈ c.operands es) :
    p = o ∨ p + 3 ≤ o ∨ o + 3 ≤ p := by
  exact List.Pairwise.forall_of_forall_of_flip (R := fun o p => p = o ∨ p + 3 ≤ o ∨ o + 3 ≤ p)
    (fun _ _ => .inl rfl) ((c.pairwise_operands es).imp fun h => .inr (.inr h))
    ((c.pairwise_operands es).imp fun h => .inr (.inl h)) ho hp

/-! ## Reading a jump back -/

/-- An opcode and the two bytes behind it are an instruction. -/
lemma decode_of_bytes {op : Opcode} {n : Nat} (hwidth : op.operandWidth = 2) (hn : n ≤ maxShort)
    (hop : c.code[i]? = some op.toByte) (hhigh : c.code[i + 1]? = some (highByte n))
    (hlow : c.code[i + 1 + 1]? = some (lowByte n)) : c.decode i = .ok ⟨op, n⟩ := by
  have hshort : c.readShort (i + 1) = .ok n := by
    have hlt : n < 65536 := Nat.lt_succ_of_le hn
    simp only [readShort, hhigh, hlow, highByte, lowByte, UInt8.toNat_ofNat']
    congr 1
    omega
  simp only [decode, readByte, hop, Opcode.ofByte?_toByte, readOperand, hwidth, hshort]
  rfl

end Edits

end Chunk

/-! ## Executing a jump -/

namespace Machine

/-- The machine whose innermost call goes on at an offset. -/
def goingOn (m : Machine) (ip : Nat) : Machine :=
  { m with frames := m.frames.modify (m.frames.size - 1) ({ · with ip }) }

variable {natives : Natives} {m : Machine} {frame : Frame} {n : Nat}

lemma goingOn_goingOn (m : Machine) (ip ip' : Nat) : (m.goingOn ip).goingOn ip' = m.goingOn ip' := by
  simp only [goingOn, Array.size_modify]
  congr 1
  apply Array.ext (by simp)
  intro i _ _
  simp only [Array.getElem_modify]
  split <;> rfl

lemma step_jump (hdecode : frame.chunk.decode frame.ip = .ok ⟨.jump, n⟩) (natives : Natives)
    (m : Machine) : step natives frame m = .ok () (m.goingOn (frame.ip + 3 + n)) := by
  rw [step, hdecode]
  dsimp only
  rw [bind_apply, setIp_apply]
  show EStateM.Result.ok () ((m.goingOn (frame.ip + 3)).goingOn (frame.ip + 3 + n)) = _
  rw [goingOn_goingOn]

lemma step_jumpIfFalse (hdecode : frame.chunk.decode frame.ip = .ok ⟨.jumpIfFalse, n⟩)
    (natives : Natives) {v : Value} (hv : m.stack.back? = some v) :
    step natives frame m =
      .ok () (m.goingOn (if v.isFalsey then frame.ip + 3 + n else frame.ip + 3)) := by
  have hpos : 0 < m.stack.size := by
    rw [Array.back?] at hv
    have := (Array.getElem?_eq_some_iff.1 hv).1
    omega
  have htop : m.stack.getD (m.stack.size - 1) .nil = v := by
    rw [Array.back?] at hv
    rw [Array.getD_eq_getD_getElem?, hv]
    rfl
  have hpeek : peek 0 (m.goingOn (frame.ip + 3)) = .ok v (m.goingOn (frame.ip + 3)) := by
    rw [peek_apply]
    show (if 0 < m.stack.size then _ else _) = _
    rw [if_pos hpos]
    exact congrArg (EStateM.Result.ok · _) htop
  rw [step, hdecode]
  dsimp only
  rw [bind_apply, setIp_apply]
  show (do if (← peek 0).isFalsey then setIp (frame.ip + 3 + n) : MachineM Unit)
    (m.goingOn (frame.ip + 3)) = _
  rw [bind_apply, hpeek]
  dsimp only
  cases v.isFalsey with
  | true =>
    show EStateM.Result.ok () ((m.goingOn (frame.ip + 3)).goingOn (frame.ip + 3 + n)) = _
    rw [goingOn_goingOn]
    rfl
  | false => rfl

lemma step_loop (hdecode : frame.chunk.decode frame.ip = .ok ⟨.loop, n⟩) (hn : n ≤ frame.ip + 3)
    (natives : Natives) (m : Machine) :
    step natives frame m = .ok () (m.goingOn (frame.ip + 3 - n)) := by
  rw [step, hdecode]
  dsimp only
  rw [bind_apply, setIp_apply]
  show (if frame.ip + 3 < n then throw (.fault .loopBeforeStart) else setIp (frame.ip + 3 - n) :
    MachineM Unit) (m.goingOn (frame.ip + 3)) = _
  rw [if_neg (Nat.not_lt.2 hn)]
  show EStateM.Result.ok () ((m.goingOn (frame.ip + 3)).goingOn (frame.ip + 3 - n)) = _
  rw [goingOn_goingOn]

/-- The jump at an offset leads to the target, on every machine whose innermost call comes to it.  A
conditional jump leads there if the value on top of the stack is false, and else to the next
instruction. -/
def JumpsTo (w : Chunk) (o : Nat) (op : Opcode) (target : Nat) : Prop :=
  ∀ (natives : Natives) (m : Machine) (frame : Frame), frame.chunk = w → frame.ip = o →
    (op = .jumpIfFalse → ∀ v, m.stack.back? = some v → step natives frame m =
      .ok () (m.goingOn (if v.isFalsey then target else o + 3))) ∧
    (op ≠ .jumpIfFalse → step natives frame m = .ok () (m.goingOn target))

variable {w : Chunk} {o : Nat} {op : Opcode}

lemma jumpsTo_forward (hop : op = .jump ∨ op = .jumpIfFalse) (hdecode : w.decode o = .ok ⟨op, n⟩) :
    JumpsTo w o op (o + 3 + n) := by
  rintro natives m frame rfl rfl
  rcases hop with rfl | rfl
  · exact ⟨nofun, fun _ => step_jump hdecode natives m⟩
  · exact ⟨fun _ v hv => step_jumpIfFalse hdecode natives hv, fun h => absurd rfl h⟩

lemma jumpsTo_loop (hn : n ≤ o + 3) (hdecode : w.decode o = .ok ⟨.loop, n⟩) :
    JumpsTo w o .loop (o + 3 - n) := by
  rintro natives m frame rfl rfl
  exact ⟨nofun, fun _ => step_loop hdecode hn natives m⟩

end Machine

/-! ## Main result -/

open Chunk Compiler Machine

section Patching

variable {c : Chunk} {es : List Edit} {op : Opcode} {o n : Nat}

/-- An instruction with an operand of two bytes stays as long as its operand is not patched. -/
lemma Chunk.decode_edited (hop : op.operandWidth = 2) (hn : n ≤ maxShort)
    (hopcode : c.code[o]? = some op.toByte) (hhigh : c.code[o + 1]? = some (highByte n))
    (hlow : c.code[o + 1 + 1]? = some (lowByte n))
    (hpatches : ∀ p ∈ Edit.patches es, p + 2 ≤ o ∨ o + 3 ≤ p) :
    (c.edited es).decode o = .ok ⟨op, n⟩ := by
  obtain ⟨hinside, -⟩ := Array.getElem?_eq_some_iff.1 hlow
  have hkept : ∀ i, o ≤ i → i < o + 3 → (c.edited es).code[i]? = c.code[i]? := by
    intro i hlow hhigh
    refine getElem?_edited (by omega) fun p hp => ?_
    have hapart := hpatches p hp
    omega
  refine decode_of_bytes hop hn ?_ ?_ ?_
  · rw [hkept o (by omega) (by omega), hopcode]
  · rw [hkept (o + 1) (by omega) (by omega), hhigh]
  · rw [hkept (o + 1 + 1) (by omega) (by omega), hlow]

/-- A jump keeps its place and its opcode while other operands, or its own, are patched. -/
lemma Chunk.edited_emitJump (op : Opcode) (line : UInt32)
    (hpatches : ∀ p ∈ Edit.patches es,
      p = c.code.size + 1 ∨ p + 3 ≤ c.code.size + 1 ∨ c.code.size + 1 + 3 ≤ p) :
    c.code.size + 3 ≤ (c.edited (.emitJump op line :: es)).code.size ∧
      (c.edited (.emitJump op line :: es)).code[c.code.size]? = some op.toByte := by
  have hsize : (c.edit (.emitJump op line)).code.size = c.code.size + 3 := by
    rw [edit, code_emitJump, Array.size_push, Array.size_push, Array.size_push]
  refine ⟨hsize ▸ size_le_edited (c.edit (.emitJump op line)) es, ?_⟩
  have hkept : (c.edited (.emitJump op line :: es)).code[c.code.size]? =
      (c.edit (.emitJump op line)).code[c.code.size]? := by
    refine getElem?_edited (c := c.edit (.emitJump op line)) (by omega) fun p hp => ?_
    have hapart := hpatches p hp
    omega
  have hsecond : c.code.size < (c.code.push op.toByte).size := by
    rw [Array.size_push]
    exact Nat.lt_succ_self _
  have hthird : c.code.size < ((c.code.push op.toByte).push 0xFF).size := by
    rw [Array.size_push]
    exact Nat.lt_succ_of_lt hsecond
  rw [hkept, edit, code_emitJump, Array.getElem?_push_lt hthird, Array.getElem_push_lt hsecond,
    Array.getElem_push_eq]

/-- **Jumps stay patched.**  Whatever is done to a chunk before a jump is written, between this and
its patch, and afterwards, as long as no patch is of anything but the operand of a jump written in
this sequence and the jump is not patched again:

* the patch fails exactly if the distance does not fit into two bytes, and then the chunk is what it
  was; else it changes nothing but the two bytes of its operand;
* in the end the jump leads to where the code ended when it was patched;
* addressing code with machine words makes no difference.

A loop that is not too large leads to where it begins, likewise. -/
theorem jumps_stay_patched (c : Chunk) (before between after : List Edit) (op : Opcode) (line : UInt32) (o : Nat)
    (hop : op = .jump ∨ op = .jumpIfFalse) (ho : o = ((c.edited before).emitJump op line).1)
    (hoperands : ∀ p ∈ Edit.patches (before ++ .emitJump op line :: between ++ .patchJump o :: after),
      p ∈ c.operands (before ++ .emitJump op line :: between ++ .patchJump o :: after))
    (hother : o ∉ Edit.patches after) :
    let pending := c.edited (before ++ .emitJump op line :: between)
    let final := c.edited (before ++ .emitJump op line :: between ++ .patchJump o :: after)
    (65535 < pending.code.size - o - 2 →
      pending.patchJump o = .ok none ∧ pending.edit (.patchJump o) = pending) ∧
    (pending.code.size - o - 2 ≤ 65535 → ∃ patched, pending.patchJump o = .ok (some patched) ∧
      pending.edit (.patchJump o) = patched ∧ patched = { pending with code := patched.code } ∧
      patched.code.size = pending.code.size ∧
      (∀ i, i ≠ o → i ≠ o + 1 → patched.code[i]? = pending.code[i]?) ∧
      JumpsTo final (o - 1) op pending.code.size) ∧
    (pending.code.size < 2 ^ 64 → pending.patchJumpAt o.toUInt64 = pending.patchJump o) ∧
    ∀ (s : State) (start : Nat), start ≤ s.scope.chunk.code.size →
      let k := s.scope.chunk.code.size
      (65535 < k + 3 - start → ∃ t, emitLoop start s = .ok () t ∧
        t.errors = (s.report s.previous (.limit .loop)).errors) ∧
      (k + 3 - start ≤ 65535 → ∃ t, emitLoop start s = .ok () t ∧ t.errors = s.errors ∧
        ∀ further, (∀ p ∈ Edit.patches further,
            p + 2 ≤ k ∨ p ∈ t.scope.chunk.operands further) →
          JumpsTo (t.scope.chunk.edited further) k .loop start) := by
  intro pending final
  have hpending : pending = (c.edited before).edited (.emitJump op line :: between) :=
    edited_append c before _
  have hfinal : final = (pending.edit (.patchJump o)).edited after := edited_append c _ _
  rw [fst_emitJump] at ho
  -- every other patch is apart from the operand
  have hmem : o ∈ c.operands (before ++ .emitJump op line :: between ++ .patchJump o :: after) := by
    rw [List.append_assoc, operands_append]
    refine List.mem_append_right _ (List.mem_append_left _ ?_)
    rw [operand?, fst_emitJump, ho]
    exact List.mem_singleton.2 rfl
  have hpatches : Edit.patches (before ++ .emitJump op line :: between ++ .patchJump o :: after) =
      Edit.patches before ++ Edit.patches between ++ o :: Edit.patches after := by
    rw [Edit.patches_append, Edit.patches_append, Edit.patches_cons, Edit.patches_cons]
    rfl
  rw [hpatches] at hoperands
  have hapart : ∀ p ∈ Edit.patches before ++ Edit.patches between ++ o :: Edit.patches after,
      p = o ∨ p + 3 ≤ o ∨ o + 3 ≤ p := fun p hp => eq_or_apart hmem (hoperands p hp)
  have hbetween : ∀ p ∈ Edit.patches between, p = o ∨ p + 3 ≤ o ∨ o + 3 ≤ p := fun p hp =>
    hapart p (List.mem_append_left _ (List.mem_append_right _ hp))
  have hafter : ∀ p ∈ Edit.patches after, p + 3 ≤ o ∨ o + 3 ≤ p := fun p hp =>
    (hapart p (List.mem_append_right _ (List.mem_cons_of_mem _ hp))).resolve_left
      fun h => hother (h ▸ hp)
  obtain ⟨hinside, hopcode⟩ := edited_emitJump (c := c.edited before) op line (ho ▸ hbetween)
  rw [← hpending] at hinside hopcode
  have hpatch : o + 2 ≤ pending.code.size := by omega
  refine ⟨fun hfar => ?far, fun hnear => ?near, fun h => patchJumpAt_eq h hpatch,
    fun s start hstart => ⟨fun hlarge => ?large, fun hsmall => ?small⟩⟩
  case far =>
    exact ⟨(patchJump_eq hpatch).trans (congrArg Except.ok (if_pos hfar)),
      (edit_patchJump hpatch).trans (if_pos hfar)⟩
  case near =>
    set distance := pending.code.size - o - 2 with hdistance
    have hnotFar : ¬maxShort < distance := Nat.not_lt.2 hnear
    have hedit : pending.edit (.patchJump o) = pending.setShort o distance :=
      (edit_patchJump hpatch).trans (if_neg hnotFar)
    refine ⟨_, (patchJump_eq hpatch).trans (congrArg Except.ok (if_neg hnotFar)), hedit, rfl,
      size_setShort pending o _, getElem?_setShort pending o _, ?_⟩
    have hwidth : op.operandWidth = 2 := by
      rcases hop with rfl | rfl <;> rfl
    obtain ⟨hhigh, hlow⟩ := getElem?_setShort_self hpatch distance
    have hdecode : final.decode (o - 1) = .ok ⟨op, distance⟩ := by
      rw [hfinal, hedit]
      refine decode_edited hwidth hnear ?_ ?_ ?_ fun p hp => ?_
      · rw [getElem?_setShort pending o _ _ (by omega) (by omega), ho]
        exact hopcode
      · rw [show o - 1 + 1 = o by omega, hhigh]
      · rw [show o - 1 + 1 = o by omega, hlow]
      · have hapart := hafter p hp
        omega
    have hjumps := jumpsTo_forward hop hdecode
    rwa [show o - 1 + 3 + distance = pending.code.size by omega] at hjumps
  case large =>
    refine ⟨_, (emitLoop_apply start s hstart).trans (if_pos hlarge), ?_⟩
    show ((s.mapChunk (·.writeOp .loop s.previous.line)).report s.previous (.limit .loop)).errors = _
    rw [State.report, State.report, State.mapChunk]
    cases s.panicking with
    | true => rfl
    | false => rfl
  case small =>
    set distance := s.scope.chunk.code.size + 3 - start with hdistance
    refine ⟨_, (emitLoop_apply start s hstart).trans (if_neg (Nat.not_lt.2 hsmall)), rfl,
      fun further hfurther => ?_⟩
    have hcode : (s.write ⟨.loop, distance⟩ s.previous.line).scope.chunk.code =
      s.scope.chunk.code ++ #[Opcode.loop.toByte, highByte distance, lowByte distance] := rfl
    have hdecode : ((s.write ⟨.loop, distance⟩ s.previous.line).scope.chunk.edited further).decode
        s.scope.chunk.code.size = .ok ⟨.loop, distance⟩ := by
      refine decode_edited rfl hsmall ?_ ?_ ?_ fun p hp => ?_
      · rw [hcode, Array.getElem?_append_right (Nat.le_refl _)]
        simp
      · rw [hcode, Array.getElem?_append_right (by omega), Nat.add_sub_cancel_left]
        rfl
      · rw [hcode, Array.getElem?_append_right (by omega), Nat.add_assoc, Nat.add_sub_cancel_left]
        rfl
      · refine (hfurther p hp).imp_right fun hmem => ?_
        have hbehind := lt_of_mem_operands hmem
        rw [hcode, Array.size_append] at hbehind
        exact Nat.le_of_lt hbehind
    have hjumps := jumpsTo_loop (by omega) hdecode
    rwa [show s.scope.chunk.code.size + 3 - distance = start by omega] at hjumps

/-- The outer one of two jumps is patched between those of a second and a third. -/
theorem jumps_stay_patched_nested :
    let before := [Edit.writeOp .loadTrue 1]
    let between := [Edit.emitJump .jump 2, .writeOp .pop 2, .patchJump 5]
    let after := [Edit.emitJump .jump 3, .patchJump 9]
    JumpsTo (empty.edited (before ++ .emitJump .jumpIfFalse 1 :: between ++ .patchJump 2 :: after))
      1 .jumpIfFalse 8 := by
  have h := jumps_stay_patched empty [Edit.writeOp .loadTrue 1]
    [Edit.emitJump .jump 2, .writeOp .pop 2, .patchJump 5] [Edit.emitJump .jump 3, .patchJump 9]
    .jumpIfFalse 1 2 (.inr rfl) rfl (by decide) (by decide)
  obtain ⟨-, -, -, -, -, -, hjumps⟩ := h.2.1 (by decide)
  exact hjumps

end Patching

end Lox
