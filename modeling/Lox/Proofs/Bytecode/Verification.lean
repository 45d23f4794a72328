import Mathlib.Data.List.Forall2
import Lox.Proofs.Compiler.Steps

/-!
# Verified bytecode

Code is verified by running it on *shapes* instead of stacks.  The shape of a stack says how many
values a call has on it and, for each, whether a captured variable may still live there: such a
slot must not be popped without closing the variable, or the upvalue would refer past the top.

`Instruction.Allows` says of an instruction that it can be executed on a stack of a given shape,
and which offsets and shapes it leads to.  `Chunk.Runs` follows a chunk for a number of
instructions.  It counts instructions down, so loops need no invariant here: to verify a loop it
is enough to verify one round, given that fewer instructions remain for the rest.

A slot may always be taken for one that is captured (`Shape.Le`), because what is demanded of
captured slots is demanded by the instructions that drop them.
-/

namespace Lox

/-! ## Code at an offset -/

/-- The operand can be encoded in the operand bytes. -/
def Instruction.Encodable (i : Instruction) : Prop :=
  match i.opcode.operandWidth with
  | 0 => i.operand = 0
  | 1 => i.operand < 256
  | _ => i.operand ≤ Chunk.maxShort

namespace Chunk

/-- The code stands in the chunk at an offset. -/
def Holds (w : Chunk) (o : Nat) (c : Code) : Prop :=
  ∃ pre post, w.code.toList = pre ++ c.bytes ++ post ∧ pre.length = o

lemma holds_append {w : Chunk} {o : Nat} {c d : Code} :
    w.Holds o (c ++ d) ↔ w.Holds o c ∧ w.Holds (o + c.size) d := by
  constructor
  · rintro ⟨pre, post, h, rfl⟩
    rw [Code.bytes_append] at h
    exact ⟨⟨pre, d.bytes ++ post, by simp [h], rfl⟩, ⟨pre ++ c.bytes, post, by simp [h], by simp⟩⟩
  · rintro ⟨⟨pre, post, h, rfl⟩, ⟨pre', post', h', hlen⟩⟩
    have hsplit : pre' = pre ++ c.bytes := by
      have htake := congrArg (List.take pre'.length) (h.symm.trans h')
      rw [List.append_assoc pre', List.take_left] at htake
      have hlen' : pre'.length = (pre ++ c.bytes).length := by simp [hlen]
      rw [hlen', List.take_left] at htake
      exact htake.symm
    subst hsplit
    exact ⟨pre, post', by simp [h'], rfl⟩

lemma holds_cons {w : Chunk} {o : Nat} {i : Instruction × UInt32} {c : Code} :
    w.Holds o (i :: c) ↔ w.Holds o [i] ∧ w.Holds (o + i.1.size) c := by
  have h := holds_append (w := w) (o := o) (c := [i]) (d := c)
  simpa using h

lemma decode_operand {w : Chunk} {pre post : List UInt8} {n : Nat} (hn : n ≤ maxShort)
    (h : w.code.toList = pre ++ highByte n :: lowByte n :: post) :
    w.readShort pre.length = .ok n := by
  have hhigh : w.code[pre.length]? = some (highByte n) := by
    rw [← Array.getElem?_toList, h]
    simp
  have hlow : w.code[pre.length + 1]? = some (lowByte n) := by
    rw [← Array.getElem?_toList, h]
    simp
  simp only [readShort, hhigh, hlow, highByte, lowByte, UInt8.toNat_ofNat']
  have hlt : n < 65536 := by
    have : maxShort = 65535 := rfl
    omega
  congr 1
  omega

/-- What was encoded is decoded. -/
lemma Holds.decode {w : Chunk} {o : Nat} {i : Instruction × UInt32} (h : w.Holds o [i])
    (hi : i.1.Encodable) : w.decode o = .ok i.1 := by
  obtain ⟨pre, post, hcode, rfl⟩ := h
  obtain ⟨⟨op, n⟩, line⟩ := i
  simp only [Code.bytes_cons, Code.bytes_nil, List.append_nil, Instruction.bytes,
    Instruction.operandBytes] at hcode
  have hop : w.code[pre.length]? = some op.toByte := by
    rw [← Array.getElem?_toList, hcode]
    simp
  have hwidths : op.operandWidth = 0 ∨ op.operandWidth = 1 ∨ op.operandWidth = 2 := by
    cases op <;> simp [Opcode.operandWidth]
  simp only [Instruction.Encodable] at hi
  simp only [Chunk.decode, readByte, hop, Opcode.ofByte?_toByte, readOperand]
  rcases hwidths with hwidth | hwidth | hwidth
  · simp only [hwidth] at hi ⊢
    rw [hi]
    rfl
  · simp only [hwidth] at hi hcode ⊢
    have hoperand : w.code[pre.length + 1]? = some n.toUInt8 := by
      rw [← Array.getElem?_toList, hcode]
      simp
    simp only [hoperand, Except.map, Except.ok.injEq, Instruction.mk.injEq, true_and]
    exact Nat.mod_eq_of_lt hi
  · simp only [hwidth] at hi hcode ⊢
    have hcode' : w.code.toList = (pre ++ [op.toByte]) ++ highByte n :: lowByte n :: post := by
      simpa using hcode
    have hshort := decode_operand hi hcode'
    rw [List.length_append, List.length_singleton] at hshort
    simp [hshort, Except.map]

end Chunk

/-! ## Shapes -/

/-- What is on the stack of a call, top first: for each value, whether a captured variable may
live in its slot. -/
abbrev Shape := List Bool

namespace Shape

/-- The same number of values, and whatever may be captured in the first may be captured in the
second. -/
def Le (a b : Shape) : Prop :=
  List.Forall₂ (fun x y => x = true → y = true) a b

/-- Whether the variable in a slot may be captured.  Slots are counted from the bottom. -/
def flag? (a : Shape) (slot : Nat) : Option Bool :=
  a.reverse[slot]?

namespace Le

lemma refl (a : Shape) : Le a a :=
  List.forall₂_same.2 fun _ _ => id

lemma trans {a b c : Shape} (h : Le a b) (h' : Le b c) : Le a c := by
  induction h generalizing c with
  | nil => exact h'
  | cons hx _ ih =>
    cases h' with
    | cons hy hrest => exact .cons (hy ∘ hx) (ih hrest)

lemma length_eq {a b : Shape} (h : Le a b) : a.length = b.length :=
  List.Forall₂.length_eq h

lemma append {a b c d : Shape} (h : Le a b) (h' : Le c d) : Le (a ++ c) (b ++ d) :=
  List.rel_append h h'

lemma cons_false {a b : Shape} (x : Bool) (h : Le a b) : Le (false :: a) (x :: b) :=
  .cons (by simp) h

lemma flag?_true {a b : Shape} (h : Le a b) {slot : Nat} (ha : a.flag? slot = some true) :
    b.flag? slot = some true := by
  have hrev : List.Forall₂ (fun x y => x = true → y = true) a.reverse b.reverse :=
    List.rel_reverse h
  rw [flag?] at ha ⊢
  obtain ⟨hlt, hval⟩ := List.getElem?_eq_some_iff.1 ha
  have hlt' : slot < b.reverse.length := hrev.length_eq ▸ hlt
  rw [List.getElem?_eq_getElem hlt']
  exact congrArg some (hrev.get hlt hlt' hval)

end Le

lemma flag?_append {a b : Shape} {slot : Nat} (h : slot < b.length) :
    Shape.flag? (a ++ b) slot = b.flag? slot := by
  rw [flag?, flag?, List.reverse_append, List.getElem?_append_left (by simpa using h)]

end Shape

/-! ## Instructions on shapes -/

/-- A closure of the function can be made where the stack has this shape and the running closure
has this many captured variables. -/
def Prototype.Capturable (p : Prototype) (upvalues : Nat) (a : Shape) : Prop :=
  ∀ c ∈ p.captures, if c.isLocal then a.flag? c.index = some true else c.index < upvalues

/-- The instruction can be executed on a stack of this shape by a closure with this many captured
variables, and `goOn` holds wherever that leads to.  `next` is the offset behind it. -/
def Instruction.Allows (w : Chunk) (upvalues next : Nat) (goOn : Nat → Shape → Prop)
    (i : Instruction) (a : Shape) : Prop :=
  match i.opcode with
  | .loadNil | .loadTrue | .loadFalse => goOn next (false :: a)
  | .loadConstant => i.operand < w.constants.size ∧ goOn next (false :: a)
  | .loadString | .getGlobal => i.operand < w.strings.size ∧ goOn next (false :: a)
  | .getLocal => i.operand < a.length ∧ goOn next (false :: a)
  | .getUpvalue => i.operand < upvalues ∧ goOn next (false :: a)
  | .closure =>
    -- A function may capture the variable that it is about to become the value of.
    ∃ p x, w.functions[i.operand]? = some p ∧ p.Capturable upvalues (x :: a) ∧ goOn next (x :: a)
  | .setGlobal => i.operand < w.strings.size ∧ a ≠ [] ∧ goOn next a
  | .setLocal => i.operand < a.length ∧ goOn next a
  | .setUpvalue => i.operand < upvalues ∧ a ≠ [] ∧ goOn next a
  | .pop | .print => ∃ b, a = false :: b ∧ goOn next b
  | .defineGlobal => i.operand < w.strings.size ∧ ∃ b, a = false :: b ∧ goOn next b
  | .closeUpvalue => ∃ x b, a = x :: b ∧ goOn next b
  | .negate | .not | .typeof => ∃ b, a = false :: b ∧ goOn next (false :: b)
  | .add | .subtract | .multiply | .divide | .equal | .notEqual | .less | .greater | .lessEqual
  | .greaterEqual => ∃ b, a = false :: false :: b ∧ goOn next (false :: b)
  | .jump => goOn (next + i.operand) a
  | .jumpIfFalse => a ≠ [] ∧ goOn next a ∧ goOn (next + i.operand) a
  | .loop => i.operand ≤ next ∧ goOn (next - i.operand) a
  | .call => ∃ b, a = List.replicate (i.operand + 1) false ++ b ∧ goOn next (false :: b)
  | .ret => ∃ b, a = false :: b

lemma Instruction.Allows.mono {w : Chunk} {upvalues next : Nat} {P Q : Nat → Shape → Prop}
    {i : Instruction} {a : Shape} (hPQ : ∀ o b, P o b → Q o b) (h : i.Allows w upvalues next P a) :
    i.Allows w upvalues next Q a := by
  obtain ⟨op, n⟩ := i
  cases op <;> simp only [Instruction.Allows] at h ⊢ <;> grind

namespace Chunk

/-- From an offset on, the code can be run for `n` instructions on a stack of this shape. -/
def Runs (w : Chunk) (upvalues : Nat) : (n o : Nat) → Shape → Prop
  | 0, _, _ => True
  | n + 1, o, a => ∃ b i, a.Le b ∧ w.decode o = .ok i ∧
      i.Allows w upvalues (o + i.size) (w.Runs upvalues n) b

variable {w : Chunk} {upvalues : Nat}

/-- Fewer slots may be captured. -/
lemma Runs.of_le {n o : Nat} {a b : Shape} (h : w.Runs upvalues n o b) (hab : a.Le b) :
    w.Runs upvalues n o a := by
  cases n with
  | zero => trivial
  | succ n =>
    obtain ⟨c, i, hbc, hrest⟩ := h
    exact ⟨c, i, hab.trans hbc, hrest⟩

/-- Fewer instructions may be run. -/
lemma Runs.pred {n o : Nat} {a : Shape} (h : w.Runs upvalues (n + 1) o a) :
    w.Runs upvalues n o a := by
  induction n generalizing o a with
  | zero => trivial
  | succ n ih =>
    obtain ⟨b, i, hab, hi, hallows⟩ := h
    exact ⟨b, i, hab, hi, hallows.mono fun _ _ => ih⟩

lemma Runs.of_lt {n m o : Nat} {a : Shape} (h : w.Runs upvalues n o a) (hmn : m ≤ n) :
    w.Runs upvalues m o a := by
  induction n with
  | zero =>
    cases Nat.le_zero.1 hmn
    exact h
  | succ n ih =>
    rcases Nat.le_succ_iff.1 hmn with hle | rfl
    · exact ih h.pred hle
    · exact h

/-- An instruction can be run if one less can be run from there. -/
lemma Runs.of_allows {n o : Nat} {a : Shape} {i : Instruction × UInt32} (hcode : w.Holds o [i])
    (hi : i.1.Encodable) (h : ∀ m < n, i.1.Allows w upvalues (o + i.1.size) (w.Runs upvalues m) a) :
    w.Runs upvalues n o a := by
  cases n with
  | zero => trivial
  | succ n => exact ⟨a, i.1, .refl a, hcode.decode hi, h n (Nat.lt_succ_self n)⟩

end Chunk

/-! ## Functions -/

/-- The function and all functions in it can be run for any number of instructions, when they are
called with as many arguments as they ask for. -/
inductive Prototype.Verified : Prototype → Prop
  | mk {p : Prototype} {w : Chunk} {arity : Nat} : p.chunk = some w → p.arity = arity →
      (∀ n, w.Runs p.captures.size n 0 (List.replicate (arity + 1) false)) →
      (∀ f ∈ w.functions, Verified f) → Verified p

end Lox
