import Mathlib.Tactic.Common
import Lox.Heap.Object
import Lox.Proofs.Bytecode.Layout

/-!
# Code that is the same

Two chunks with the same bytes and the same pools do the same, wherever they were compiled from: the
source lines of their instructions show in stack traces only.  `Chunk.Alike` relates chunks that are
the same up to source lines, also in the functions declared in them.

What is proved of machines with the same code holds for any such notion of being the same.  A
`Likeness` is one: equality is (`Likeness.same`), and so is being alike (`Likeness.upToLines`).

Two chunks that differ may still have a stretch of code in common (`Chunk.Shares`).  It is then at
different offsets, and what its instructions refer to is at different places of the pools, but it is
the same (`Instruction.Matches`).
-/

namespace Lox

/-- The same function, up to its code. -/
structure Prototype.Like (R : Chunk → Chunk → Prop) (p p' : Prototype) : Prop where
  name : p'.name = p.name
  arity : p'.arity = p.arity
  captures : p'.captures = p.captures
  chunk : Option.Rel R p.chunk p'.chunk

/-- The same function on the heap, up to its code. -/
structure FunctionObject.Like (R : Chunk → Chunk → Prop) (f f' : FunctionObject) : Prop where
  name : f'.name = f.name
  arity : f'.arity = f.arity
  captureCount : f'.captureCount = f.captureCount
  chunk : Option.Rel R f.chunk f'.chunk

lemma Prototype.Like.ofPrototype {R : Chunk → Chunk → Prop} {p p' : Prototype} (h : p.Like R p') :
    (FunctionObject.ofPrototype p).Like R (.ofPrototype p') :=
  ⟨h.name, h.arity, congrArg Array.size h.captures, h.chunk⟩

lemma optionRel_eq {α : Type} {a b : Option α} : Option.Rel (· = ·) a b ↔ b = a := by
  constructor
  · rintro (rfl | _) <;> rfl
  · rintro rfl
    cases b with
    | none => exact .none
    | some a => exact .some rfl

lemma optionRel_symm {α β : Type} {R : α → β → Prop} {S : β → α → Prop} {a : Option α} {b : Option β}
    (h : Option.Rel R a b) (hRS : ∀ a b, R a b → S b a) : Option.Rel S b a := by
  cases h with
  | some h => exact .some (hRS _ _ h)
  | none => exact .none

lemma optionRel_restrict {α β : Type} {R S : α → β → Prop} {a : Option α} {b : Option β}
    (h : Option.Rel R a b) (hRS : ∀ x ∈ a, ∀ y, R x y → S x y) : Option.Rel S a b := by
  cases h with
  | some h => exact .some (hRS _ rfl _ h)
  | none => exact .none

lemma optionRel_mono {α β : Type} {R S : α → β → Prop} {a : Option α} {b : Option β}
    (h : Option.Rel R a b) (hRS : ∀ a b, R a b → S a b) : Option.Rel S a b :=
  optionRel_restrict h fun x _ y => hRS x y

lemma isSome_of_optionRel {α β : Type} {R : α → β → Prop} {a : Option α} {b : Option β}
    (h : Option.Rel R a b) : b.isSome = a.isSome := by
  cases h <;> rfl

lemma FunctionObject.Like.symm {R : Chunk → Chunk → Prop} (hR : ∀ {w w'}, R w w' → R w' w)
    {f f' : FunctionObject} (h : f.Like R f') : f'.Like R f :=
  ⟨h.name.symm, h.arity.symm, h.captureCount.symm, optionRel_symm h.chunk fun _ _ => hR⟩

/-- The same function on the heap, if its code is to be the same. -/
lemma FunctionObject.like_eq {f f' : FunctionObject} : f.Like (· = ·) f' ↔ f' = f := by
  constructor
  · intro h
    obtain ⟨name, arity, captureCount, chunk⟩ := f
    obtain ⟨name', arity', captureCount', chunk'⟩ := f'
    obtain ⟨hname, harity, hcount, hchunk⟩ := h
    rw [FunctionObject.mk.injEq]
    exact ⟨hname, harity, hcount, optionRel_eq.1 hchunk⟩
  · rintro rfl
    exact ⟨rfl, rfl, rfl, optionRel_eq.2 rfl⟩

/-- What it takes for a relation to be a notion of code being the same. -/
structure Likeness where
  Code : Chunk → Chunk → Prop
  symm : ∀ {w w' : Chunk}, Code w w' → Code w' w
  bytes : ∀ {w w' : Chunk}, Code w w' → w'.code = w.code
  constants : ∀ {w w' : Chunk}, Code w w' → w'.constants = w.constants
  strings : ∀ {w w' : Chunk}, Code w w' → w'.strings = w.strings
  functions : ∀ {w w' : Chunk}, Code w w' → ∀ i : Nat,
    Option.Rel (Prototype.Like Code) w.functions[i]? w'.functions[i]?
  refl : ∀ w, Code w w

/-- Code that is the same has the same instructions. -/
lemma Likeness.decode_eq (L : Likeness) {w w' : Chunk} (h : L.Code w w') (o : Nat) :
    w'.decode o = w.decode o := by
  simp only [Chunk.decode, Chunk.readByte, Chunk.readOperand, Chunk.readShort, L.bytes h]

/-- A function without code has the empty chunk. -/
lemma Likeness.getD (L : Likeness) {w w' : Option Chunk} (h : Option.Rel L.Code w w') :
    L.Code (w.getD .empty) (w'.getD .empty) := by
  cases h with
  | none => exact L.refl _
  | some h => exact h

/-- Equality. -/
def Likeness.same : Likeness where
  Code := (· = ·)
  symm := Eq.symm
  bytes := fun h => congrArg Chunk.code h.symm
  constants := fun h => congrArg Chunk.constants h.symm
  strings := fun h => congrArg Chunk.strings h.symm
  functions := by
    rintro w _ rfl i
    cases w.functions[i]? with
    | none => exact .none
    | some p => exact .some ⟨rfl, rfl, rfl, optionRel_eq.2 rfl⟩
  refl := fun _ => rfl

/-! ## Source lines -/

/-- The same up to source lines, also in the functions declared in the code. -/
inductive Chunk.Alike : Chunk → Chunk → Prop
  | refl (w : Chunk) : Alike w w
  | relined {w w' : Chunk} : w'.code = w.code → w'.constants = w.constants →
      w'.strings = w.strings →
      (∀ i : Nat, Option.Rel (fun p p' : Prototype => p'.name = p.name ∧ p'.arity = p.arity ∧
        p'.captures = p.captures ∧ p'.chunk.isSome = p.chunk.isSome)
          w.functions[i]? w'.functions[i]?) →
      (∀ (i : Nat) (p p' : Prototype) (v v' : Chunk), w.functions[i]? = some p →
        w'.functions[i]? = some p' → p.chunk = some v → p'.chunk = some v' → Alike v v') →
      Alike w w'

namespace Chunk.Alike

variable {w w' : Chunk}

lemma symm (h : w.Alike w') : w'.Alike w := by
  induction h with
  | refl w => exact .refl w
  | relined hcode hconstants hstrings hheads _ ih =>
    refine .relined hcode.symm hconstants.symm hstrings.symm (fun i => ?_) fun i p p' v v' hp hp' hv hv' =>
      ih i p' p v' v hp' hp hv' hv
    exact optionRel_symm (hheads i) fun p p' h => ⟨h.1.symm, h.2.1.symm, h.2.2.1.symm, h.2.2.2.symm⟩

lemma functions (h : w.Alike w') (i : Nat) :
    Option.Rel (Prototype.Like Alike) w.functions[i]? w'.functions[i]? := by
  cases h with
  | refl w =>
    cases w.functions[i]? with
    | none => exact .none
    | some p =>
      refine .some ⟨rfl, rfl, rfl, ?_⟩
      cases p.chunk with
      | none => exact .none
      | some v => exact .some (.refl v)
  | relined _ _ _ hheads hchunks =>
    have hhead := hheads i
    have hchunk := hchunks i
    generalize w.functions[i]? = a, w'.functions[i]? = b at hhead hchunk
    cases hhead with
    | none => exact .none
    | @some p p' h =>
      obtain ⟨hname, harity, hcaptures, hcode⟩ := h
      refine .some ⟨hname, harity, hcaptures, ?_⟩
      have halike := fun v v' => hchunk p p' v v' rfl rfl
      generalize p.chunk = a, p'.chunk = b at hcode halike
      cases a with
      | none =>
        cases b with
        | none => exact .none
        | some v' => cases hcode
      | some v =>
        cases b with
        | none => cases hcode
        | some v' => exact .some (halike v v' rfl rfl)

/-- Chunks with the same bytes and pools are alike if their functions are. -/
lemma of_functions (hcode : w'.code = w.code) (hconstants : w'.constants = w.constants)
    (hstrings : w'.strings = w.strings)
    (hfunctions : ∀ i : Nat, Option.Rel (Prototype.Like Alike) w.functions[i]? w'.functions[i]?) :
    w.Alike w' := by
  refine .relined hcode hconstants hstrings (fun i => ?_) fun i p p' v v' hp hp' hv hv' => ?_
  · have h := hfunctions i
    generalize w.functions[i]? = a, w'.functions[i]? = b at h
    cases h with
    | none => exact .none
    | some h =>
      exact .some ⟨h.name, h.arity, h.captures, isSome_of_optionRel h.chunk⟩
  · have h := hfunctions i
    rw [hp, hp'] at h
    cases h with
    | some h =>
      have hchunk := h.chunk
      rw [hv, hv'] at hchunk
      cases hchunk with
      | some hchunk => exact hchunk

end Chunk.Alike

/-- Being the same up to source lines. -/
def Likeness.upToLines : Likeness where
  Code := Chunk.Alike
  symm := Chunk.Alike.symm
  bytes := fun h => by
    cases h with
    | refl => rfl
    | relined h => exact h
  constants := fun h => by
    cases h with
    | refl => rfl
    | relined _ h => exact h
  strings := fun h => by
    cases h with
    | refl => rfl
    | relined _ _ h => exact h
  functions := Chunk.Alike.functions
  refl := .refl

/-! ## Matching instructions -/

/-- The same instruction, in that what it refers to is the same in two chunks. -/
def Instruction.Matches (R : Chunk → Chunk → Prop) (w w' : Chunk) (i i' : Instruction) : Prop :=
  i'.opcode = i.opcode ∧
    match i.opcode with
    | .loadConstant => w'.constants.get? i'.operand = w.constants.get? i.operand
    | .loadString | .defineGlobal | .getGlobal | .setGlobal =>
      w'.strings.get? i'.operand = w.strings.get? i.operand
    | .closure => Option.Rel (Prototype.Like R) w.functions[i.operand]? w'.functions[i'.operand]?
    | _ => i'.operand = i.operand

/-- In code that is the same, an instruction matches itself. -/
lemma Likeness.instruction_matches (L : Likeness) {w w' : Chunk} (h : L.Code w w') (i : Instruction) :
    i.Matches L.Code w w' i := by
  refine ⟨rfl, ?_⟩
  split
  · rw [L.constants h]
  · rw [L.strings h]
  · rw [L.strings h]
  · rw [L.strings h]
  · rw [L.strings h]
  · exact L.functions h i.operand
  · rfl

lemma Instruction.Matches.size_eq {R : Chunk → Chunk → Prop} {w w' : Chunk} {i i' : Instruction}
    (h : i.Matches R w w' i') : i'.size = i.size := by
  rw [size, size, h.1]

/-! ## Stretches of code in common -/

namespace Chart

variable {a : Chart} {o : Nat}

/-- Behind a place there is another one, or the end. -/
lemma next_places {q : Place} (hq : q ∈ a.places o) :
    q.next = o + a.code.size ∨ ∃ q' ∈ a.places o, q'.offset = q.next := by
  induction a generalizing o with
  | nil => simp at hq
  | cons x a ih =>
    obtain ⟨⟨i, line⟩, h⟩ := x
    rw [places_cons] at hq
    rw [code_cons, Code.size_cons, places_cons, ← Nat.add_assoc]
    rcases List.mem_cons.1 hq with rfl | hq
    · cases a with
      | nil => exact .inl rfl
      | cons y a =>
        obtain ⟨⟨j, line'⟩, h'⟩ := y
        exact .inr ⟨⟨o + i.size, j, h'⟩, by simp, rfl⟩
    · rcases ih hq with hend | ⟨q', hq', hnext⟩
      · exact .inl hend
      · exact .inr ⟨q', List.mem_cons_of_mem _ hq', hnext⟩

/-- The offset is that of a place, or the end. -/
def Marks (a : Chart) (o : Nat) : Prop :=
  o = a.code.size ∨ ∃ q ∈ a.places 0, q.offset = o

lemma marks_zero (a : Chart) : a.Marks 0 := by
  cases a with
  | nil => exact .inl rfl
  | cons x a => exact .inr ⟨_, List.mem_cons_self, rfl⟩

lemma marks_next {q : Place} (hq : q ∈ a.places 0) : a.Marks q.next := by
  rcases next_places hq with hend | hnext
  · exact .inl (by rw [hend, Nat.zero_add])
  · exact .inr hnext

end Chart

/-- The chart shows a stretch of code that two chunks have in common: the one at the beginning, where
the code of the chart is, the other from the offset `d` on. -/
structure Chunk.Shares (w w' : Chunk) (d : Nat) (a : Chart) : Prop where
  code : w.Holds 0 a.code
  leads : ∀ q ∈ a.places 0, q.Leads w 0 0 fun p => a.Marks p.offset
  matching : ∀ q ∈ a.places 0, ∃ i', w'.decode (d + q.offset) = .ok i' ∧
    q.instruction.Matches Chunk.Alike w w' i'

lemma Chunk.Shares.decode {w w' : Chunk} {d : Nat} {a : Chart} (h : w.Shares w' d a) :
    ∀ q ∈ a.places 0, w.decode q.offset = .ok q.instruction :=
  Chart.decode_places h.code fun q hq => (h.leads q hq).encodable

end Lox
