import Lox.Proofs.Bytecode.Verification

/-!
# The layout of code

Two things can be read off a chunk without running it.  One is its layout: the code divides into
instructions without a rest, jumps lead to the beginning of instructions, and operands stay within
the pools they point into (`Chunk.WellFormed`).  The other is how high the stack is at each
instruction, counted from the base of the call.  The height is the same on all ways to an
instruction, and no instruction reaches below the arguments (`Chunk.Balanced`).

A `Chart` lists the instructions of a chunk with the heights before them.  To check a chart is to
check every instruction against its successors (`Instruction.Leads`).  A chart that passes yields
both properties of the chunk (`Chart.wellFormed`, `Chart.balanced`).
-/

namespace Lox

/-! ## Instructions -/

namespace Instruction

/-- How many values an instruction takes from the top of the stack.  A value that is only looked
at counts as taken and given back. -/
def takes (i : Instruction) : Nat :=
  match i.opcode with
  | .loadConstant | .loadString | .loadNil | .loadTrue | .loadFalse | .getGlobal | .getLocal
  | .getUpvalue | .closure | .jump | .loop => 0
  | .pop | .negate | .not | .typeof | .defineGlobal | .setGlobal | .setLocal | .setUpvalue
  | .closeUpvalue | .jumpIfFalse | .ret | .print => 1
  | .add | .subtract | .multiply | .divide | .equal | .notEqual | .less | .greater | .lessEqual
  | .greaterEqual => 2
  | .call => i.operand + 1

/-- How many values it leaves in their place. -/
def gives (i : Instruction) : Nat :=
  match i.opcode with
  | .pop | .defineGlobal | .closeUpvalue | .jump | .loop | .ret | .print => 0
  | _ => 1

lemma gives_le (i : Instruction) : i.gives ≤ 1 := by
  unfold gives
  split
  all_goals omega

/-- Where the code goes on after an instruction.  `next` is the offset behind it. -/
def successors (next : Nat) (i : Instruction) : List Nat :=
  match i.opcode with
  | .jump => [next + i.operand]
  | .jumpIfFalse => [next, next + i.operand]
  | .loop => [next - i.operand]
  | .ret => []
  | _ => [next]

lemma mem_successors {i : Instruction} (hjump : i.opcode ≠ .jump) (hloop : i.opcode ≠ .loop)
    (hret : i.opcode ≠ .ret) (next : Nat) : next ∈ i.successors next := by
  unfold successors
  split
  · rename_i h
    exact absurd h hjump
  · exact List.mem_cons_self
  · rename_i h
    exact absurd h hloop
  · rename_i h
    exact absurd h hret
  · exact List.mem_cons_self

/-- The operand points at something: into a pool, at a captured variable, or at an offset that is
not before the code.  A function whose closure is made may take over captured variables that the
running closure has. -/
def InRange (w : Chunk) (upvalues next : Nat) (i : Instruction) : Prop :=
  match i.opcode with
  | .loadConstant => i.operand < w.constants.size
  | .loadString | .defineGlobal | .getGlobal | .setGlobal => i.operand < w.strings.size
  | .getUpvalue | .setUpvalue => i.operand < upvalues
  | .closure => ∃ p, w.functions[i.operand]? = some p ∧
      ∀ c ∈ p.captures, c.isLocal = false → c.index < upvalues
  | .loop => i.operand ≤ next
  | _ => True

end Instruction

/-! ## Well-formed functions -/

/-- The instructions with the offsets they begin at. -/
def offsets : Nat → List Instruction → List (Nat × Instruction)
  | _, [] => []
  | o, i :: is => (o, i) :: offsets (o + i.size) is

namespace Chunk

/-- From an offset on, the code decodes to these instructions and nothing is left. -/
inductive Decodes (w : Chunk) : Nat → List Instruction → Prop
  | done : Decodes w w.code.size []
  | next {o : Nat} {i : Instruction} {is : List Instruction} : w.decode o = .ok i →
      Decodes w (o + i.size) is → Decodes w o (i :: is)

/-- The layout of a chunk whose closures have this many captured variables. -/
structure WellFormed (w : Chunk) (upvalues : Nat) : Prop where
  /-- The code is a sequence of instructions, of which the last two return nil.  Each of them is
  followed by instructions of the sequence, and its bytes carry one line. -/
  code : ∃ is, w.Decodes 0 (is ++ [⟨.loadNil, 0⟩, ⟨.ret, 0⟩]) ∧
    ∀ o i, (o, i) ∈ offsets 0 (is ++ [⟨.loadNil, 0⟩, ⟨.ret, 0⟩]) →
      i.InRange w upvalues (o + i.size) ∧
      (∀ t ∈ i.successors (o + i.size),
        ∃ j, (t, j) ∈ offsets 0 (is ++ [⟨.loadNil, 0⟩, ⟨.ret, 0⟩])) ∧
      ∀ k < i.size, w.lines[o + k]? = w.lines[o]?
  lines : w.lines.size = w.code.size
  constants : w.constants.items.toList.Nodup
  strings : w.strings.items.toList.Nodup

end Chunk

/-- The function and all functions in it are well formed. -/
inductive Prototype.WellFormed : Prototype → Prop
  | mk {p : Prototype} {w : Chunk} {arity : Nat} : p.chunk = some w → p.arity = arity →
      arity ≤ 255 → p.captures.size ≤ 256 → p.captures.toList.Nodup →
      w.WellFormed p.captures.size → (∀ f ∈ w.functions, WellFormed f) → WellFormed p

/-! ## Balanced functions -/

namespace Chunk

/-- The instruction at the offset can be reached from the beginning of the code. -/
inductive Reaches (w : Chunk) : Nat → Prop
  | start : Reaches w 0
  | step {o t : Nat} {i : Instruction} : Reaches w o → w.decode o = .ok i →
      t ∈ i.successors (o + i.size) → Reaches w t

/-- The heights of a chunk of a function with this many parameters, from the base of the call on,
where the callee and the arguments are. -/
structure Balanced (w : Chunk) (arity : Nat) (height : Nat → Nat) : Prop where
  start : height 0 = arity + 1
  decodes : ∀ {o}, w.Reaches o → ∃ i, w.decode o = .ok i
  step : ∀ {o i t}, w.Reaches o → w.decode o = .ok i → t ∈ i.successors (o + i.size) →
    height t + i.takes = height o + i.gives
  /-- What is taken lies above the arguments. -/
  floor : ∀ {o i}, w.Reaches o → w.decode o = .ok i → arity + 1 + i.takes ≤ height o
  returns : ∀ {o n}, w.Reaches o → w.decode o = .ok ⟨.ret, n⟩ → arity + 2 ≤ height o
  calls : ∀ {o n}, w.Reaches o → w.decode o = .ok ⟨.call, n⟩ → arity + n + 2 ≤ height o
  locals : ∀ {o i}, w.Reaches o → w.decode o = .ok i →
    i.opcode = .getLocal ∨ i.opcode = .setLocal → 1 ≤ i.operand ∧ i.operand ≤ height o - 1
  /-- A captured slot is above the callee and below the closure being made.  It can be the slot of
  that closure itself, if the closure stays there as a local. -/
  captures : ∀ {o n}, w.Reaches o → w.decode o = .ok ⟨.closure, n⟩ →
    ∃ p, w.functions[n]? = some p ∧ ∀ c ∈ p.captures, c.isLocal = true →
      1 ≤ c.index ∧ c.index ≤ height o ∧
      (c.index = height o → ∀ j, w.decode (o + 3) = .ok j → j.opcode ≠ .defineGlobal)

end Chunk

namespace Chunk

variable {w : Chunk} {o : Nat}

/-- An instruction begins at the offset when the code is decoded from its beginning. -/
def IsStart (w : Chunk) (o : Nat) : Prop :=
  ∃ is i, w.Decodes 0 is ∧ (o, i) ∈ offsets 0 is

lemma Decodes.decode_eq {t : Nat} {i : Instruction} {is : List Instruction} (h : w.Decodes o is)
    (hi : (t, i) ∈ offsets o is) : w.decode t = .ok i := by
  induction h with
  | done => cases hi
  | next hdecode _ ih =>
    rcases List.mem_cons.1 hi with heq | hi
    · cases heq
      exact hdecode
    · exact ih hi

lemma lt_of_decode {i : Instruction} (h : w.decode o = .ok i) : o < w.code.size := by
  unfold decode readByte at h
  by_contra hout
  rw [Array.getElem?_eq_none (Nat.not_lt.1 hout)] at h
  cases h

/-- Control stays in a sequence of instructions that is closed under successors. -/
lemma Reaches.mem_offsets {is : List Instruction} (ho : w.Reaches o) (hdecodes : w.Decodes 0 is)
    (hnonempty : is ≠ []) (hclosed : ∀ o i, (o, i) ∈ offsets 0 is →
      ∀ t ∈ i.successors (o + i.size), ∃ j, (t, j) ∈ offsets 0 is) :
    ∃ i, (o, i) ∈ offsets 0 is := by
  induction ho with
  | start =>
    cases is with
    | nil => exact absurd rfl hnonempty
    | cons i is => exact ⟨i, List.mem_cons_self⟩
  | step _ hi ht ih =>
    obtain ⟨j, hj⟩ := ih
    rw [hdecodes.decode_eq hj, Except.ok.injEq] at hi
    subst hi
    exact hclosed _ j hj _ ht

/-- Control stays at the beginnings of instructions. -/
lemma WellFormed.isStart {upvalues : Nat} (h : w.WellFormed upvalues) (ho : w.Reaches o) :
    w.IsStart o := by
  obtain ⟨is, hdecodes, hall⟩ := h.code
  obtain ⟨i, hi⟩ := ho.mem_offsets hdecodes (by simp) fun o i hi => (hall o i hi).2.1
  exact ⟨_, i, hdecodes, hi⟩

/-- The byte before the next instruction has the line of the opcode. -/
lemma WellFormed.lineAt {upvalues : Nat} {i : Instruction} (h : w.WellFormed upvalues)
    (ho : w.Reaches o) (hi : w.decode o = .ok i) :
    w.lines[o]? = some (w.lineAt (o + i.size - 1)) := by
  obtain ⟨is, hdecodes, hall⟩ := h.code
  obtain ⟨j, hj⟩ := ho.mem_offsets hdecodes (by simp) fun o i hi => (hall o i hi).2.1
  obtain rfl : j = i := by simpa [hdecodes.decode_eq hj] using hi
  have hpos := j.size_pos
  have hline := (hall o j hj).2.2 (j.size - 1) (by omega)
  rw [← Nat.add_sub_assoc hpos] at hline
  have hwithin : o < w.lines.size := by
    rw [h.lines]
    exact lt_of_decode hi
  rw [Chunk.lineAt, hline, Array.getElem?_eq_getElem hwithin]

/-- The code determines the heights. -/
lemma Balanced.height_eq {arity : Nat} {height height' : Nat → Nat} (h : w.Balanced arity height)
    (h' : w.Balanced arity height') (ho : w.Reaches o) : height' o = height o := by
  induction ho with
  | start => rw [h.start, h'.start]
  | step ho hi ht ih =>
    have hstep := h.step ho hi ht
    have hstep' := h'.step ho hi ht
    omega

/-- Behind a call there is its result where callee and arguments were. -/
lemma Balanced.behind_call {arity n : Nat} {height : Nat → Nat} (h : w.Balanced arity height)
    (ho : w.Reaches o) (hi : w.decode o = .ok ⟨.call, n⟩) :
    w.Reaches (o + (Instruction.mk .call n).size) ∧
      height (o + (Instruction.mk .call n).size) + n = height o ∧
      arity + 2 ≤ height (o + (Instruction.mk .call n).size) := by
  have hnext : o + (Instruction.mk .call n).size ∈
      (Instruction.mk .call n).successors (o + (Instruction.mk .call n).size) :=
    List.mem_cons_self
  have hstep : _ + (n + 1) = height o + 1 := h.step ho hi hnext
  have hcalls := h.calls ho hi
  exact ⟨ho.step hi hnext, by omega, by omega⟩

end Chunk

/-- The function and all functions in it are balanced. -/
inductive Prototype.Balanced : Prototype → Prop
  | mk {p : Prototype} {w : Chunk} {arity : Nat} {height : Nat → Nat} : p.chunk = some w →
      p.arity = arity → w.Balanced arity height → (∀ f ∈ w.functions, Balanced f) → Balanced p

/-! ## Charts -/

/-- An instruction of a chunk with the height of the stack before it. -/
structure Place where
  offset : Nat
  instruction : Instruction
  height : Nat

/-- The offset behind a place. -/
def Place.next (q : Place) : Nat :=
  q.offset + q.instruction.size

/-- Not the definition of a global. -/
def Instruction.Plain (i : Instruction) : Prop :=
  i.opcode ≠ .defineGlobal

/-- The closure made by an instruction that is followed by `j` can get at its captured slots where
the stack has this height. -/
def Prototype.Attaches (p : Prototype) (height : Nat) (j : Instruction) : Prop :=
  ∀ c ∈ p.captures, c.isLocal = true → 0 < c.index ∧ c.index ≤ height ∧ (c.index = height → j.Plain)

/-- The instruction at a place is in order, and each of its successors is one of the places in
`B` and has the height it leaves. -/
structure Place.Leads (w : Chunk) (upvalues arity : Nat) (B : Place → Prop) (q : Place) : Prop where
  encodable : q.instruction.Encodable
  inRange : q.instruction.InRange w upvalues q.next
  floor : arity + 1 + q.instruction.takes ≤ q.height
  locals : q.instruction.opcode = .getLocal ∨ q.instruction.opcode = .setLocal →
    0 < q.instruction.operand ∧ q.instruction.operand < q.height
  captures : q.instruction.opcode = .closure → ∃ p j, w.functions[q.instruction.operand]? = some p ∧
    p.Attaches q.height j ∧ B ⟨q.next, j, q.height + 1⟩
  leads : ∀ t ∈ q.instruction.successors q.next,
    ∃ j, B ⟨t, j, q.height - q.instruction.takes + q.instruction.gives⟩

/-- Instructions with their source lines and with the heights before them. -/
abbrev Chart := List ((Instruction × UInt32) × Nat)

namespace Chart

/-- The code that is charted. -/
def code (a : Chart) : Code :=
  a.map Prod.fst

/-- The places of a chart that begins at an offset. -/
def places : Nat → Chart → List Place
  | _, [] => []
  | o, ((i, _), h) :: a => ⟨o, i, h⟩ :: places (o + i.size) a

@[simp] lemma code_nil : code [] = [] := rfl

@[simp] lemma code_cons (i : Instruction × UInt32) (h : Nat) (a : Chart) :
    code ((i, h) :: a) = i :: a.code := rfl

@[simp] lemma code_append (a b : Chart) : code (a ++ b) = a.code ++ b.code := by
  simp [code]

@[simp] lemma places_nil (o : Nat) : places o [] = [] := rfl

@[simp] lemma places_cons (o : Nat) (i : Instruction) (line : UInt32) (h : Nat) (a : Chart) :
    places o (((i, line), h) :: a) = ⟨o, i, h⟩ :: places (o + i.size) a := rfl

@[simp] lemma places_append (o : Nat) (a b : Chart) :
    places o (a ++ b) = places o a ++ places (o + a.code.size) b := by
  induction a generalizing o with
  | nil => simp
  | cons x a ih =>
    obtain ⟨⟨i, line⟩, h⟩ := x
    simp [ih, Nat.add_assoc]

/-- The places of a chart follow one another. -/
lemma offset_places {o : Nat} {a : Chart} {q : Place} (hq : q ∈ a.places o) :
    o ≤ q.offset ∧ q.next ≤ o + a.code.size := by
  induction a generalizing o with
  | nil => simp at hq
  | cons x a ih =>
    obtain ⟨⟨i, line⟩, h⟩ := x
    rw [places_cons] at hq
    rw [code_cons, Code.size_cons]
    dsimp only
    rcases List.mem_cons.1 hq with rfl | hq
    · dsimp only [Place.next]
      omega
    · have hrest := ih hq
      omega

/-- At each offset there is one place at most. -/
lemma eq_of_offset_eq {o : Nat} {a : Chart} {q q' : Place} (hq : q ∈ a.places o)
    (hq' : q' ∈ a.places o) (h : q.offset = q'.offset) : q = q' := by
  induction a generalizing o with
  | nil => simp at hq
  | cons x a ih =>
    obtain ⟨⟨i, line⟩, k⟩ := x
    have hpos := i.size_pos
    rw [places_cons] at hq hq'
    rcases List.mem_cons.1 hq with rfl | hq
    · rcases List.mem_cons.1 hq' with rfl | hq'
      · rfl
      · have hrest := (offset_places hq').1
        dsimp only at h
        omega
    · rcases List.mem_cons.1 hq' with rfl | hq'
      · have hrest := (offset_places hq).1
        dsimp only at h
        omega
      · exact ih hq hq'

/-- The height of the place at an offset. -/
def heightAt (a : Chart) (o : Nat) : Nat :=
  ((a.places 0).find? fun q => q.offset = o).elim 0 Place.height

lemma heightAt_eq {a : Chart} {q : Place} (hq : q ∈ a.places 0) : a.heightAt q.offset = q.height := by
  rw [heightAt]
  cases hfind : (a.places 0).find? fun q' => q'.offset = q.offset with
  | none => exact absurd (List.find?_eq_none.1 hfind q hq) (by simp)
  | some q' =>
    have hsame : q'.offset = q.offset := by simpa using List.find?_some hfind
    rw [eq_of_offset_eq (List.mem_of_find?_eq_some hfind) hq hsame]
    rfl

/-! ## What a chart says of the code -/

section Checked

variable {w : Chunk} {upvalues arity : Nat} {a : Chart}

/-- A place holds the instruction that is decoded there. -/
lemma decode_places {o : Nat} (hcode : w.Holds o a.code)
    (hencodable : ∀ q ∈ a.places o, q.instruction.Encodable) :
    ∀ q ∈ a.places o, w.decode q.offset = .ok q.instruction := by
  induction a generalizing o with
  | nil => simp
  | cons x a ih =>
    obtain ⟨⟨i, line⟩, h⟩ := x
    obtain ⟨hi, hrest⟩ := Chunk.holds_cons.1 hcode
    rw [places_cons, List.forall_mem_cons] at hencodable ⊢
    exact ⟨hi.decode hencodable.1, ih hrest hencodable.2⟩

/-- Decoding finds the instructions of the chart. -/
lemma decodes {o : Nat} (hdecode : ∀ q ∈ a.places o, w.decode q.offset = .ok q.instruction)
    (hsize : o + a.code.size = w.code.size) : w.Decodes o (a.code.map Prod.fst) := by
  induction a generalizing o with
  | nil =>
    have hend : o = w.code.size := by simpa using hsize
    subst hend
    exact .done
  | cons x a ih =>
    obtain ⟨⟨i, line⟩, h⟩ := x
    rw [places_cons, List.forall_mem_cons] at hdecode
    refine .next hdecode.1 (ih hdecode.2 ?_)
    rwa [code_cons, Code.size_cons, ← Nat.add_assoc] at hsize

lemma mem_offsets {o t : Nat} {i : Instruction} :
    (t, i) ∈ offsets o (a.code.map Prod.fst) ↔ ∃ h, ⟨t, i, h⟩ ∈ a.places o := by
  induction a generalizing o with
  | nil => simp [offsets]
  | cons x a ih =>
    obtain ⟨⟨i', line⟩, h⟩ := x
    simp only [code_cons, List.map_cons, offsets, places_cons, List.mem_cons, ih, Prod.mk.injEq,
      Place.mk.injEq]
    constructor
    · rintro (⟨rfl, rfl⟩ | ⟨k, hk⟩)
      · exact ⟨h, .inl ⟨rfl, rfl, rfl⟩⟩
      · exact ⟨k, .inr hk⟩
    · rintro ⟨k, ⟨rfl, rfl, -⟩ | hk⟩
      · exact .inl ⟨rfl, rfl⟩
      · exact .inr ⟨k, hk⟩

/-- The bytes of an instruction carry one line. -/
lemma lines_places (before : List UInt32) {q : Place} (hq : q ∈ a.places before.length) :
    ∃ line, ∀ k < q.instruction.size, (before ++ a.code.lines)[q.offset + k]? = some line := by
  induction a generalizing before with
  | nil => simp at hq
  | cons x a ih =>
    obtain ⟨⟨i, line⟩, h⟩ := x
    rw [places_cons] at hq
    rw [code_cons, Code.lines_cons]
    rcases List.mem_cons.1 hq with rfl | hq
    · refine ⟨line, fun k hk => ?_⟩
      change k < i.size at hk
      rw [List.getElem?_append_right (Nat.le_add_right _ _), Nat.add_sub_cancel_left,
        List.getElem?_append_left (by simpa using hk)]
      simp [hk]
    · rw [← List.append_assoc]
      exact ih _ (by simpa using hq)

variable (hcode : w.code.toList = a.code.bytes)
  (hleads : ∀ q ∈ a.places 0, q.Leads w upvalues arity (· ∈ a.places 0))

include hcode hleads

lemma decode_of_leads : ∀ q ∈ a.places 0, w.decode q.offset = .ok q.instruction :=
  decode_places ⟨[], [], by simpa using hcode, rfl⟩ fun q hq => (hleads q hq).encodable

/-- A chart that checks shows the layout of the code. -/
lemma wellFormed (hlines : w.lines.toList = a.code.lines) {before : Code} {line : UInt32}
    (hend : a.code = before ++ [(⟨.loadNil, 0⟩, line), (⟨.ret, 0⟩, line)])
    (hconstants : w.constants.items.toList.Nodup) (hstrings : w.strings.items.toList.Nodup) :
    w.WellFormed upvalues where
  code := by
    have hlist : a.code.map Prod.fst = before.map Prod.fst ++ [⟨.loadNil, 0⟩, ⟨.ret, 0⟩] := by
      simp [hend]
    refine ⟨before.map Prod.fst, ?_⟩
    rw [← hlist]
    refine ⟨decodes (decode_of_leads hcode hleads) ?_, fun o i hi => ?_⟩
    · rw [← Array.length_toList, hcode, Code.length_bytes, Nat.zero_add]
    · obtain ⟨h, hq⟩ := mem_offsets.1 hi
      have hplace := hleads _ hq
      refine ⟨hplace.inRange, fun t ht => ?_, fun k hk => ?_⟩
      · obtain ⟨j, hj⟩ := hplace.leads t ht
        exact ⟨j, mem_offsets.2 ⟨_, hj⟩⟩
      · obtain ⟨line, hline⟩ := lines_places [] hq
        rw [List.nil_append, ← hlines] at hline
        have hfirst := hline 0 i.size_pos
        rw [Nat.add_zero, Array.getElem?_toList] at hfirst
        have hbyte := hline k hk
        rw [Array.getElem?_toList] at hbyte
        exact hbyte.trans hfirst.symm
  lines := by
    rw [← Array.length_toList, ← Array.length_toList, hlines, hcode, Code.length_lines,
      Code.length_bytes]
  constants := hconstants
  strings := hstrings

/-- Control stays on the chart. -/
lemma exists_place (hstart : ∃ i, ⟨0, i, arity + 1⟩ ∈ a.places 0) {o : Nat} (ho : w.Reaches o) :
    ∃ i, w.decode o = .ok i ∧ ⟨o, i, a.heightAt o⟩ ∈ a.places 0 := by
  have hdecode := decode_of_leads hcode hleads
  have hplace : ∃ q ∈ a.places 0, q.offset = o := by
    induction ho with
    | start =>
      obtain ⟨i, hi⟩ := hstart
      exact ⟨_, hi, rfl⟩
    | step _ hi ht ih =>
      obtain ⟨q, hq, rfl⟩ := ih
      rw [hdecode q hq, Except.ok.injEq] at hi
      subst hi
      obtain ⟨j, hj⟩ := (hleads q hq).leads _ ht
      exact ⟨_, hj, rfl⟩
  obtain ⟨q, hq, rfl⟩ := hplace
  refine ⟨q.instruction, hdecode q hq, ?_⟩
  rw [heightAt_eq hq]
  exact hq

/-- A chart that checks gives the heights of the code. -/
lemma balanced (hstart : ∃ i, ⟨0, i, arity + 1⟩ ∈ a.places 0) : w.Balanced arity a.heightAt := by
  have hplace : ∀ {o i}, w.Reaches o → w.decode o = .ok i →
      Place.Leads w upvalues arity (· ∈ a.places 0) ⟨o, i, a.heightAt o⟩ := by
    intro o i ho hi
    obtain ⟨i', hi', hq⟩ := exists_place hcode hleads hstart ho
    rw [hi', Except.ok.injEq] at hi
    subst hi
    exact hleads _ hq
  constructor
  case start =>
    obtain ⟨i, hi⟩ := hstart
    exact heightAt_eq hi
  case decodes =>
    intro o ho
    obtain ⟨i, hi, -⟩ := exists_place hcode hleads hstart ho
    exact ⟨i, hi⟩
  case step =>
    intro o i t ho hi ht
    have hfloor := (hplace ho hi).floor
    obtain ⟨j, hj⟩ := (hplace ho hi).leads t ht
    have hheight := heightAt_eq hj
    dsimp only at hfloor hheight
    omega
  case floor =>
    intro o i ho hi
    exact (hplace ho hi).floor
  case returns =>
    intro o n ho hi
    exact (hplace ho hi).floor
  case calls =>
    intro o n ho hi
    have hfloor := (hplace ho hi).floor
    dsimp only [Instruction.takes] at hfloor
    omega
  case locals =>
    intro o i ho hi hlocal
    obtain ⟨hpos, hlt⟩ := (hplace ho hi).locals hlocal
    dsimp only at hpos hlt
    omega
  case captures =>
    intro o n ho hi
    obtain ⟨p, j, hp, hattaches, hj⟩ := (hplace ho hi).captures rfl
    refine ⟨p, hp, fun c hc hlocal => ?_⟩
    obtain ⟨hpos, hle, hself⟩ := hattaches c hc hlocal
    refine ⟨hpos, hle, fun heq j' hj' => ?_⟩
    have hnext : w.decode (o + 3) = .ok j := decode_of_leads hcode hleads _ hj
    rw [hnext, Except.ok.injEq] at hj'
    exact hj' ▸ hself heq

end Checked

end Chart

end Lox
