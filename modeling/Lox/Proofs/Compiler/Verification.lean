import Lox.Proofs.Compiler.Linking

/-!
# Compiled code is verified

The code a tree has can be run on stacks of the shape that its context prescribes: one value for
each local, and whatever is being computed on top of them.  For expressions this is
`Expr.Emits.runs`.  For statements it is `Verifies`, which is stated backwards: if the code behind
a statement can be run on the locals after it, then the statement can be run on the locals before
it.  Backwards is the right direction because only at the end of a block is it known which of its
locals were captured in between.

The finished function of a script is verified with everything in it
(`Stmt.Emits.verified_script`).
-/

namespace Lox

namespace Compiler

open FunctionScope

/-! ## The finished chunk -/

/-- What was gathered for the function so far is part of the finished chunk, whose closures have
this many captured variables. -/
structure FunctionScope.Fits (f : FunctionScope) (w : Chunk) (upvalues : Nat) : Prop where
  captures : f.captures.size ≤ upvalues
  constants : f.chunk.constants.items.toList <+: w.constants.items.toList
  strings : f.chunk.strings.items.toList <+: w.strings.items.toList
  functions : f.chunk.functions.toList <+: w.functions.toList

lemma FunctionScope.Widens.fits {f f' : FunctionScope} {w : Chunk} {upvalues : Nat}
    (h : f.Widens f') (hfits : f'.Fits w upvalues) : f.Fits w upvalues where
  captures := Nat.le_trans (by simpa using h.captures.length_le) hfits.captures
  constants := h.constants.trans hfits.constants
  strings := h.strings.trans hfits.strings
  functions := h.functions.trans hfits.functions

/-- The chunk that has the function's pools and some code. -/
lemma FunctionScope.fits_append (f : FunctionScope) (c : Code) :
    f.Fits (f.chunk.append c) f.captures.size :=
  ⟨Nat.le_refl _, List.prefix_refl _, List.prefix_refl _, List.prefix_refl _⟩

lemma FunctionScope.Sound.holds_append {f : FunctionScope} (h : f.Sound) (c : Code) :
    (f.chunk.append c).Holds 0 c := by
  refine ⟨[], [], ?_, rfl⟩
  simp [Chunk.append, h.code]

namespace Context

variable {w : Chunk} {upvalues : Nat}

lemma addConstant_lt {g : Context} {bits : UInt64} (hg : g.Sound)
    (hfits : (g.addConstant bits).2.scope.Fits w upvalues) :
    (g.addConstant bits).1 < w.constants.size := by
  have hlt := Pool.add_lt hg.scope.constants bits
  exact Nat.lt_of_lt_of_le hlt hfits.constants.length_le

lemma addString_lt {g : Context} {t : Text} (hg : g.Sound)
    (hfits : (g.addString t).2.scope.Fits w upvalues) : (g.addString t).1 < w.strings.size := by
  have hlt := Pool.add_lt hg.scope.strings t
  exact Nat.lt_of_lt_of_le hlt hfits.strings.length_le

/-- Every local that can be read is one of the first `m` slots. -/
def Within (g : Context) (m : Nat) : Prop :=
  ∀ slot l, g.scope.locals.reverse[slot]? = some l → l.depth.isSome → slot < m

lemma Within.grows {g g' : Context} {m : Nat} (h : g.Within m) (hgrows : g.Grows g') :
    g'.Within m := by
  intro slot l' hl' hdepth
  have hrev : List.Forall₂ Local.Grows g.scope.locals.reverse g'.scope.locals.reverse :=
    List.rel_reverse hgrows.scope.locals
  obtain ⟨hlt', rfl⟩ := List.getElem?_eq_some_iff.1 hl'
  have hlt : slot < g.scope.locals.reverse.length := hrev.length_eq ▸ hlt'
  have hsame : (g'.scope.locals.reverse[slot]).depth = (g.scope.locals.reverse[slot]).depth :=
    (hrev.get hlt hlt').depth
  exact h slot _ (List.getElem?_eq_getElem hlt) (hsame ▸ hdepth)

lemma Within.mono {g : Context} {m n : Nat} (h : g.Within m) (hmn : m ≤ n) : g.Within n :=
  fun slot l hl hdepth => Nat.lt_of_lt_of_le (h slot l hl hdepth) hmn

lemma within_length (g : Context) : g.Within g.scope.locals.length :=
  fun _ _ hl _ => slot_lt hl

/-- The local being declared cannot be read. -/
lemma within_declare (g : Context) (name : Text) : (g.declare name).Within g.scope.locals.length := by
  intro slot l hl hdepth
  have hlt := slot_lt hl
  simp only [declare, List.length_cons] at hlt
  by_contra hge
  have hslot : slot = g.scope.locals.length := by omega
  subst hslot
  simp only [declare, List.reverse_cons, List.getElem?_append_right, List.length_reverse, Nat.le_refl,
    Nat.sub_self, List.getElem?_cons_zero, Option.some.injEq] at hl
  subst hl
  simp at hdepth

/-- The limits on variables keep operands encodable. -/
lemma Resolves.operand_le {g g' : Context} {name : Text} {a : Access} (h : g.Resolves name a g')
    (hg : g.Sound) : a.operand ≤ Chunk.maxShort := by
  have hshort : Chunk.maxShort = 65535 := rfl
  cases h with
  | @ofLocal slot l hfind hdepth =>
    have hlt := slot_lt (findLocal_eq_some hfind)
    have hmax : g.scope.locals.length ≤ 256 := hg.scope.locals
    simp only [hshort]
    omega
  | @ofCapture i scope enclosing _ hcapture =>
    obtain ⟨-, hroom, hi⟩ := capture?_linked hcapture hg.linked
      fun f hf => (hg.functions f hf).captures
    have hmax : scope.captures.size ≤ 256 := hroom scope List.mem_cons_self
    simp only [hshort]
    omega
  | ofGlobal _ _ hmax => exact hmax

/-- How a variable is reached leads to a variable. -/
lemma Resolves.allows {g g' : Context} {name : Text} {a : Access} {s : Shape} {next : Nat}
    {goOn : Nat → Shape → Prop} (h : g.Resolves name a g') (hg : g.Sound)
    (hfits : g'.scope.Fits w upvalues) (hwithin : g.Within s.length) :
    (goOn next (false :: s) → Instruction.Allows w upvalues next goOn ⟨a.read, a.operand⟩ s) ∧
      (s ≠ [] → goOn next s → Instruction.Allows w upvalues next goOn ⟨a.write, a.operand⟩ s) := by
  cases h with
  | @ofLocal slot l hfind hdepth =>
    have hlt := hwithin slot l (findLocal_eq_some hfind) hdepth
    exact ⟨fun h => ⟨hlt, h⟩, fun _ h => ⟨hlt, h⟩⟩
  | @ofCapture i scope enclosing _ hcapture =>
    obtain ⟨-, -, hi⟩ := capture?_linked hcapture hg.linked
      fun f hf => (hg.functions f hf).captures
    have hlt : i < upvalues := Nat.lt_of_lt_of_le hi hfits.captures
    exact ⟨fun h => ⟨hlt, h⟩, fun hne h => ⟨hlt, hne, h⟩⟩
  | ofGlobal =>
    have hlt := addString_lt hg hfits
    exact ⟨fun h => ⟨hlt, h⟩, fun hne h => ⟨hlt, hne, h⟩⟩

end Context

end Compiler

open Compiler

/-! ## Expressions -/

lemma Instruction.encodable_of_width {op : Opcode} (h : op.operandWidth = 0) :
    Instruction.Encodable ⟨op, 0⟩ := by
  simp [Instruction.Encodable, h]

lemma Instruction.encodable_of_short {op : Opcode} {n : Nat} (h : op.operandWidth = 2)
    (hn : n ≤ Chunk.maxShort) : Instruction.Encodable ⟨op, n⟩ := by
  simp [Instruction.Encodable, h, hn]

namespace Chunk

variable {w : Chunk} {upvalues n o : Nat} {a : Shape} {line : UInt32}

/-- An instruction without operand that is followed by other code. -/
lemma Runs.plain {op : Opcode} (hcode : w.Holds o [(⟨op, 0⟩, line)]) (hwidth : op.operandWidth = 0)
    (h : ∀ m < n, Instruction.Allows w upvalues (o + 1) (w.Runs upvalues m) ⟨op, 0⟩ a) :
    w.Runs upvalues n o a := by
  refine .of_allows hcode (Instruction.encodable_of_width hwidth) fun m hm => ?_
  have hsize : Instruction.size ⟨op, 0⟩ = 1 := by simp [Instruction.size, Opcode.size, hwidth]
  rw [hsize]
  exact h m hm

/-- An instruction with an operand of two bytes. -/
lemma Runs.short {op : Opcode} {k : Nat} (hcode : w.Holds o [(⟨op, k⟩, line)])
    (hwidth : op.operandWidth = 2) (hk : k ≤ maxShort)
    (h : ∀ m < n, Instruction.Allows w upvalues (o + 3) (w.Runs upvalues m) ⟨op, k⟩ a) :
    w.Runs upvalues n o a := by
  refine .of_allows hcode (Instruction.encodable_of_short hwidth hk) fun m hm => ?_
  have hsize : Instruction.size ⟨op, k⟩ = 3 := by simp [Instruction.size, Opcode.size, hwidth]
  rw [hsize]
  exact h m hm

lemma Runs.pop (hcode : w.Holds o [(⟨.pop, 0⟩, line)]) (h : w.Runs upvalues n (o + 1) a) :
    w.Runs upvalues n o (false :: a) :=
  .plain hcode rfl fun _ hm => ⟨a, rfl, h.of_lt (Nat.le_of_lt hm)⟩

lemma Runs.jump {k : Nat} (hcode : w.Holds o [(⟨.jump, k⟩, line)]) (hk : k ≤ maxShort)
    (h : w.Runs upvalues n (o + 3 + k) a) : w.Runs upvalues n o a :=
  .short hcode rfl hk fun _ hm => h.of_lt (Nat.le_of_lt hm)

lemma Runs.jumpIfFalse {k : Nat} (hcode : w.Holds o [(⟨.jumpIfFalse, k⟩, line)])
    (hk : k ≤ maxShort) (ha : a ≠ []) (h : ∀ m < n, w.Runs upvalues m (o + 3) a)
    (h' : ∀ m < n, w.Runs upvalues m (o + 3 + k) a) : w.Runs upvalues n o a :=
  .short hcode rfl hk fun m hm => ⟨ha, h m hm, h' m hm⟩

lemma Runs.loop {k : Nat} (hcode : w.Holds o [(⟨.loop, k⟩, line)]) (hk : k ≤ maxShort)
    (hback : k ≤ o + 3) (h : ∀ m < n, w.Runs upvalues m (o + 3 - k) a) : w.Runs upvalues n o a :=
  .short hcode rfl hk fun m hm => ⟨hback, h m hm⟩

end Chunk

lemma Literal.operandWidth_opcode (l : Literal) : l.opcode.operandWidth = 0 := by
  cases l <;> rfl

lemma Literal.allows {w : Chunk} {upvalues next : Nat} {goOn : Nat → Shape → Prop} {a : Shape}
    (l : Literal) (h : goOn next (Bool.false :: a)) :
    Instruction.Allows w upvalues next goOn ⟨l.opcode, 0⟩ a := by
  cases l <;> exact h

lemma UnaryOperator.operandWidth_opcode (u : UnaryOperator) : u.opcode.operandWidth = 0 := by
  cases u <;> rfl

lemma UnaryOperator.allows {w : Chunk} {upvalues next : Nat} {goOn : Nat → Shape → Prop} {a : Shape}
    (u : UnaryOperator) (h : goOn next (false :: a)) :
    Instruction.Allows w upvalues next goOn ⟨u.opcode, 0⟩ (false :: a) := by
  cases u <;> exact ⟨a, rfl, h⟩

lemma BinaryOperator.operandWidth_opcode (b : BinaryOperator) : b.opcode.operandWidth = 0 := by
  cases b <;> rfl

lemma BinaryOperator.allows {w : Chunk} {upvalues next : Nat} {goOn : Nat → Shape → Prop}
    {a : Shape} (b : BinaryOperator) (h : goOn next (false :: a)) :
    Instruction.Allows w upvalues next goOn ⟨b.opcode, 0⟩ (false :: false :: a) := by
  cases b <;> exact ⟨a, rfl, h⟩

@[simp] lemma Instruction.size_pop (n : Nat) : Instruction.size ⟨.pop, n⟩ = 1 := rfl

@[simp] lemma Instruction.size_jump (n : Nat) : Instruction.size ⟨.jump, n⟩ = 3 := rfl

@[simp] lemma Instruction.size_jumpIfFalse (n : Nat) : Instruction.size ⟨.jumpIfFalse, n⟩ = 3 := rfl

@[simp] lemma Instruction.size_loop (n : Nat) : Instruction.size ⟨.loop, n⟩ = 3 := rfl

lemma Instruction.size_of_width {op : Opcode} {n k : Nat} (h : op.operandWidth = k) :
    Instruction.size ⟨op, n⟩ = 1 + k := by
  rw [Instruction.size, Opcode.size, h]

/-- The code of expressions can be run if the code behind it can be run with their values on the
stack. -/
theorem Expr.Emits.runs {g g' : Context} {es : List Expr} {c : Code} (h : Emits g es c g')
    {w : Chunk} {upvalues n o : Nat} {a : Shape} (hg : g.Sound)
    (hfits : g'.scope.Fits w upvalues) (hwithin : g.Within a.length) (hcode : w.Holds o c)
    (hnext : w.Runs upvalues n (o + c.size) (List.replicate es.length false ++ a)) :
    w.Runs upvalues n o a := by
  induction h generalizing n o a with
  | nil => simpa using hnext
  | @cons g g' g'' e e' es c d hfirst hrest ih ih' =>
    obtain ⟨hc, hd⟩ := Chunk.holds_append.1 hcode
    have hmid := hrest.grows.scope.toWidens.fits hfits
    refine ih hg hmid hwithin hc ?_
    refine ih' (hfirst.sound hg) hfits ((hwithin.grows hfirst.grows).mono (by simp)) hd ?_
    rw [Code.size_append, ← Nat.add_assoc] at hnext
    simpa [List.replicate_succ'] using hnext
  | @literal g l line =>
    refine .plain hcode l.operandWidth_opcode fun m hm => l.allows ?_
    simpa [Instruction.size_of_width l.operandWidth_opcode] using hnext.of_lt (Nat.le_of_lt hm)
  | number _ hmax =>
    exact .short hcode rfl hmax fun m hm =>
      ⟨Context.addConstant_lt hg hfits, hnext.of_lt (Nat.le_of_lt hm)⟩
  | string hmax =>
    exact .short hcode rfl hmax fun m hm =>
      ⟨Context.addString_lt hg hfits, hnext.of_lt (Nat.le_of_lt hm)⟩
  | @var g g' name access line hresolves =>
    have hwidth := hresolves.operandWidth.1
    refine .short hcode hwidth (hresolves.operand_le hg) fun m hm => ?_
    refine (hresolves.allows hg hfits hwithin).1 ?_
    simpa [Instruction.size_of_width hwidth] using hnext.of_lt (Nat.le_of_lt hm)
  | @assign g g' g'' name access e c line hresolves hvalue ih =>
    obtain ⟨hc, hset⟩ := Chunk.holds_append.1 hcode
    have hwidth := hresolves.operandWidth.2
    have hmid := hvalue.grows.scope.toWidens.fits hfits
    have hwithin' : g.Within (false :: a).length := hwithin.mono (by simp)
    refine ih (hresolves.sound hg) hfits (hwithin.grows hresolves.grows) hc ?_
    refine .short hset hwidth (hresolves.operand_le hg) fun m hm => ?_
    refine (hresolves.allows hg hmid hwithin').2 (by simp) ?_
    rw [Code.size_append, ← Nat.add_assoc] at hnext
    simpa [Instruction.size_of_width hwidth] using hnext.of_lt (Nat.le_of_lt hm)
  | @unary g g' u e c line hoperand ih =>
    obtain ⟨hc, hop⟩ := Chunk.holds_append.1 hcode
    refine ih hg hfits hwithin hc ?_
    refine .plain hop u.operandWidth_opcode fun m hm => u.allows ?_
    rw [Code.size_append, ← Nat.add_assoc] at hnext
    simpa [Instruction.size_of_width u.operandWidth_opcode] using hnext.of_lt (Nat.le_of_lt hm)
  | @binary g g' g'' b l r c d line hleft hright ih ih' =>
    obtain ⟨hcd, hop⟩ := Chunk.holds_append.1 hcode
    obtain ⟨hc, hd⟩ := Chunk.holds_append.1 hcd
    refine ih hg (hright.grows.scope.toWidens.fits hfits) hwithin hc ?_
    refine ih' (hleft.sound hg) hfits ((hwithin.grows hleft.grows).mono (by simp)) hd ?_
    rw [Code.size_append, ← Nat.add_assoc] at hop
    refine .plain hop b.operandWidth_opcode fun m hm => b.allows ?_
    have hend := hnext.of_lt (Nat.le_of_lt hm)
    simpa [Instruction.size_of_width b.operandWidth_opcode, Nat.add_assoc] using hend
  | @and g g' g'' l r c d line line' hleft hright hmax ih ih' =>
    obtain ⟨hc, htail⟩ := Chunk.holds_append.1 hcode
    obtain ⟨hjump, htail⟩ := Chunk.holds_cons.1 htail
    obtain ⟨hpop, hd⟩ := Chunk.holds_cons.1 htail
    have hend : o + c.size + 3 + (1 + d.size) = o + Code.size (c ++
        (⟨.jumpIfFalse, 1 + d.size⟩, line) :: (⟨.pop, 0⟩, line') :: d) := by
      simp only [Code.size_append, Code.size_cons, Instruction.size_jumpIfFalse,
        Instruction.size_pop]
      omega
    rw [← hend] at hnext
    refine ih hg (hright.grows.scope.toWidens.fits hfits) hwithin hc ?_
    refine .jumpIfFalse hjump hmax (by simp) (fun m hm => ?_) fun m hm =>
      hnext.of_lt (Nat.le_of_lt hm)
    refine .pop hpop (ih' (hleft.sound hg) hfits (hwithin.grows hleft.grows) hd ?_)
    rw [Nat.add_assoc _ _ d.size]
    exact hnext.of_lt (Nat.le_of_lt hm)
  | @or g g' g'' l r c d line line' line'' hleft hright hmax ih ih' =>
    obtain ⟨hc, htail⟩ := Chunk.holds_append.1 hcode
    obtain ⟨hbranch, htail⟩ := Chunk.holds_cons.1 htail
    obtain ⟨hjump, htail⟩ := Chunk.holds_cons.1 htail
    obtain ⟨hpop, hd⟩ := Chunk.holds_cons.1 htail
    have hend : o + c.size + 3 + 3 + (1 + d.size) = o + Code.size (c ++
        (⟨.jumpIfFalse, 3⟩, line) :: (⟨.jump, 1 + d.size⟩, line') :: (⟨.pop, 0⟩, line'') :: d) := by
      simp only [Code.size_append, Code.size_cons, Instruction.size_jumpIfFalse,
        Instruction.size_jump, Instruction.size_pop]
      omega
    rw [← hend] at hnext
    refine ih hg (hright.grows.scope.toWidens.fits hfits) hwithin hc ?_
    refine .jumpIfFalse hbranch (by decide) (by simp) (fun m hm => ?_) fun m hm => ?_
    · exact .jump hjump hmax (hnext.of_lt (Nat.le_of_lt hm))
    · refine .pop hpop (ih' (hleft.sound hg) hfits (hwithin.grows hleft.grows) hd ?_)
      rw [Nat.add_assoc _ _ d.size]
      exact hnext.of_lt (Nat.le_of_lt hm)
  | @call g g' f args c line hall hmax ih =>
    obtain ⟨hc, hcall⟩ := Chunk.holds_append.1 hcode
    have hmax' : args.length < 256 := by
      have : maxArguments = 255 := rfl
      omega
    refine ih hg hfits hwithin hc (.of_allows hcall hmax' fun m hm => ⟨a, rfl, ?_⟩)
    rw [Code.size_append, ← Nat.add_assoc] at hnext
    exact hnext.of_lt (Nat.le_of_lt hm)

/-! ## Shapes of locals -/

/-- The lowest `k` slots. -/
def Shape.bottom (a : Shape) (k : Nat) : Shape :=
  a.drop (a.length - k)

namespace Shape

lemma bottom_append (a b : Shape) : Shape.bottom (a ++ b) b.length = b := by
  simp [bottom]

lemma bottom_cons (x : Bool) (a : Shape) : Shape.bottom (x :: a) a.length = a :=
  bottom_append [x] a

lemma bottom_length (a : Shape) : a.bottom a.length = a := by
  simp [bottom]

lemma length_bottom {a : Shape} {k : Nat} (h : k ≤ a.length) : (a.bottom k).length = k := by
  rw [bottom, List.length_drop]
  omega

lemma bottom_bottom {a : Shape} {j k : Nat} (hj : j ≤ k) (hk : k ≤ a.length) :
    (a.bottom k).bottom j = a.bottom j := by
  rw [bottom, length_bottom hk, bottom, List.drop_drop, bottom]
  congr 1
  omega

end Shape

namespace Compiler

/-- A stack with these locals on it, in which every captured one is taken for captured. -/
def Covers (a : Shape) (ls : List Local) : Prop :=
  List.Forall₂ (fun l x => l.captured → x = true) ls a

lemma Covers.length_eq {a : Shape} {ls : List Local} (h : Covers a ls) : ls.length = a.length :=
  List.Forall₂.length_eq h

lemma Covers.grows {a : Shape} {ls ls' : List Local} (h : Covers a ls')
    (hgrows : List.Forall₂ Local.Grows ls ls') : Covers a ls := by
  induction hgrows generalizing a with
  | nil => exact h
  | cons hl _ ih =>
    cases h with
    | cons hx hrest => exact .cons (hx ∘ hl.captured) (ih hrest)

lemma covers_captured (ls : List Local) : Covers (ls.map Local.captured) ls := by
  induction ls with
  | nil => exact .nil
  | cons l ls ih => exact .cons id ih

/-- A captured slot is taken for captured. -/
lemma Covers.flag?_of_captured {a : Shape} {ls : List Local} (h : Covers a ls) {slot : Nat}
    {l : Local} (hl : ls.reverse[slot]? = some l) (hcaptured : l.captured) :
    a.flag? slot = some true := by
  have hrev : List.Forall₂ (fun l x => l.captured → x = true) ls.reverse a.reverse :=
    List.rel_reverse h
  obtain ⟨hlt, rfl⟩ := List.getElem?_eq_some_iff.1 hl
  have hlt' : slot < a.reverse.length := hrev.length_eq ▸ hlt
  rw [Shape.flag?, List.getElem?_eq_getElem hlt']
  exact congrArg some (hrev.get hlt hlt' hcaptured)

namespace Context

/-- The locals that were there before are at the bottom. -/
lemma Extends.covers {g g' : Context} {a : Shape} (h : g.Extends g')
    (ha : Covers a g'.scope.locals) :
    Covers (a.bottom g.scope.locals.length) g.scope.locals := by
  obtain ⟨new, old, hlocals, hold, -⟩ := h.locals
  have hlen := ha.length_eq
  rw [hlocals] at ha hlen
  have hdrop := List.forall₂_drop new.length ha
  rw [List.drop_left] at hdrop
  have hbottom : a.length - g.scope.locals.length = new.length := by
    rw [← hlen, List.length_append, hold.length_eq]
    omega
  rw [Shape.bottom, hbottom]
  exact Covers.grows hdrop hold

lemma Extends.length_le {g g' : Context} (h : g.Extends g') :
    g.scope.locals.length ≤ g'.scope.locals.length := by
  obtain ⟨new, old, hlocals, hold, -⟩ := h.locals
  rw [hlocals, List.length_append, hold.length_eq]
  omega

lemma Keeps.length_eq {g g' : Context} (h : g.Keeps g') :
    g.scope.locals.length = g'.scope.locals.length :=
  h.locals.length_eq

lemma Keeps.covers {g g' : Context} {a : Shape} (h : g.Keeps g') (ha : Covers a g'.scope.locals) :
    Covers a g.scope.locals :=
  Covers.grows ha h.locals

end Context

/-! ## Statements -/

/-- The code leads from the locals of the first context to those of the second: if the code
behind it can be run on the latter, then from its beginning on it can be run on the former. -/
structure Verifies (g : Context) (c : Code) (g' : Context) : Prop where
  runs : ∀ {w : Chunk} {upvalues n o : Nat} {a : Shape}, g'.scope.Fits w upvalues → w.Holds o c →
    Covers a g'.scope.locals → w.Runs upvalues n (o + c.size) a →
    w.Runs upvalues n o (a.bottom g.scope.locals.length)

/-- For code that keeps the locals, nothing is at the top. -/
lemma verifies_iff_of_keeps {g g' : Context} {c : Code} (h : g.Keeps g') :
    Verifies g c g' ↔ ∀ {w : Chunk} {upvalues n o : Nat} {a : Shape},
      g'.scope.Fits w upvalues → w.Holds o c → Covers a g'.scope.locals →
      w.Runs upvalues n (o + c.size) a → w.Runs upvalues n o a := by
  have hbottom : ∀ {a : Shape}, Covers a g'.scope.locals → a.bottom g.scope.locals.length = a := by
    intro a ha
    rw [h.length_eq, ha.length_eq, Shape.bottom_length]
  constructor
  · intro hverifies w upvalues n o a hfits hcode ha hnext
    have hruns := hverifies.runs hfits hcode ha hnext
    rwa [hbottom ha] at hruns
  · refine fun hruns => ⟨?_⟩
    intro w upvalues n o a hfits hcode ha hnext
    rw [hbottom ha]
    exact hruns hfits hcode ha hnext

lemma verifies_nil (g : Context) : Verifies g [] g := by
  constructor
  intro w upvalues n o a _ _ ha hnext
  rw [ha.length_eq, Shape.bottom_length]
  exact hnext

lemma Verifies.append {g g' g'' : Context} {c d : Code} (h : Verifies g c g')
    (h' : Verifies g' d g'') (hext : g.Extends g') (hext' : g'.Extends g'')
    (hwidens : g'.Widens g'') : Verifies g (c ++ d) g'' := by
  constructor
  intro w upvalues n o a hfits hcode ha hnext
  obtain ⟨hc, hd⟩ := Chunk.holds_append.1 hcode
  rw [Code.size_append, ← Nat.add_assoc] at hnext
  have hruns := h.runs (hwidens.scope.fits hfits) hc (hext'.covers ha) (h'.runs hfits hd ha hnext)
  rwa [Shape.bottom_bottom hext.length_le (ha.length_eq ▸ hext'.length_le)] at hruns

/-- An expression whose value the next instruction consumes. -/
lemma verifies_consume {g g' : Context} {e : Expr} {c : Code} {op : Opcode} {line : UInt32}
    (he : Expr.Emits g [e] c g') (hg : g.Sound) (hset : g.Settled) (hwidth : op.operandWidth = 0)
    (hop : ∀ {w : Chunk} {upvalues next : Nat} {goOn : Nat → Shape → Prop} {a : Shape},
      goOn next a → Instruction.Allows w upvalues next goOn ⟨op, 0⟩ (false :: a)) :
    Verifies g (c ++ [(⟨op, 0⟩, line)]) g' := by
  have hkeeps := Context.Keeps.of_grows hset he.grows
  rw [verifies_iff_of_keeps hkeeps]
  intro w upvalues n o a hfits hcode ha hnext
  obtain ⟨hc, hop'⟩ := Chunk.holds_append.1 hcode
  have hwithin : g.Within a.length := by
    rw [← ha.length_eq, ← hkeeps.length_eq]
    exact g.within_length
  refine he.runs hg hfits hwithin hc (.plain hop' hwidth fun m hm => hop ?_)
  rw [Code.size_append, ← Nat.add_assoc] at hnext
  simpa [Instruction.size_of_width hwidth] using hnext.of_lt (Nat.le_of_lt hm)

section Control

variable {g g₁ g₂ g₃ : Context} {e : Expr} {c d d' : Code} {l₁ l₂ l₃ l₄ : UInt32}

lemma verifies_branch (he : Expr.Emits g [e] c g₁) (hg : g.Sound) (hset : g.Settled)
    (hyes : Verifies g₁ d g₂) (hno : Verifies g₂ d' g₃) (hkeeps : g₁.Keeps g₂)
    (hkeeps' : g₂.Keeps g₃) (hwidens : g₁.Widens g₂) (hwidens' : g₂.Widens g₃)
    (hmax : d.size + 4 ≤ Chunk.maxShort) (hmax' : 1 + d'.size ≤ Chunk.maxShort) :
    Verifies g (c ++ (⟨.jumpIfFalse, d.size + 4⟩, l₁) :: (⟨.pop, 0⟩, l₂) :: d ++
      (⟨.jump, 1 + d'.size⟩, l₃) :: (⟨.pop, 0⟩, l₄) :: d') g₃ := by
  have hkeeps₁ := Context.Keeps.of_grows hset he.grows
  rw [verifies_iff_of_keeps hkeeps] at hyes
  rw [verifies_iff_of_keeps hkeeps'] at hno
  rw [verifies_iff_of_keeps (hkeeps₁.trans (hkeeps.trans hkeeps'))]
  intro w upvalues n o a hfits hcode ha hnext
  obtain ⟨hfirst, hsecond⟩ := Chunk.holds_append.1 hcode
  obtain ⟨hc, hfirst⟩ := Chunk.holds_append.1 hfirst
  obtain ⟨hbranch, hfirst⟩ := Chunk.holds_cons.1 hfirst
  obtain ⟨hpop, hd⟩ := Chunk.holds_cons.1 hfirst
  obtain ⟨hjump, hsecond⟩ := Chunk.holds_cons.1 hsecond
  obtain ⟨hpop', hd'⟩ := Chunk.holds_cons.1 hsecond
  simp only [Code.size_append, Code.size_cons, Instruction.size_jumpIfFalse, Instruction.size_jump,
    Instruction.size_pop] at hnext hjump hpop' hd' hd hpop
  have hfits₂ := hwidens'.scope.fits hfits
  have hfits₁ := hwidens.scope.fits hfits₂
  have hwithin : g.Within a.length := by
    rw [← ha.length_eq, ← (hkeeps₁.trans (hkeeps.trans hkeeps')).length_eq]
    exact g.within_length
  refine he.runs hg hfits₁ hwithin hc ?_
  refine .jumpIfFalse hbranch hmax (by simp) (fun m hm => ?_) fun m hm => ?_
  · refine .pop hpop (hyes hfits₂ hd (hkeeps'.covers ha) ?_)
    have hoffset : o + c.size + 3 + 1 + d.size = o + (c.size + (3 + (1 + d.size))) := by omega
    rw [hoffset]
    refine .jump hjump hmax' ?_
    have hend : o + (c.size + (3 + (1 + d.size))) + 3 + (1 + d'.size) =
        o + (c.size + (3 + (1 + d.size)) + (3 + (1 + d'.size))) := by omega
    rw [hend]
    exact hnext.of_lt (Nat.le_of_lt hm)
  · have hoffset : o + c.size + 3 + (d.size + 4) = o + (c.size + (3 + (1 + d.size))) + 3 := by omega
    rw [hoffset]
    refine .pop hpop' (hno hfits hd' ha ?_)
    have hend : o + (c.size + (3 + (1 + d.size))) + 3 + 1 + d'.size =
        o + (c.size + (3 + (1 + d.size)) + (3 + (1 + d'.size))) := by omega
    rw [hend]
    exact hnext.of_lt (Nat.le_of_lt hm)

lemma verifies_while (he : Expr.Emits g [e] c g₁) (hg : g.Sound) (hset : g.Settled)
    (hbody : Verifies g₁ d g₂) (hkeeps : g₁.Keeps g₂) (hwidens : g₁.Widens g₂)
    (hmax : d.size + 4 ≤ Chunk.maxShort) (hmax' : c.size + d.size + 7 ≤ Chunk.maxShort) :
    Verifies g (c ++ (⟨.jumpIfFalse, d.size + 4⟩, l₁) :: (⟨.pop, 0⟩, l₂) :: d ++
      [(⟨.loop, c.size + d.size + 7⟩, l₃), (⟨.pop, 0⟩, l₄)]) g₂ := by
  have hkeeps₁ := Context.Keeps.of_grows hset he.grows
  rw [verifies_iff_of_keeps hkeeps] at hbody
  rw [verifies_iff_of_keeps (hkeeps₁.trans hkeeps)]
  intro w upvalues n o a hfits hcode ha hnext
  obtain ⟨hfirst, hsecond⟩ := Chunk.holds_append.1 hcode
  obtain ⟨hc, hfirst⟩ := Chunk.holds_append.1 hfirst
  obtain ⟨hbranch, hfirst⟩ := Chunk.holds_cons.1 hfirst
  obtain ⟨hpop, hd⟩ := Chunk.holds_cons.1 hfirst
  obtain ⟨hloop, hpop'⟩ := Chunk.holds_cons.1 hsecond
  simp only [Code.size_append, Code.size_cons, Code.size_nil, Instruction.size_jumpIfFalse,
    Instruction.size_loop, Instruction.size_pop] at hnext hloop hpop' hd hpop
  have hfits₁ := hwidens.scope.fits hfits
  have hwithin : g.Within a.length := by
    rw [← ha.length_eq, ← (hkeeps₁.trans hkeeps).length_eq]
    exact g.within_length
  -- One round, given that fewer instructions can be run from the beginning of the loop.
  induction n using Nat.strongRecOn with
  | ind n ih =>
    refine he.runs hg hfits₁ hwithin hc ?_
    refine .jumpIfFalse hbranch hmax (by simp) (fun m hm => ?_) fun m hm => ?_
    · refine .pop hpop (hbody hfits hd ha ?_)
      have hoffset : o + c.size + 3 + 1 + d.size = o + (c.size + (3 + (1 + d.size))) := by omega
      rw [hoffset]
      refine .loop hloop hmax' (by omega) fun k hk => ?_
      have hstart : o + (c.size + (3 + (1 + d.size))) + 3 - (c.size + d.size + 7) = o := by omega
      rw [hstart]
      exact ih k (Nat.lt_trans hk hm) (hnext.of_lt (Nat.le_of_lt (Nat.lt_trans hk hm)))
    · have hoffset : o + c.size + 3 + (d.size + 4) = o + (c.size + (3 + (1 + d.size))) + 3 := by
        omega
      rw [hoffset]
      refine .pop hpop' ?_
      have hend : o + (c.size + (3 + (1 + d.size))) + 3 + 1 =
          o + (c.size + (3 + (1 + d.size)) + (3 + (1 + 0))) := by omega
      rw [hend]
      exact hnext.of_lt (Nat.le_of_lt hm)

end Control

end Compiler

namespace Expr

section Loop

variable {g g₁ : Context} {c : Code}

/-- The condition of a for loop leads into the loop, or with its value behind the loop. -/
lemma EmitsCondition.runs {condition : Option Expr} {after : Nat}
    (h : Expr.EmitsCondition g condition after c g₁) {w : Chunk} {upvalues n o : Nat} {a : Shape}
    (hg : g.Sound) (hfits : g₁.scope.Fits w upvalues) (hwithin : g.Within a.length)
    (hcode : w.Holds o c) (hin : w.Runs upvalues n (o + c.size) a)
    (hout : condition.isSome → ∀ m < n, w.Runs upvalues m (o + c.size + after) (false :: a)) :
    w.Runs upvalues n o a := by
  cases h with
  | none => exact hin
  | @some _ _ e c line line' he hmax =>
    obtain ⟨hc, htail⟩ := Chunk.holds_append.1 hcode
    obtain ⟨hjump, hpop⟩ := Chunk.holds_cons.1 htail
    simp only [Code.size_append, Code.size_cons, Code.size_nil, Instruction.size_jumpIfFalse,
      Instruction.size_pop] at hin hout hpop
    refine he.runs hg hfits hwithin hc ?_
    refine .jumpIfFalse hjump hmax (by simp) (fun m hm => .pop hpop ?_) fun m hm => ?_
    · exact hin.of_lt (Nat.le_of_lt hm)
    · have hend : o + c.size + 3 + (1 + after) = o + (c.size + (3 + (1 + 0))) + after := by omega
      rw [hend]
      exact hout rfl m hm

variable {increment : Option Expr} {before back : Nat}

lemma EmitsIncrement.back_le
    (h : Expr.EmitsIncrement g increment before c g₁ back) : back ≤ before + c.size := by
  cases h with
  | none => simp
  | some =>
    simp only [Code.size_append, Code.size_cons, Code.size_nil, Instruction.size_jump,
      Instruction.size_loop, Instruction.size_pop]
    omega

/-- The increment is skipped on the way to the body. -/
lemma EmitsIncrement.runs_over
    (h : Expr.EmitsIncrement g increment before c g₁ back) {w : Chunk} {upvalues n o : Nat}
    {a : Shape} (hcode : w.Holds o c) (hbody : w.Runs upvalues n (o + c.size) a) :
    w.Runs upvalues n o a := by
  cases h with
  | none => exact hbody
  | @some _ _ e c line line' line'' he hmax hmax' =>
    obtain ⟨hjump, -⟩ := Chunk.holds_cons.1 hcode
    refine .jump hjump hmax ?_
    simp only [Code.size_append, Code.size_cons, Code.size_nil, Instruction.size_jump,
      Instruction.size_loop, Instruction.size_pop] at hbody
    have hend : o + 3 + (c.size + 4) = o + (3 + c.size + (1 + (3 + 0))) := by omega
    rw [hend]
    exact hbody

/-- From where the body jumps back to, the increment leads to the condition. -/
lemma EmitsIncrement.runs_back
    (h : Expr.EmitsIncrement g increment before c g₁ back) {w : Chunk} {upvalues n o : Nat}
    {a : Shape} (hg : g.Sound) (hfits : g₁.scope.Fits w upvalues) (hwithin : g.Within a.length)
    (hcode : w.Holds (o + before) c) (hstart : ∀ m ≤ n, w.Runs upvalues m o a) :
    w.Runs upvalues n (o + before + c.size - back) a := by
  cases h with
  | none => simpa using hstart n (Nat.le_refl n)
  | @some _ _ e c line line' line'' he hmax hmax' =>
    obtain ⟨-, hcode⟩ := Chunk.holds_cons.1 hcode
    obtain ⟨hc, htail⟩ := Chunk.holds_append.1 hcode
    obtain ⟨hpop, hloop⟩ := Chunk.holds_cons.1 htail
    simp only [Code.size_append, Code.size_cons, Code.size_nil, Instruction.size_jump,
      Instruction.size_loop, Instruction.size_pop] at hc hpop hloop ⊢
    have hback : o + before + (3 + c.size + (1 + (3 + 0))) - (c.size + 4) = o + before + 3 := by
      omega
    rw [hback]
    refine he.runs hg hfits hwithin hc (.pop hpop (.loop hloop hmax' (by omega) fun m hm => ?_))
    have htarget : o + before + 3 + c.size + 1 + 3 - (before + c.size + 7) = o := by omega
    rw [htarget]
    exact hstart m (Nat.le_of_lt hm)

end Loop

end Expr

namespace Compiler

section Control

variable {g g₁ g₂ g₃ : Context} {c d d' : Code}

/-- The loop of a for statement, without its initializer. -/
lemma verifies_for {condition increment : Option Expr} {back : Nat} (hg : g.Sound) (hset : g.Settled)
    (hcondition : Expr.EmitsCondition g condition (d.size + d'.size + 3) c g₁)
    (hincrement : Expr.EmitsIncrement g₁ increment c.size d g₂ back) (hbody : Verifies g₂ d' g₃)
    (hsound : g₁.Sound) (hkeeps : g₂.Keeps g₃) (hwidens : g₂.Widens g₃)
    (hmax : back + d'.size + 3 ≤ Chunk.maxShort) (l₁ l₂ : UInt32) :
    Verifies g (c ++ d ++ d' ++ (⟨.loop, back + d'.size + 3⟩, l₁) :: exitCode condition l₂) g₃ := by
  have hkeeps₁ := Context.Keeps.of_grows hset hcondition.grows
  have hkeeps₂ := Context.Keeps.of_grows hkeeps₁.settled hincrement.grows
  have hback := hincrement.back_le
  rw [verifies_iff_of_keeps hkeeps] at hbody
  rw [verifies_iff_of_keeps (hkeeps₁.trans (hkeeps₂.trans hkeeps))]
  intro w upvalues n o a hfits hcode ha hnext
  obtain ⟨hcode, htail⟩ := Chunk.holds_append.1 hcode
  obtain ⟨hloop, hexit⟩ := Chunk.holds_cons.1 htail
  obtain ⟨hcode, hd'⟩ := Chunk.holds_append.1 hcode
  obtain ⟨hc, hd⟩ := Chunk.holds_append.1 hcode
  simp only [Code.size_append, Code.size_cons, Instruction.size_loop] at hnext hexit hloop hd'
  have hfits₂ := hwidens.scope.fits hfits
  have hfits₁ := hincrement.grows.scope.toWidens.fits hfits₂
  have hwithin : g.Within a.length := by
    rw [← ha.length_eq, ← (hkeeps₁.trans (hkeeps₂.trans hkeeps)).length_eq]
    exact g.within_length
  have hwithin₁ := hwithin.grows hcondition.grows
  induction n using Nat.strongRecOn with
  | ind n ih =>
    refine hcondition.runs hg hfits₁ hwithin hc ?_ fun hsome m hm => ?_
    · refine hincrement.runs_over hd ?_
      rw [Nat.add_assoc o]
      refine hbody hfits hd' ha ?_
      rw [Nat.add_assoc o]
      refine .loop hloop hmax (by omega) fun m hm => ?_
      have htarget : o + (c.size + d.size + d'.size) + 3 - (back + d'.size + 3) =
          o + c.size + d.size - back := by omega
      rw [htarget]
      refine hincrement.runs_back hsound hfits₂ hwithin₁ hd fun k hk => ?_
      have hkn := Nat.lt_of_le_of_lt hk hm
      exact ih k hkn (hnext.of_lt (Nat.le_of_lt hkn))
    · obtain ⟨e, rfl⟩ := Option.isSome_iff_exists.1 hsome
      have hoffset : o + c.size + (d.size + d'.size + 3) =
          o + (c.size + d.size + d'.size) + 3 := by omega
      rw [hoffset]
      refine .pop hexit ?_
      have hend := hnext.of_lt (Nat.le_of_lt hm)
      simpa [exitCode, Nat.add_assoc] using hend

lemma runs_dropCode {w : Chunk} {upvalues n o : Nat} {line : UInt32} {a : Shape} {ls : List Local}
    (hcode : w.Holds o (dropCode ls line))
    (hnext : w.Runs upvalues n (o + (dropCode ls line).size) a) :
    w.Runs upvalues n o (ls.map Local.captured ++ a) := by
  induction ls generalizing o with
  | nil => exact hnext
  | cons l ls ih =>
    obtain ⟨hdrop, hrest⟩ := Chunk.holds_cons.1 hcode
    have hwidth : (if l.captured then Opcode.closeUpvalue else .pop).operandWidth = 0 := by
      split <;> rfl
    have hsize := Instruction.size_of_width (n := 0) hwidth
    rw [hsize] at hrest
    refine .plain hdrop hwidth fun m hm => ?_
    have hruns : w.Runs upvalues m (o + 1) (ls.map Local.captured ++ a) := by
      refine (ih hrest ?_).of_lt (Nat.le_of_lt hm)
      simpa [dropCode, hsize, Nat.add_assoc] using hnext
    cases hcaptured : l.captured with
    | true => exact ⟨true, _, by simp [hcaptured], hruns⟩
    | false => exact ⟨_, by simp [hcaptured], hruns⟩

/-- The locals of a block are dropped at its end. -/
lemma Verifies.block (h : Verifies g.beginScope c g₁)
    (hext : g.beginScope.Extends g₁) (hset : g.Settled)
    (hdepth : g₁.scope.depth = g.scope.depth + 1) (line : UInt32) :
    Verifies g (c ++ dropCode g₁.leaving line) g₁.endScope := by
  have hkeeps := hext.of_block hset hdepth
  have hlocals := g₁.locals_eq_leaving_append
  rw [verifies_iff_of_keeps hkeeps]
  intro w upvalues n o a hfits hcode ha hnext
  obtain ⟨hc, hdrop⟩ := Chunk.holds_append.1 hcode
  rw [Code.size_append, ← Nat.add_assoc] at hnext
  have hcovers : Covers (g₁.leaving.map Local.captured ++ a) g₁.scope.locals := by
    rw [hlocals]
    exact List.rel_append (covers_captured _) ha
  have hwidens : g₁.scope.Widens g₁.endScope.scope := .of_eq rfl rfl rfl rfl
  have hruns := h.runs (hwidens.fits hfits) hc hcovers (runs_dropCode hdrop hnext)
  have hlength : g.beginScope.scope.locals.length = a.length := hkeeps.length_eq.trans ha.length_eq
  rwa [hlength, Shape.bottom_append] at hruns

end Control

/-! ## Declarations -/

namespace Context

lemma length_complete (g : Context) :
    g.complete.scope.locals.length = g.scope.locals.length := by
  rw [complete]
  split <;> simp_all

lemma covers_complete {g : Context} {a : Shape} (h : Covers a g.complete.scope.locals) :
    Covers a g.scope.locals := by
  rw [complete] at h
  split at h
  · exact h
  · exact h
  · rename_i l older hlocals _
    rw [hlocals]
    cases h with
    | cons hx hrest => exact .cons hx hrest

lemma enclosing_complete (g : Context) : g.complete.enclosing = g.enclosing := by
  rw [Context.complete]
  split <;> rfl

lemma Sound.complete {g : Context} (h : g.Sound) : g.complete.Sound := by
  have hscope : g.complete.scope.Sound := by
    refine h.scope.of_eq ?_ ?_ (g.length_complete ▸ h.scope.locals)
    · rw [Context.complete]
      split <;> rfl
    · rw [Context.complete]
      split <;> rfl
  have hcaptures : g.complete.scope.captures = g.scope.captures := by
    rw [Context.complete]
    split <;> rfl
  have hsound := h.of_scope hscope hcaptures
  rwa [← g.enclosing_complete] at hsound

lemma Sound.declare {g : Context} {name : Text} (h : g.Sound) (hadmits : g.Admits name) :
    (g.declare name).Sound :=
  h.of_scope (h.scope.of_eq rfl rfl hadmits.room) rfl

lemma Names.sound {g g' : Context} {name : Text} {global? : Option Nat}
    (h : g.Names name global? g') (hg : g.Sound) : g'.Sound := by
  cases h with
  | ofLocal _ hadmits => exact hg.declare hadmits
  | ofGlobal => exact hg.addString name

lemma Sound.beginScope {g : Context} (h : g.Sound) : g.beginScope.Sound :=
  h.of_scope (h.scope.of_eq rfl rfl h.scope.locals) rfl

lemma Sound.endScope {g : Context} (h : g.Sound) : g.endScope.Sound := by
  refine h.of_scope (h.scope.of_eq rfl rfl ?_) rfl
  refine Nat.le_trans ?_ h.scope.locals
  rw [List.span_eq_takeWhile_dropWhile]
  exact (List.dropWhile_sublist _).length_le

end Context

section Declarations

variable {g g₁ g₂ g₃ : Context} {name : Text} {global? : Option Nat} {c : Code} {line line' : UInt32}

/-- A global is defined by the value on top of the stack. -/
lemma runs_defineGlobal {w : Chunk} {upvalues n o : Nat} {a : Shape} (hg : g.Sound)
    (hmax : (g.addString name).1 ≤ Chunk.maxShort)
    (hfits : (g.addString name).2.scope.Fits w upvalues)
    (hcode : w.Holds o (defineCode (some (g.addString name).1) line))
    (hnext : w.Runs upvalues n (o + 3) a) : w.Runs upvalues n o (false :: a) :=
  .short hcode rfl hmax fun _ hm =>
    ⟨Context.addString_lt hg hfits, a, rfl, hnext.of_lt (Nat.le_of_lt hm)⟩

lemma verifies_declareVar {e : Expr} (hnames : g.Names name global? g₁)
    (he : Expr.Emits g₁ [e] c g₂) (hg : g.Sound) :
    Verifies g (c ++ defineCode global? line) g₂.complete := by
  have hsound := hnames.sound hg
  constructor
  intro w upvalues n o a hfits hcode ha hnext
  replace hfits := g₂.widens_complete.scope.fits hfits
  obtain ⟨hc, hdefine⟩ := Chunk.holds_append.1 hcode
  have hcovers := Context.covers_complete ha
  cases hnames with
  | ofLocal hpos _ =>
    -- The value stays on the stack and becomes the local.
    have hlocals := he.grows.scope.locals.length_eq
    cases a with
    | nil => simp [Context.declare, hcovers.length_eq] at hlocals
    | cons x b =>
      have hlength : g.scope.locals.length = b.length := by
        simpa [Context.declare, hcovers.length_eq] using hlocals
      rw [hlength, Shape.bottom_cons]
      have hwithin := g.within_declare name
      rw [hlength] at hwithin
      refine he.runs hsound hfits hwithin hc (Chunk.Runs.of_le ?_ (.cons_false x (.refl b)))
      simpa [defineCode] using hnext
  | ofGlobal hzero hmax =>
    have hgrows := (g.grows_addString name).trans he.grows
    have hlength : g.scope.locals.length = a.length :=
      hgrows.scope.locals.length_eq.trans hcovers.length_eq
    rw [hlength, Shape.bottom_length]
    have hwithin : (g.addString name).2.Within a.length := by
      rw [← hlength]
      exact Context.within_length _
    refine he.runs hsound hfits hwithin hc ?_
    refine runs_defineGlobal hg hmax (he.grows.scope.toWidens.fits hfits) hdefine ?_
    rw [Code.size_append, ← Nat.add_assoc] at hnext
    exact hnext

/-- Every capture of a function can be made where the function is declared. -/
lemma capturable_of_links {f outer : FunctionScope} {upvalues : Nat} {a : Shape}
    (hlinks : f.Links outer) (hcaptures : outer.captures.size ≤ upvalues)
    (hflags : ∀ slot l, outer.locals.reverse[slot]? = some l → l.captured →
      a.flag? slot = some true) : (f.prototypeOf c line).Capturable upvalues a := by
  intro capture hmem
  have hlink := hlinks capture hmem
  split at hlink <;> rename_i hlocal
  · obtain ⟨l, hl, hcaptured⟩ := hlink
    rw [if_pos hlocal]
    exact hflags capture.index l hl hcaptured
  · rw [if_neg hlocal]
    exact Nat.lt_of_lt_of_le hlink hcaptures

lemma verifies_declareFun {f outer : FunctionScope} {rest : List FunctionScope} {line'' : UInt32}
    (hnames : g.Names name global? g₁) (hg : g.Sound) (hlinks : f.Links outer)
    (hgrows : g₁.complete.scope.Grows outer)
    (hmax : outer.chunk.functions.size ≤ Chunk.maxShort) :
    Verifies g ((⟨.closure, outer.chunk.functions.size⟩, line) :: defineCode global? line')
      (Context.addFunction ⟨outer, rest⟩ (f.prototypeOf c line'')).2.complete := by
  constructor
  intro w upvalues n o a hfits hcode ha hnext
  replace hfits := (Context.widens_complete _).scope.fits hfits
  obtain ⟨hclosure, hdefine⟩ := Chunk.holds_cons.1 hcode
  have hcovers : Covers a outer.locals := Context.covers_complete ha
  have hcaptures : outer.captures.size ≤ upvalues := hfits.captures
  have hfunction : w.functions[outer.chunk.functions.size]? = some (f.prototypeOf c line'') := by
    obtain ⟨more, hmore⟩ := hfits.functions
    rw [← Array.getElem?_toList, ← hmore]
    simp [Context.addFunction, Context.mapChunk, Chunk.addFunction]
  have hlength : g₁.scope.locals.length = a.length := by
    rw [← hcovers.length_eq, ← g₁.length_complete]
    exact hgrows.locals.length_eq
  cases hnames with
  | ofLocal hpos _ =>
    cases a with
    | nil => simp [Context.declare] at hlength
    | cons x b =>
      have hlength' : g.scope.locals.length = b.length := by
        simpa [Context.declare] using hlength
      rw [hlength', Shape.bottom_cons]
      refine .short hclosure rfl hmax fun m hm => ⟨_, x, hfunction, ?_, ?_⟩
      · exact capturable_of_links hlinks hcaptures fun slot l hl hcaptured =>
          hcovers.flag?_of_captured hl hcaptured
      · exact hnext.of_lt (Nat.le_of_lt hm)
  | ofGlobal hzero hstring =>
    have hlength' : g.scope.locals.length = a.length := hlength
    rw [hlength', Shape.bottom_length]
    refine .short hclosure rfl hmax fun m hm => ⟨_, false, hfunction, ?_, ?_⟩
    · refine capturable_of_links hlinks hcaptures fun slot l hl hcaptured => ?_
      have hslot : slot < a.length := hcovers.length_eq ▸ slot_lt hl
      rw [← hcovers.flag?_of_captured hl hcaptured]
      exact Shape.flag?_append (a := [false]) hslot
    · have hwidens : (g.addString name).2.scope.Widens outer :=
        (Context.widens_complete _).scope.trans hgrows.toWidens
      have hfits' : outer.Fits w upvalues :=
        (Context.grows_addFunction ⟨outer, rest⟩ _).scope.toWidens.fits hfits
      refine runs_defineGlobal hg hstring (hwidens.fits hfits') hdefine ?_
      have hend := hnext.of_lt (Nat.le_of_lt hm)
      rw [Code.size_cons, ← Nat.add_assoc] at hend
      exact hend

end Declarations

/-! ## Functions -/

namespace Context

lemma Sound.enter {g : Context} (h : g.Sound) (name : Text) : (g.enter name).Sound where
  linked := by
    refine List.isChain_cons_cons.2 ⟨?_, h.linked⟩
    intro c hc
    simp [Context.enter, FunctionScope.new] at hc
  outermost := h.outermost
  functions := by
    intro f hf
    rcases List.mem_cons.1 hf with rfl | hf
    · have hnew := FunctionScope.sound_new .function name
      exact hnew.of_eq rfl rfl hnew.locals
    · exact h.functions f hf

/-- Parameters are locals of the function, one each. -/
lemma Takes.spec {g g' : Context} {ps : List Text} (h : g.Takes ps g') (hg : g.Sound)
    (hlength : g.scope.locals.length = g.scope.arity + 1) :
    g'.Sound ∧ g'.scope.locals.length = g'.scope.arity + 1 := by
  induction h with
  | nil => exact ⟨hg, hlength⟩
  | @cons g g' p ps _ hadmits _ ih =>
    have hcount : g.countParameter.Sound := hg.of_scope (hg.scope.of_eq rfl rfl hg.scope.locals) rfl
    have harity := (widens_complete (g.countParameter.declare p)).arity
    refine ih (hcount.declare hadmits).complete ?_
    rw [length_complete, harity]
    simp [Context.declare, Context.countParameter, hlength]

end Context

lemma Shape.replicate_le (a : Shape) : Shape.Le (List.replicate a.length false) a := by
  induction a with
  | nil => exact .refl []
  | cons x a ih => exact .cons_false x ih

/-- A function whose body is verified is verified. -/
lemma verified_prototypeOf {g g' : Context} {c : Code} {line : UInt32} (hbody : Verifies g c g')
    (hg : g'.Sound) (hext : g.Extends g')
    (hlength : g.scope.locals.length = g'.scope.arity + 1) :
    (g'.scope.prototypeOf c line).Verified := by
  refine .mk (w := g'.scope.chunk.append (c ++ returnCode line)) rfl rfl (fun n => ?_)
    hg.scope.functions
  obtain ⟨hc, hreturn⟩ := Chunk.holds_append.1 (hg.scope.holds_append (c ++ returnCode line))
  obtain ⟨hnil, hret⟩ := Chunk.holds_cons.1 hreturn
  have hfits := g'.scope.fits_append (c ++ returnCode line)
  have hcovers := covers_captured g'.scope.locals
  have hruns := hbody.runs (n := n) hfits hc hcovers (.plain hnil rfl fun m _ => .plain hret rfl
    fun _ _ => ⟨_, rfl⟩)
  refine hruns.of_le ?_
  have hbottom : (Shape.bottom (g'.scope.locals.map Local.captured)
      g.scope.locals.length).length = g'.scope.arity + 1 := by
    rw [Shape.length_bottom (hcovers.length_eq ▸ hext.length_le), hlength]
  rw [← hbottom]
  exact Shape.replicate_le _

end Compiler

/-- The code of a statement is verified, and leaves a sound context. -/
theorem Stmt.Emits.verified {g g' : Context} {s : Stmt} {c : Code} (h : Emits g s c g')
    (hset : g.Settled) (hs : s.Structured) (hg : g.Sound) : g'.Sound ∧ Verifies g c g' := by
  induction h with
  | skip => exact ⟨hg, verifies_nil _⟩
  | seq hfirst hrest ih ih' =>
    obtain ⟨hsound, hverifies⟩ := ih hset hs.1 hg
    have hext := (hfirst.extends hset hs.1).1
    obtain ⟨hsound', hverifies'⟩ := ih' hext.settled hs.2 hsound
    have hext' := (hrest.extends hext.settled hs.2).1
    exact ⟨hsound', hverifies.append hverifies' hext hext' hrest.widens⟩
  | declareVar hnames he =>
    exact ⟨(he.sound (hnames.sound hg)).complete, verifies_declareVar hnames he hg⟩
  | @declareFun g g₁ g₂ g₃ name _ _ body c outer rest _ _ line hnames htakes hbody houter hmax ih =>
    obtain ⟨hsound₂, hlength⟩ := htakes.spec ((hnames.sound hg).complete.enter name) rfl
    have hset₂ := htakes.settled (Context.settled_enter _ _) Nat.one_pos
    obtain ⟨hsound₃, hverifies⟩ := ih hset₂ hs hsound₂
    have hprototype : (g₃.scope.prototypeOf c line).Verified :=
      verified_prototypeOf hverifies hsound₃ (hbody.extends hset₂ hs).1
        (hbody.widens.arity ▸ hlength)
    have hgrow := hbody.widens.enclosing
    rw [htakes.enclosing, houter] at hgrow
    obtain ⟨hscope, -⟩ := List.forall₂_cons.1 hgrow
    have hlinked := hsound₃.linked
    rw [houter] at hlinked
    obtain ⟨hlinks, hrest⟩ := List.isChain_cons_cons.1 hlinked
    have houtside : Context.Sound ⟨outer, rest⟩ :=
      { linked := hrest
        outermost := by
          have hlast := hsound₃.outermost
          rwa [houter, List.getLast?_cons_cons] at hlast
        functions := fun f hf => hsound₃.functions f (List.mem_cons_of_mem _ (houter ▸ hf)) }
    exact ⟨(houtside.addFunction hprototype).complete,
      verifies_declareFun hnames hg hlinks hscope hmax⟩
  | print he | discard he | echo he =>
    refine ⟨he.sound hg, ?_⟩
    exact verifies_consume he hg hset rfl fun h => ⟨_, rfl, h⟩
  | ret _ he =>
    refine ⟨he.sound hg, ?_⟩
    exact verifies_consume he hg hset rfl fun _ => ⟨_, rfl⟩
  | branch he hyes hno hmax hmax' ih ih' =>
    have hset₁ := (Context.Keeps.of_grows hset he.grows).settled
    have hkeeps := (hyes.extends hset₁ hs.2.1).2 hs.1
    have hkeeps' := (hno.extends hkeeps.settled hs.2.2.2).2 hs.2.2.1
    obtain ⟨hsound, hverifies⟩ := ih hset₁ hs.2.1 (he.sound hg)
    obtain ⟨hsound', hverifies'⟩ := ih' hkeeps.settled hs.2.2.2 hsound
    exact ⟨hsound', verifies_branch he hg hset hverifies hverifies' hkeeps hkeeps' hyes.widens
      hno.widens hmax hmax'⟩
  | whileLoop he hbody hmax hmax' ih =>
    have hset₁ := (Context.Keeps.of_grows hset he.grows).settled
    have hkeeps := (hbody.extends hset₁ hs.2).2 hs.1
    obtain ⟨hsound, hverifies⟩ := ih hset₁ hs.2 (he.sound hg)
    exact ⟨hsound, verifies_while he hg hset hverifies hkeeps hbody.widens hmax hmax'⟩
  | @forLoop g g₁ g₂ g₃ g₄ init body condition increment c₁ c₂ c₃ c₄ back l₁ l₂ l₃ hinit hcond hinc
      hbody hmax ih ih' =>
    obtain ⟨hsound₁, hverifies⟩ := ih hset.beginScope hs.1 hg.beginScope
    have hext := (hinit.extends hset.beginScope hs.1).1
    have hkeeps₂ := Context.Keeps.of_grows hext.settled hcond.grows
    have hkeeps₃ := Context.Keeps.of_grows hkeeps₂.settled hinc.grows
    have hkeeps₄ := (hbody.extends hkeeps₃.settled hs.2.2).2 hs.2.1
    obtain ⟨hsound₄, hverifies'⟩ := ih' hkeeps₃.settled hs.2.2 (hinc.sound (hcond.sound hsound₁))
    have hloop := verifies_for hsound₁ hext.settled hcond hinc hverifies' (hcond.sound hsound₁)
      hkeeps₄ hbody.widens hmax l₁ l₂
    have hwidens := hcond.grows.widens.trans (hinc.grows.widens.trans hbody.widens)
    have hext' := (hkeeps₂.trans (hkeeps₃.trans hkeeps₄)).extends
    have hall := hverifies.append hloop hext hext' hwidens
    refine ⟨hsound₄.endScope, ?_⟩
    have hblock := hall.block (hext.trans hinit.widens.depth hext') hset
      (hwidens.depth.trans hinit.widens.depth) l₃
    simpa only [List.append_assoc] using hblock
  | block hbody ih =>
    obtain ⟨hsound, hverifies⟩ := ih hset.beginScope hs hg.beginScope
    exact ⟨hsound.endScope, hverifies.block (hbody.extends hset.beginScope hs).1 hset
      hbody.widens.depth _⟩

namespace Compiler.Context

lemma settled_script : Context.script.Settled := settled_new rfl

lemma sound_script : Context.script.Sound where
  linked := .singleton _
  outermost f hf := by
    cases hf
    rfl
  functions f hf := List.mem_singleton.1 hf ▸ FunctionScope.sound_new .script []

end Compiler.Context

/-- The script of a tree is verified. -/
theorem Stmt.Emits.verified_script {g : Context} {s : Stmt} {c : Code} (h : Emits .script s c g)
    (hs : s.Structured) (line : UInt32) : (g.scope.prototypeOf c line).Verified := by
  obtain ⟨hg, hverifies⟩ := h.verified Context.settled_script hs Context.sound_script
  refine verified_prototypeOf hverifies hg (h.extends Context.settled_script hs).1 ?_
  rw [h.widens.arity]
  rfl

/-- A script captures nothing. -/
lemma Stmt.Emits.captures_script {g : Context} {s : Stmt} {c : Code} (h : Emits .script s c g)
    (hs : s.Structured) : g.scope.captures = #[] := by
  have hlast := (h.verified Context.settled_script hs Context.sound_script).1.outermost
  have henclosing : g.enclosing = [] := List.forall₂_nil_left_iff.1 h.widens.enclosing
  rw [henclosing] at hlast
  exact hlast g.scope rfl

end Lox
