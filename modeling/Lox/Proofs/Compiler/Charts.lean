import Lox.Proofs.Compiler.Reading.Statement
import Lox.Proofs.Compiler.Tidiness

/-!
# Compiled code can be charted

The compiler does not count how high the stack is.  The heights follow from the locals: between
two statements the stack of a call holds the callee and one value for each local, and an expression
adds its value on top.  `Carries` says this of a stretch of code, whose chart is found along the
tree that has the code: one lemma for each form of jumping, one case for each constructor.

A script that the compiler returns is therefore well formed (`compile_wellFormed`) and balanced
(`compile_balanced`), with all functions in it.
-/

namespace Lox

/-! ## Stretches of code -/

/-- One of the places in `B` is at this offset, with this height and an instruction as in `Q`. -/
def Arrives (B : Place → Prop) (Q : Instruction → Prop) (o h : Nat) : Prop :=
  ∃ j, Q j ∧ B ⟨o, j, h⟩

lemma Arrives.mono {B : Place → Prop} {Q P : Instruction → Prop} {o h : Nat} (hQ : Arrives B Q o h)
    (hQP : ∀ i, Q i → P i) : Arrives B P o h := by
  obtain ⟨j, hj, hB⟩ := hQ
  exact ⟨j, hQP j hj, hB⟩

/-- Any instruction at all. -/
def Instruction.Any (_ : Instruction) : Prop :=
  True

lemma Arrives.at_eq {B : Place → Prop} {Q : Instruction → Prop} {o o' h : Nat}
    (hQ : Arrives B Q o h) (ho : o = o') : Arrives B Q o' h :=
  ho ▸ hQ

lemma Arrives.any {B : Place → Prop} {Q : Instruction → Prop} {o h : Nat} (hQ : Arrives B Q o h) :
    Arrives B Instruction.Any o h :=
  hQ.mono fun _ _ => trivial

open Instruction (Plain Any)

/-- The code can be charted from the one height to the other.  It begins with an instruction as in
`Q`, provided that it is followed by one as in `Q'`. -/
def Carries (w : Chunk) (upvalues arity : Nat) (Q : Instruction → Prop) (h : Nat) (c : Code)
    (Q' : Instruction → Prop) (h' : Nat) : Prop :=
  ∃ a : Chart, a.code = c ∧ ∀ (o : Nat) (B : Place → Prop), (∀ q ∈ a.places o, B q) →
    Arrives B Q' (o + c.size) h' →
    Arrives B Q o h ∧ ∀ q ∈ a.places o, q.Leads w upvalues arity B

section Stretches

variable {w : Chunk} {upvalues arity : Nat} {Q Q' Q'' : Instruction → Prop} {h h' h'' : Nat}
  {c d : Code}

lemma Carries.weaken {P P' : Instruction → Prop} (hc : Carries w upvalues arity Q h c Q' h')
    (hQ : ∀ i, Q i → P i) (hQ' : ∀ i, P' i → Q' i) : Carries w upvalues arity P h c P' h' := by
  obtain ⟨a, rfl, ha⟩ := hc
  refine ⟨a, rfl, fun o B hB hexit => ?_⟩
  obtain ⟨hstart, hleads⟩ := ha o B hB (hexit.mono hQ')
  exact ⟨hstart.mono hQ, hleads⟩

lemma carries_nil : Carries w upvalues arity Q h [] Q h :=
  ⟨[], rfl, fun _ _ _ hexit => ⟨hexit, by simp⟩⟩

lemma Carries.append (hc : Carries w upvalues arity Q h c Q' h')
    (hd : Carries w upvalues arity Q' h' d Q'' h'') :
    Carries w upvalues arity Q h (c ++ d) Q'' h'' := by
  obtain ⟨a, rfl, ha⟩ := hc
  obtain ⟨b, rfl, hb⟩ := hd
  refine ⟨a ++ b, by simp, fun o B hB hexit => ?_⟩
  rw [Chart.places_append, List.forall_mem_append] at hB ⊢
  rw [Code.size_append, ← Nat.add_assoc] at hexit
  obtain ⟨hmiddle, hb⟩ := hb _ B hB.2 hexit
  obtain ⟨hstart, ha⟩ := ha o B hB.1 hmiddle
  exact ⟨hstart, ha, hb⟩

/-! ## Instructions -/

variable {B : Place → Prop} {o k : Nat} {line : UInt32}

/-- An instruction that the next one follows. -/
lemma carries_instruction {i : Instruction} (hi : Q i) (hencodable : i.Encodable)
    (hrange : ∀ next, i.InRange w upvalues next) (hfloor : arity + 1 + i.takes ≤ h)
    (hsuccessors : ∀ next, i.successors next = [next]) (hclosure : i.opcode ≠ .closure)
    (hlocals : i.opcode = .getLocal ∨ i.opcode = .setLocal → 0 < i.operand ∧ i.operand < h)
    (hh' : h' = h - i.takes + i.gives) : Carries w upvalues arity Q h [(i, line)] Q' h' := by
  subst hh'
  refine ⟨[((i, line), h)], rfl, fun o B hB hexit => ?_⟩
  simp only [Chart.places_cons, Chart.places_nil, List.forall_mem_singleton] at hB ⊢
  obtain ⟨j, -, hj⟩ := hexit
  refine ⟨⟨i, hi, hB⟩, hencodable, hrange _, hfloor, hlocals, fun h => absurd h hclosure, ?_⟩
  intro t ht
  rw [hsuccessors, List.mem_singleton] at ht
  subst ht
  refine ⟨j, ?_⟩
  simpa [Place.next] using hj

lemma leads_pop (hfloor : arity + 1 ≤ h) (hnext : Arrives B Any (o + 1) h) :
    Place.Leads w upvalues arity B ⟨o, ⟨.pop, 0⟩, h + 1⟩ := by
  obtain ⟨j, -, hj⟩ := hnext
  refine ⟨rfl, trivial, Nat.succ_le_succ hfloor, by simp, by simp, ?_⟩
  simpa [Instruction.successors, Instruction.takes, Instruction.gives, Place.next] using ⟨j, hj⟩

lemma leads_jump (hk : k ≤ Chunk.maxShort) (hfloor : arity + 1 ≤ h)
    (htarget : Arrives B Any (o + 3 + k) h) :
    Place.Leads w upvalues arity B ⟨o, ⟨.jump, k⟩, h⟩ := by
  obtain ⟨j, -, hj⟩ := htarget
  refine ⟨hk, trivial, hfloor, by simp, by simp, ?_⟩
  simpa [Instruction.successors, Instruction.takes, Instruction.gives, Place.next] using ⟨j, hj⟩

lemma leads_jumpIfFalse (hk : k ≤ Chunk.maxShort) (hfloor : arity + 1 ≤ h)
    (hnext : Arrives B Any (o + 3) (h + 1)) (htarget : Arrives B Any (o + 3 + k) (h + 1)) :
    Place.Leads w upvalues arity B ⟨o, ⟨.jumpIfFalse, k⟩, h + 1⟩ := by
  obtain ⟨j, -, hj⟩ := hnext
  obtain ⟨j', -, hj'⟩ := htarget
  refine ⟨hk, trivial, Nat.succ_le_succ hfloor, by simp, by simp, ?_⟩
  simpa [Instruction.successors, Instruction.takes, Instruction.gives, Place.next] using
    ⟨⟨j, hj⟩, ⟨j', hj'⟩⟩

lemma leads_loop (hk : k ≤ Chunk.maxShort) (hback : k ≤ o + 3) (hfloor : arity + 1 ≤ h)
    (htarget : Arrives B Any (o + 3 - k) h) :
    Place.Leads w upvalues arity B ⟨o, ⟨.loop, k⟩, h⟩ := by
  obtain ⟨j, -, hj⟩ := htarget
  refine ⟨hk, hback, hfloor, by simp, by simp, ?_⟩
  simpa [Instruction.successors, Instruction.takes, Instruction.gives, Place.next] using ⟨j, hj⟩

/-! ## Jumps -/

variable {d' : Code} {l₁ l₂ l₃ l₄ : UInt32}

lemma carries_and (hc : Carries w upvalues arity Plain h c Any (h + 1))
    (hd : Carries w upvalues arity Plain h d Any (h + 1)) (hfloor : arity + 1 ≤ h)
    (hmax : 1 + d.size ≤ Chunk.maxShort) :
    Carries w upvalues arity Plain h
      (c ++ (⟨.jumpIfFalse, 1 + d.size⟩, l₁) :: (⟨.pop, 0⟩, l₂) :: d) Any (h + 1) := by
  obtain ⟨a, rfl, ha⟩ := hc
  obtain ⟨b, rfl, hb⟩ := hd
  refine ⟨a ++ ((⟨.jumpIfFalse, 1 + b.code.size⟩, l₁), h + 1) :: ((⟨.pop, 0⟩, l₂), h + 1) :: b,
    by simp, fun o B hB hexit => ?_⟩
  simp only [Chart.places_append, Chart.places_cons, List.forall_mem_append, List.forall_mem_cons,
    Code.size_append, Code.size_cons, Instruction.size_jumpIfFalse, Instruction.size_pop]
    at hB hexit ⊢
  obtain ⟨hBa, hjump, hpop, hBb⟩ := hB
  obtain ⟨hright, hb⟩ := hb _ B hBb (hexit.at_eq (by omega))
  obtain ⟨hstart, ha⟩ := ha o B hBa ⟨_, trivial, hjump⟩
  refine ⟨hstart, ha, ?_, leads_pop hfloor hright.any, hb⟩
  exact leads_jumpIfFalse hmax hfloor ⟨_, trivial, hpop⟩ (hexit.at_eq (by omega))

lemma carries_or (hc : Carries w upvalues arity Plain h c Any (h + 1))
    (hd : Carries w upvalues arity Plain h d Any (h + 1)) (hfloor : arity + 1 ≤ h)
    (hmax : 1 + d.size ≤ Chunk.maxShort) :
    Carries w upvalues arity Plain h (c ++ (⟨.jumpIfFalse, 3⟩, l₁) ::
      (⟨.jump, 1 + d.size⟩, l₂) :: (⟨.pop, 0⟩, l₃) :: d) Any (h + 1) := by
  obtain ⟨a, rfl, ha⟩ := hc
  obtain ⟨b, rfl, hb⟩ := hd
  refine ⟨a ++ ((⟨.jumpIfFalse, 3⟩, l₁), h + 1) :: ((⟨.jump, 1 + b.code.size⟩, l₂), h + 1) ::
    ((⟨.pop, 0⟩, l₃), h + 1) :: b, by simp, fun o B hB hexit => ?_⟩
  simp only [Chart.places_append, Chart.places_cons, List.forall_mem_append, List.forall_mem_cons,
    Code.size_append, Code.size_cons, Instruction.size_jumpIfFalse, Instruction.size_jump,
    Instruction.size_pop] at hB hexit ⊢
  obtain ⟨hBa, hbranch, hjump, hpop, hBb⟩ := hB
  obtain ⟨hright, hb⟩ := hb _ B hBb (hexit.at_eq (by omega))
  obtain ⟨hstart, ha⟩ := ha o B hBa ⟨_, trivial, hbranch⟩
  refine ⟨hstart, ha, ?_, ?_, leads_pop hfloor hright.any, hb⟩
  · exact leads_jumpIfFalse (by decide) hfloor ⟨_, trivial, hjump⟩ ⟨_, trivial, hpop⟩
  · exact leads_jump hmax (Nat.le_succ_of_le hfloor) (hexit.at_eq (by omega))

lemma carries_branch (hc : Carries w upvalues arity Plain h c Any (h + 1))
    (hd : Carries w upvalues arity Plain h d Plain h)
    (hd' : Carries w upvalues arity Plain h d' Plain h) (hfloor : arity + 1 ≤ h)
    (hmax : d.size + 4 ≤ Chunk.maxShort) (hmax' : 1 + d'.size ≤ Chunk.maxShort) :
    Carries w upvalues arity Plain h
      (c ++ (⟨.jumpIfFalse, d.size + 4⟩, l₁) :: (⟨.pop, 0⟩, l₂) :: d ++
        (⟨.jump, 1 + d'.size⟩, l₃) :: (⟨.pop, 0⟩, l₄) :: d') Plain h := by
  obtain ⟨a, rfl, ha⟩ := hc
  obtain ⟨b, rfl, hb⟩ := hd
  obtain ⟨b', rfl, hb'⟩ := hd'
  refine ⟨a ++ ((⟨.jumpIfFalse, b.code.size + 4⟩, l₁), h + 1) :: ((⟨.pop, 0⟩, l₂), h + 1) :: b ++
    ((⟨.jump, 1 + b'.code.size⟩, l₃), h) :: ((⟨.pop, 0⟩, l₄), h + 1) :: b', by simp,
    fun o B hB hexit => ?_⟩
  simp only [Chart.places_append, Chart.places_cons, Chart.code_append, Chart.code_cons,
    List.forall_mem_append, List.forall_mem_cons, Code.size_append, Code.size_cons,
    Instruction.size_jumpIfFalse, Instruction.size_jump, Instruction.size_pop] at hB hexit ⊢
  obtain ⟨⟨hBa, hbranch, hpop, hBb⟩, hjump, hpop', hBb'⟩ := hB
  have hend : Arrives B Plain _ h := ⟨_, by simp [Plain], hjump⟩
  have helse : Arrives B Any _ (h + 1) := ⟨_, trivial, hpop'⟩
  obtain ⟨hno, hb'⟩ := hb' _ B hBb' (hexit.at_eq (by omega))
  obtain ⟨hyes, hb⟩ := hb _ B hBb (hend.at_eq (by omega))
  obtain ⟨hstart, ha⟩ := ha o B hBa ⟨_, trivial, hbranch⟩
  refine ⟨hstart, ⟨ha, ?_, leads_pop hfloor hyes.any, hb⟩, ?_, leads_pop hfloor hno.any, hb'⟩
  · exact leads_jumpIfFalse hmax hfloor ⟨_, trivial, hpop⟩ (helse.at_eq (by omega))
  · exact leads_jump hmax' hfloor (hexit.any.at_eq (by omega))

lemma carries_while (hc : Carries w upvalues arity Plain h c Any (h + 1))
    (hd : Carries w upvalues arity Plain h d Plain h) (hfloor : arity + 1 ≤ h)
    (hmax : d.size + 4 ≤ Chunk.maxShort) (hmax' : c.size + d.size + 7 ≤ Chunk.maxShort) :
    Carries w upvalues arity Plain h
      (c ++ (⟨.jumpIfFalse, d.size + 4⟩, l₁) :: (⟨.pop, 0⟩, l₂) :: d ++
        [(⟨.loop, c.size + d.size + 7⟩, l₃), (⟨.pop, 0⟩, l₄)]) Plain h := by
  obtain ⟨a, rfl, ha⟩ := hc
  obtain ⟨b, rfl, hb⟩ := hd
  refine ⟨a ++ ((⟨.jumpIfFalse, b.code.size + 4⟩, l₁), h + 1) :: ((⟨.pop, 0⟩, l₂), h + 1) :: b ++
    [((⟨.loop, a.code.size + b.code.size + 7⟩, l₃), h), ((⟨.pop, 0⟩, l₄), h + 1)], by simp,
    fun o B hB hexit => ?_⟩
  simp only [Chart.places_append, Chart.places_cons, Chart.places_nil, Chart.code_append,
    Chart.code_cons, List.forall_mem_append, List.forall_mem_cons, Code.size_append,
    Code.size_cons, Code.size_nil, Instruction.size_jumpIfFalse, Instruction.size_loop,
    Instruction.size_pop] at hB hexit ⊢
  obtain ⟨⟨hBa, hbranch, hpop, hBb⟩, hloop, hpop', -⟩ := hB
  have hend : Arrives B Plain _ h := ⟨_, by simp [Plain], hloop⟩
  have hout : Arrives B Any _ (h + 1) := ⟨_, trivial, hpop'⟩
  obtain ⟨hbody, hb⟩ := hb _ B hBb (hend.at_eq (by omega))
  obtain ⟨hstart, ha⟩ := ha o B hBa ⟨_, trivial, hbranch⟩
  refine ⟨hstart, ⟨ha, ?_, leads_pop hfloor hbody.any, hb⟩, ?_, ?_, by simp⟩
  · exact leads_jumpIfFalse hmax hfloor ⟨_, trivial, hpop⟩ (hout.at_eq (by omega))
  · exact leads_loop hmax' (by omega) hfloor (hstart.any.at_eq (by omega))
  · exact leads_pop hfloor (hexit.any.at_eq (by omega))

end Stretches

open Compiler

/-! ## Expressions -/

section Expressions

variable {w : Chunk} {upvalues arity : Nat} {h : Nat} {line : UInt32}

lemma Literal.carries (l : Literal) (hfloor : arity + 1 ≤ h) :
    Carries w upvalues arity Plain h [(⟨l.opcode, 0⟩, line)] Any (h + 1) := by
  cases l <;> exact carries_instruction (by simp [Plain, Literal.opcode]) rfl (fun _ => trivial)
    hfloor (fun _ => rfl) (by simp [Literal.opcode]) (by simp [Literal.opcode]) rfl

lemma UnaryOperator.carries (u : UnaryOperator) (hfloor : arity + 1 ≤ h) :
    Carries w upvalues arity Any (h + 1) [(⟨u.opcode, 0⟩, line)] Any (h + 1) := by
  cases u <;> exact carries_instruction trivial rfl (fun _ => trivial) (Nat.succ_le_succ hfloor)
    (fun _ => rfl) (by simp [UnaryOperator.opcode]) (by simp [UnaryOperator.opcode]) rfl

lemma BinaryOperator.carries (b : BinaryOperator) (hfloor : arity + 1 ≤ h) :
    Carries w upvalues arity Any (h + 2) [(⟨b.opcode, 0⟩, line)] Any (h + 1) := by
  cases b <;> exact carries_instruction trivial rfl (fun _ => trivial)
    (Nat.succ_le_succ (Nat.succ_le_succ hfloor)) (fun _ => rfl) (by simp [BinaryOperator.opcode])
    (by simp [BinaryOperator.opcode]) rfl

/-- How a variable is reached leads to a variable, which is not the callee. -/
lemma Compiler.Context.Resolves.carries {g g' : Context} {name : Text} {a : Access}
    (hresolves : g.Resolves name a g') (hname : name ≠ []) (hg : g.Sound)
    (hrooted : Rooted g.scope.locals) (hfits : g'.scope.Fits w upvalues) (hwithin : g.Within h)
    (hfloor : arity + 1 ≤ h) :
    Carries w upvalues arity Plain h [(⟨a.read, a.operand⟩, line)] Any (h + 1) ∧
      Carries w upvalues arity Any (h + 1) [(⟨a.write, a.operand⟩, line)] Any (h + 1) := by
  have hle := hresolves.operand_le hg
  have hfloor' : arity + 1 + 1 ≤ h + 1 := Nat.succ_le_succ hfloor
  cases hresolves with
  | @ofLocal slot l hfind hdepth =>
    have hlt := hwithin slot l (findLocal_eq_some hfind) hdepth
    have hpos := hrooted.slot_pos hname hfind
    exact ⟨carries_instruction (by simp [Plain]) hle (fun _ => trivial) hfloor (fun _ => rfl)
        (by simp) (fun _ => ⟨hpos, hlt⟩) rfl,
      carries_instruction trivial hle (fun _ => trivial) hfloor' (fun _ => rfl) (by simp)
        (fun _ => ⟨hpos, Nat.lt_succ_of_lt hlt⟩) rfl⟩
  | @ofCapture i scope enclosing _ hcapture =>
    obtain ⟨-, -, hi⟩ := capture?_linked hcapture hg.linked
      fun f hf => (hg.functions f hf).captures
    have hlt : i < upvalues := Nat.lt_of_lt_of_le hi hfits.captures
    exact ⟨carries_instruction (by simp [Plain]) hle (fun _ => hlt) hfloor (fun _ => rfl) (by simp)
        (by simp) rfl,
      carries_instruction trivial hle (fun _ => hlt) hfloor' (fun _ => rfl) (by simp) (by simp) rfl⟩
  | ofGlobal =>
    have hlt := Context.addString_lt hg hfits
    exact ⟨carries_instruction (by simp [Plain]) hle (fun _ => hlt) hfloor (fun _ => rfl) (by simp)
        (by simp) rfl,
      carries_instruction trivial hle (fun _ => hlt) hfloor' (fun _ => rfl) (by simp) (by simp) rfl⟩

/-- The code of expressions puts their values on the stack. -/
theorem Expr.Emits.carries {g g' : Context} {es : List Expr} {c : Code} (he : Emits g es c g')
    (hes : es ≠ []) (hnames : [] ∉ namesOfAll es) (hg : g.Sound) (hrooted : Rooted g.scope.locals)
    (hfits : g'.scope.Fits w upvalues) (hwithin : g.Within h) (hfloor : arity + 1 ≤ h) :
    Carries w upvalues arity Plain h c Any (h + es.length) := by
  induction he generalizing h with
  | nil => exact absurd rfl hes
  | @cons g g' g'' e e' es c d hfirst hrest ih ih' =>
    simp only [namesOfAll, List.append_nil, List.mem_append, not_or] at hnames ih ih'
    have hmid := hrest.grows.scope.toWidens.fits hfits
    have hleft := ih (by simp) hnames.1 hg hrooted hmid hwithin hfloor
    have hright := ih' (by simp) hnames.2 (hfirst.sound hg)
      (hrooted.grows hfirst.grows.scope.locals) hfits
      ((hwithin.grows hfirst.grows).mono (Nat.le_add_right h 1)) (Nat.le_succ_of_le hfloor)
    have hall := hleft.append (hright.weaken (fun _ _ => trivial) fun _ => id)
    convert hall using 1
    simp only [List.length_cons]
    omega
  | literal => exact Literal.carries _ hfloor
  | number _ hmax =>
    exact carries_instruction (by simp [Plain]) hmax (fun _ => Context.addConstant_lt hg hfits)
      hfloor (fun _ => rfl) (by simp) (by simp) rfl
  | string hmax =>
    exact carries_instruction (by simp [Plain]) hmax (fun _ => Context.addString_lt hg hfits)
      hfloor (fun _ => rfl) (by simp) (by simp) rfl
  | var hresolves =>
    simp only [namesOfAll, names, List.append_nil, List.mem_singleton] at hnames
    exact (hresolves.carries (Ne.symm hnames) hg hrooted hfits hwithin hfloor).1
  | assign hresolves hvalue ih =>
    simp only [namesOfAll, names, List.append_nil, List.mem_cons, not_or] at hnames ih
    have hmid := hvalue.grows.scope.toWidens.fits hfits
    exact (ih (by simp) hnames.2 (hresolves.sound hg)
      (hrooted.grows hresolves.grows.scope.locals) hfits (hwithin.grows hresolves.grows)
      hfloor).append (hresolves.carries (Ne.symm hnames.1) hg hrooted hmid hwithin hfloor).2
  | unary _ ih =>
    simp only [namesOfAll, names, List.append_nil] at hnames ih
    exact (ih (by simp) hnames hg hrooted hfits hwithin hfloor).append
      (UnaryOperator.carries _ hfloor)
  | binary hleft hright ih ih' =>
    simp only [namesOfAll, names, List.append_nil, List.mem_append, not_or] at hnames ih ih'
    have hmid := hright.grows.scope.toWidens.fits hfits
    have hl := ih (by simp) hnames.1 hg hrooted hmid hwithin hfloor
    have hr := ih' (by simp) hnames.2 (hleft.sound hg) (hrooted.grows hleft.grows.scope.locals)
      hfits ((hwithin.grows hleft.grows).mono (Nat.le_add_right h 1)) (Nat.le_succ_of_le hfloor)
    exact (hl.append (hr.weaken (fun _ _ => trivial) fun _ => id)).append
      (BinaryOperator.carries _ hfloor)
  | and hleft hright hmax ih ih' =>
    simp only [namesOfAll, names, List.append_nil, List.mem_append, not_or] at hnames ih ih'
    have hmid := hright.grows.scope.toWidens.fits hfits
    exact carries_and (ih (by simp) hnames.1 hg hrooted hmid hwithin hfloor)
      (ih' (by simp) hnames.2 (hleft.sound hg) (hrooted.grows hleft.grows.scope.locals) hfits
        (hwithin.grows hleft.grows) hfloor) hfloor hmax
  | or hleft hright hmax ih ih' =>
    simp only [namesOfAll, names, List.append_nil, List.mem_append, not_or] at hnames ih ih'
    have hmid := hright.grows.scope.toWidens.fits hfits
    exact carries_or (ih (by simp) hnames.1 hg hrooted hmid hwithin hfloor)
      (ih' (by simp) hnames.2 (hleft.sound hg) (hrooted.grows hleft.grows.scope.locals) hfits
        (hwithin.grows hleft.grows) hfloor) hfloor hmax
  | @call g g' f args c line hall hmax ih =>
    simp only [namesOfAll, names, List.append_nil] at hnames ih
    have hargs : args.length < 256 := by
      have : maxArguments = 255 := rfl
      omega
    refine (ih (by simp) hnames hg hrooted hfits hwithin hfloor).append ?_
    refine carries_instruction trivial hargs (fun _ => trivial) ?_ (fun _ => rfl) (by simp)
      (by simp) ?_
    · simp only [Instruction.takes, List.length_cons]
      omega
    · simp only [Instruction.takes, Instruction.gives, List.length_cons, List.length_nil]
      omega

/-- The condition of a for loop leads into the loop, or with its value behind the loop. -/
lemma Expr.EmitsCondition.carries {g g' : Context} {condition : Option Expr} {after : Nat}
    {c : Code} (hcondition : EmitsCondition g condition after c g')
    (hnamed : ∀ e ∈ condition, e.Named) (hg : g.Sound) (hrooted : Rooted g.scope.locals)
    (hfits : g'.scope.Fits w upvalues) (hwithin : g.Within h) (hfloor : arity + 1 ≤ h) :
    ∃ a : Chart, a.code = c ∧ ∀ (o : Nat) (B : Place → Prop), (∀ q ∈ a.places o, B q) →
      Arrives B Plain (o + c.size) h →
      (condition.isSome → Arrives B Any (o + c.size + after) (h + 1)) →
      Arrives B Plain o h ∧ ∀ q ∈ a.places o, q.Leads w upvalues arity B := by
  cases hcondition with
  | none => exact ⟨[], rfl, fun o B _ hin _ => ⟨hin, by simp⟩⟩
  | @some _ _ e c line line' he hmax =>
    obtain ⟨a, rfl, ha⟩ := he.carries (by simp) (namesOfAll_singleton (hnamed _ rfl)) hg hrooted
      hfits hwithin hfloor
    refine ⟨a ++ [((⟨.jumpIfFalse, 1 + after⟩, line), h + 1), ((⟨.pop, 0⟩, line'), h + 1)],
      by simp, fun o B hB hin hout => ?_⟩
    simp only [Chart.places_append, Chart.places_cons, Chart.places_nil, List.forall_mem_append,
      List.forall_mem_cons, Code.size_append, Code.size_cons, Code.size_nil,
      Instruction.size_jumpIfFalse, Instruction.size_pop, Option.isSome_some, forall_const]
      at hB hin hout ⊢
    obtain ⟨hBa, hjump, hpop, -⟩ := hB
    obtain ⟨hstart, ha⟩ := ha o B hBa ⟨_, trivial, hjump⟩
    refine ⟨hstart, ha, ?_, leads_pop hfloor (hin.any.at_eq (by omega)), by simp⟩
    exact leads_jumpIfFalse hmax hfloor ⟨_, trivial, hpop⟩ (hout.at_eq (by omega))

/-- The increment of a for loop is skipped on the way to the body, and leads from where the body
jumps back to the beginning of the condition. -/
lemma Expr.EmitsIncrement.carries {g g' : Context} {increment : Option Expr} {before back : Nat}
    {c : Code} (hincrement : EmitsIncrement g increment before c g' back)
    (hnamed : ∀ e ∈ increment, e.Named) (hg : g.Sound) (hrooted : Rooted g.scope.locals)
    (hfits : g'.scope.Fits w upvalues) (hwithin : g.Within h) (hfloor : arity + 1 ≤ h) :
    ∃ a : Chart, a.code = c ∧ ∀ (o : Nat) (B : Place → Prop), (∀ q ∈ a.places (o + before), B q) →
      Arrives B Plain (o + before + c.size) h →
      Arrives B Plain (o + before) h ∧ (Arrives B Plain o h →
        Arrives B Plain (o + before + c.size - back) h ∧
        ∀ q ∈ a.places (o + before), q.Leads w upvalues arity B) := by
  cases hincrement with
  | none => exact ⟨[], rfl, fun o B _ hin => ⟨hin, fun hstart => ⟨by simpa using hstart, by simp⟩⟩⟩
  | @some _ _ e c line line' line'' he hmax hmax' =>
    obtain ⟨a, rfl, ha⟩ := he.carries (by simp) (namesOfAll_singleton (hnamed _ rfl)) hg hrooted
      hfits hwithin hfloor
    refine ⟨((⟨.jump, a.code.size + 4⟩, line), h) :: a ++
      [((⟨.pop, 0⟩, line'), h + 1), ((⟨.loop, before + a.code.size + 7⟩, line''), h)],
      by simp, fun o B hB hin => ?_⟩
    simp only [List.cons_append, Chart.places_append, Chart.places_cons, Chart.places_nil,
      List.forall_mem_append, List.forall_mem_cons, Code.size_append, Code.size_cons,
      Code.size_nil, Instruction.size_jump, Instruction.size_loop, Instruction.size_pop]
      at hB hin ⊢
    obtain ⟨hjump, hBa, hpop, hloop, -⟩ := hB
    obtain ⟨hvalue, ha⟩ := ha _ B hBa ⟨_, trivial, hpop⟩
    refine ⟨⟨_, by simp [Plain], hjump⟩, fun hstart => ⟨hvalue.at_eq (by omega), ?_, ha, ?_, ?_,
      by simp⟩⟩
    · exact leads_jump hmax hfloor (hin.any.at_eq (by omega))
    · exact leads_pop hfloor ⟨_, trivial, hloop⟩
    · exact leads_loop hmax' (by omega) hfloor (hstart.any.at_eq (by omega))

end Expressions

namespace Compiler

/-! ## Statements -/

section Statements

variable {w : Chunk} {upvalues arity : Nat} {g g₁ g₂ g₃ : Context} {h : Nat}

/-- The loop of a for statement, without its initializer. -/
lemma carries_for {condition increment : Option Expr} {c d d' : Code} {back : Nat}
    (hcondition : Expr.EmitsCondition g condition (d.size + d'.size + 3) c g₁)
    (hincrement : Expr.EmitsIncrement g₁ increment c.size d g₂ back)
    (hbody : Carries w upvalues arity Plain h d' Plain h) (hnamed : ∀ e ∈ condition, e.Named)
    (hnamed' : ∀ e ∈ increment, e.Named) (hg : g.Sound) (hrooted : Rooted g.scope.locals)
    (hfits : g₂.scope.Fits w upvalues) (hwithin : g.Within h) (hfloor : arity + 1 ≤ h)
    (hmax : back + d'.size + 3 ≤ Chunk.maxShort) (l₁ l₂ : UInt32) :
    Carries w upvalues arity Plain h
      (c ++ d ++ d' ++ (⟨.loop, back + d'.size + 3⟩, l₁) :: exitCode condition l₂) Plain h := by
  have hback := hincrement.back_le
  obtain ⟨a, rfl, ha⟩ := hcondition.carries hnamed hg hrooted
    (hincrement.grows.scope.toWidens.fits hfits) hwithin hfloor
  obtain ⟨b, rfl, hb⟩ := hincrement.carries hnamed' (hcondition.sound hg)
    (hrooted.grows hcondition.grows.scope.locals) hfits (hwithin.grows hcondition.grows) hfloor
  obtain ⟨b', rfl, hb'⟩ := hbody
  -- The jump out of the loop leaves the value of the condition, which is dropped.
  obtain ⟨exit, hexitCode, hexits⟩ : ∃ exit : Chart, exit.code = exitCode condition l₂ ∧
      ∀ (o : Nat) (B : Place → Prop), (∀ q ∈ exit.places o, B q) →
        Arrives B Plain (o + exit.code.size) h →
        (condition.isSome → Arrives B Any o (h + 1)) ∧
        ∀ q ∈ exit.places o, q.Leads w upvalues arity B := by
    cases condition with
    | none => exact ⟨[], rfl, by simp⟩
    | some e =>
      refine ⟨[((⟨.pop, 0⟩, l₂), h + 1)], rfl, fun o B hB hexit => ?_⟩
      simp only [Chart.places_cons, Chart.places_nil, List.forall_mem_singleton] at hB ⊢
      exact ⟨fun _ => ⟨_, trivial, hB⟩, leads_pop hfloor hexit.any⟩
  refine ⟨a ++ b ++ b' ++ ((⟨.loop, back + b'.code.size + 3⟩, l₁), h) :: exit,
    by simp [hexitCode], fun o B hB hexit => ?_⟩
  rw [← hexitCode] at hexit
  simp only [Chart.places_append, Chart.places_cons, Chart.code_append, List.forall_mem_append,
    List.forall_mem_cons, Code.size_append, Code.size_cons, Instruction.size_loop] at hB hexit ⊢
  obtain ⟨⟨⟨hBa, hBb⟩, hBb'⟩, hloop, hBexit⟩ := hB
  obtain ⟨hout, hexits⟩ := hexits _ B hBexit (hexit.at_eq (by omega))
  have hend : Arrives B Plain _ h := ⟨_, by simp [Plain], hloop⟩
  obtain ⟨hin, hb'⟩ := hb' _ B hBb' (hend.at_eq (by omega))
  obtain ⟨hskip, hb⟩ := hb o B hBb (hin.at_eq (by omega))
  obtain ⟨hstart, ha⟩ := ha o B hBa hskip fun hsome => (hout hsome).at_eq (by omega)
  obtain ⟨hagain, hb⟩ := hb hstart
  refine ⟨hstart, ⟨⟨ha, hb⟩, hb'⟩, ?_, hexits⟩
  exact leads_loop hmax (by omega) hfloor (hagain.any.at_eq (by omega))

/-- Locals are dropped one by one. -/
lemma carries_dropCode (hfloor : arity + 1 ≤ h) (ls : List Local) (line : UInt32) :
    Carries w upvalues arity Plain (h + ls.length) (dropCode ls line) Plain h := by
  induction ls with
  | nil => exact carries_nil
  | cons l ls ih =>
    have hdrop : Carries w upvalues arity Plain (h + ls.length + 1)
        [(⟨if l.captured then .closeUpvalue else .pop, 0⟩, line)] Plain (h + ls.length) := by
      have hfloor' : arity + 1 + 1 ≤ h + ls.length + 1 := by omega
      split <;> exact carries_instruction (by simp [Plain]) rfl (fun _ => trivial) hfloor'
        (fun _ => rfl) (by simp) (by simp) rfl
    exact hdrop.append ih

/-- An expression on top of the locals. -/
lemma carries_expression {e : Expr} {c : Code} (he : Expr.Emits g [e] c g₁) (hnamed : e.Named)
    (hg : g.Sound) (ht : g.Tidy) (hfits : g₁.scope.Fits w upvalues)
    (hfloor : arity + 1 ≤ g.scope.locals.length) :
    Carries w upvalues arity Plain g.scope.locals.length c Any (g.scope.locals.length + 1) :=
  he.carries (by simp) (Expr.namesOfAll_singleton hnamed) hg ht.scope.rooted hfits g.within_length
    hfloor

/-- An instruction that consumes the value of an expression. -/
lemma carries_consume {e : Expr} {c : Code} {op : Opcode} {line : UInt32}
    (he : Expr.Emits g [e] c g₁) (hnamed : e.Named) (hg : g.Sound) (ht : g.Tidy)
    (hfits : g₁.scope.Fits w upvalues) (hfloor : arity + 1 ≤ g.scope.locals.length)
    (hop : op = .print ∨ op = .pop ∨ op = .ret) :
    Carries w upvalues arity Plain g.scope.locals.length (c ++ [(⟨op, 0⟩, line)]) Plain
      g₁.scope.locals.length := by
  have hfloor' : arity + 1 + 1 ≤ g.scope.locals.length + 1 := Nat.succ_le_succ hfloor
  rw [← he.grows.scope.locals.length_eq]
  refine (carries_expression he hnamed hg ht hfits hfloor).append ?_
  rcases hop with rfl | rfl | rfl
  · exact carries_instruction trivial rfl (fun _ => trivial) hfloor' (fun _ => rfl) (by simp)
      (by simp) rfl
  · exact carries_instruction trivial rfl (fun _ => trivial) hfloor' (fun _ => rfl) (by simp)
      (by simp) rfl
  · -- Nothing follows a return.
    refine ⟨[((⟨.ret, 0⟩, line), g.scope.locals.length + 1)], rfl, fun o B hB _ => ?_⟩
    simp only [Chart.places_cons, Chart.places_nil, List.forall_mem_singleton] at hB ⊢
    exact ⟨⟨_, trivial, hB⟩, rfl, trivial, hfloor', by simp, by simp,
      by simp [Instruction.successors]⟩

lemma carries_defineGlobal {name : Text} {line : UInt32} (hg : g.Sound)
    (hmax : (g.addString name).1 ≤ Chunk.maxShort)
    (hfits : (g.addString name).2.scope.Fits w upvalues) (hfloor : arity + 1 ≤ h) :
    Carries w upvalues arity Any (h + 1) (defineCode (some (g.addString name).1) line) Plain h :=
  carries_instruction trivial hmax (fun _ => Context.addString_lt hg hfits)
    (Nat.succ_le_succ hfloor) (fun _ => rfl) (by simp) (by simp) rfl

variable {name : Text} {global? : Option Nat} {c : Code} {line line' : UInt32}

lemma carries_declareVar {e : Expr} (hnames : g.Names name global? g₁)
    (he : Expr.Emits g₁ [e] c g₂) (hnamed : e.Named) (hg : g.Sound) (ht : g.Tidy)
    (hfits : g₂.complete.scope.Fits w upvalues) (hfloor : arity + 1 ≤ g.scope.locals.length) :
    Carries w upvalues arity Plain g.scope.locals.length (c ++ defineCode global? line) Plain
      g₂.complete.scope.locals.length := by
  replace hfits := g₂.widens_complete.scope.fits hfits
  rw [Context.length_complete, ← he.grows.scope.locals.length_eq]
  cases hnames with
  | ofLocal hpos hadmits =>
    -- The value stays on the stack and becomes the local.
    have hvalue := he.carries (by simp) (Expr.namesOfAll_singleton hnamed) (hg.declare hadmits)
      (ht.declare name).scope.rooted hfits (g.within_declare name) hfloor
    rw [defineCode, List.append_nil]
    exact hvalue.weaken (fun _ => id) fun _ _ => trivial
  | ofGlobal hzero hmax =>
    have hvalue := carries_expression he hnamed (hg.addString name) (ht.addString name) hfits hfloor
    exact hvalue.append (carries_defineGlobal hg hmax (he.grows.scope.toWidens.fits hfits) hfloor)

/-- A function can get at what it captures where it is declared. -/
lemma attaches_of_links {f outer : FunctionScope} {j : Instruction} (hlinks : f.Links outer)
    (hf : f.Tidy) (hlength : outer.locals.length ≤ h + 1)
    (hself : outer.locals.length = h + 1 → j.Plain) : (f.prototypeOf c line).Attaches h j := by
  intro capture hmem hlocal
  have hlink := hlinks capture hmem
  rw [if_pos hlocal] at hlink
  obtain ⟨l, hl, -⟩ := hlink
  have hlt := slot_lt hl
  exact ⟨hf.slots capture hmem hlocal, by omega, fun heq => hself (by omega)⟩

lemma carries_declareFun {f outer : FunctionScope} {rest : List FunctionScope} {line'' : UInt32}
    (hnames : g.Names name global? g₁) (hg : g.Sound) (hlinks : f.Links outer) (hf : f.Tidy)
    (hgrows : g₁.complete.scope.Grows outer)
    (hmax : outer.chunk.functions.size ≤ Chunk.maxShort)
    (hfits : (Context.addFunction ⟨outer, rest⟩
      (f.prototypeOf c line'')).2.complete.scope.Fits w upvalues)
    (hfloor : arity + 1 ≤ g.scope.locals.length) :
    Carries w upvalues arity Plain g.scope.locals.length
      ((⟨.closure, outer.chunk.functions.size⟩, line) :: defineCode global? line') Plain
      (Context.addFunction ⟨outer, rest⟩
        (f.prototypeOf c line'')).2.complete.scope.locals.length := by
  replace hfits := (Context.widens_complete _).scope.fits hfits
  have hfunction : w.functions[outer.chunk.functions.size]? = some (f.prototypeOf c line'') := by
    obtain ⟨more, hmore⟩ := hfits.functions
    rw [← Array.getElem?_toList, ← hmore]
    simp [Context.addFunction, Context.mapChunk, Chunk.addFunction]
  have hrange : ∀ next, Instruction.InRange w upvalues next
      ⟨.closure, outer.chunk.functions.size⟩ := by
    refine fun _ => ⟨_, hfunction, fun capture hmem hlocal => ?_⟩
    have hlink := hlinks capture hmem
    rw [if_neg (by simp [hlocal])] at hlink
    exact Nat.lt_of_lt_of_le hlink hfits.captures
  have hlength : outer.locals.length = g₁.scope.locals.length := by
    rw [← g₁.length_complete]
    exact hgrows.locals.length_eq.symm
  -- The closure is followed by an instruction that must not define a global if the closure is to
  -- stay as a local.
  have hclosure : ∀ {Q : Instruction → Prop},
      (outer.locals.length = g.scope.locals.length + 1 → ∀ j, Q j → j.Plain) →
      outer.locals.length ≤ g.scope.locals.length + 1 →
      Carries w upvalues arity Plain g.scope.locals.length
        [(⟨.closure, outer.chunk.functions.size⟩, line)] Q (g.scope.locals.length + 1) := by
    intro Q hself hle
    refine ⟨[((⟨.closure, outer.chunk.functions.size⟩, line), g.scope.locals.length)], rfl,
      fun o B hB hexit => ?_⟩
    simp only [Chart.places_cons, Chart.places_nil, List.forall_mem_singleton] at hB ⊢
    obtain ⟨j, hj, hnext⟩ := hexit
    refine ⟨⟨_, by simp [Plain], hB⟩, hmax, hrange _, hfloor, by simp, fun _ => ?_, ?_⟩
    · exact ⟨_, j, hfunction, attaches_of_links hlinks hf hle fun heq => hself heq j hj, hnext⟩
    · intro t ht
      rw [List.mem_singleton.1 ht]
      exact ⟨j, hnext⟩
  rw [Context.length_complete]
  change Carries _ _ _ _ _ _ _ outer.locals.length
  cases hnames with
  | ofLocal hpos _ =>
    have hone : outer.locals.length = g.scope.locals.length + 1 := hlength
    rw [hone]
    exact hclosure (fun _ _ => id) (Nat.le_of_eq hone)
  | ofGlobal hzero hstring =>
    have hsame : outer.locals.length = g.scope.locals.length := hlength
    have hwidens : (g.addString name).2.scope.Widens outer :=
      (Context.widens_complete _).scope.trans hgrows.toWidens
    have hfits' : outer.Fits w upvalues :=
      (Context.grows_addFunction ⟨outer, rest⟩ _).scope.toWidens.fits hfits
    rw [hsame]
    exact (hclosure (Q := Any) (by omega) (by omega)).append
      (carries_defineGlobal hg hstring (hwidens.fits hfits') hfloor)

lemma fits_of_endScope (hfits : g.endScope.scope.Fits w upvalues) : g.scope.Fits w upvalues := by
  have hwidens : g.scope.Widens g.endScope.scope := .of_eq rfl rfl rfl rfl
  exact hwidens.fits hfits

/-- The locals of a block are dropped at its end. -/
lemma carries_block (hbody : Carries w upvalues arity Plain g.beginScope.scope.locals.length c Plain
      g₁.scope.locals.length) (hkeeps : g.Keeps g₁.endScope)
    (hfloor : arity + 1 ≤ g.scope.locals.length) (line : UInt32) :
    Carries w upvalues arity Plain g.scope.locals.length (c ++ dropCode g₁.leaving line) Plain
      g₁.endScope.scope.locals.length := by
  have hlocals : g₁.scope.locals.length =
      g₁.endScope.scope.locals.length + g₁.leaving.length := by
    rw [Nat.add_comm, ← List.length_append, ← g₁.locals_eq_leaving_append]
  rw [hlocals] at hbody
  refine hbody.append (carries_dropCode ?_ g₁.leaving line)
  rwa [← hkeeps.length_eq]

/-! ## Functions -/

/-- The body of a function is charted on to the return behind it, which needs nothing behind it. -/
lemma exists_chart_return {w : Chunk} {upvalues arity : Nat}
    (hbody : Carries w upvalues arity Plain (arity + 1) c Plain h) (hfloor : arity + 1 ≤ h) (line : UInt32) :
    ∃ b : Chart, b.code = c ++ returnCode line ∧
      (∀ q ∈ b.places 0, q.Leads w upvalues arity (· ∈ b.places 0)) ∧
      (∃ i, ⟨0, i, arity + 1⟩ ∈ b.places 0) ∧ ⟨c.size, ⟨.loadNil, 0⟩, h⟩ ∈ b.places 0 := by
  obtain ⟨a, rfl, ha⟩ := hbody
  let b : Chart := a ++ [((⟨.loadNil, 0⟩, line), h), ((⟨.ret, 0⟩, line), h + 1)]
  have hplaces : b.places 0 = a.places 0 ++ [⟨0 + a.code.size, ⟨.loadNil, 0⟩, h⟩,
      ⟨0 + a.code.size + 1, ⟨.ret, 0⟩, h + 1⟩] := by
    simp [b, Instruction.size, Opcode.size, Opcode.operandWidth]
  obtain ⟨⟨i, -, hstart⟩, hleads⟩ := ha 0 (· ∈ b.places 0) (by simp +contextual [hplaces])
    ⟨⟨.loadNil, 0⟩, by simp [Plain], by rw [hplaces]; simp⟩
  refine ⟨b, by simp [b, returnCode], fun q hq => ?_, ⟨i, hstart⟩, by rw [hplaces]; simp⟩
  rw [hplaces, List.mem_append, List.mem_cons, List.mem_singleton] at hq
  rcases hq with hq | rfl | rfl
  · exact hleads q hq
  · refine ⟨rfl, trivial, by simp [Instruction.takes]; omega, by simp, by simp, fun t ht => ?_⟩
    rw [List.mem_singleton.1 ht]
    exact ⟨⟨.ret, 0⟩, by rw [hplaces]; simp [Place.next, Instruction.size, Opcode.size,
      Opcode.operandWidth, Instruction.takes, Instruction.gives]⟩
  · exact ⟨rfl, trivial, by simp [Instruction.takes]; omega, by simp, by simp,
      by simp [Instruction.successors]⟩

lemma code_prototypeOf (hg : g₁.Sound) (c : Code) : (g₁.scope.chunk.append c).code.toList = c.bytes := by
  simp [Chunk.append, hg.scope.code]

/-- A function whose body can be charted is well formed and balanced. -/
lemma regular_prototypeOf (hbody : ∀ {w : Chunk} {upvalues : Nat}, g₁.scope.Fits w upvalues →
      Carries w upvalues g₁.scope.arity Plain g.scope.locals.length c Plain g₁.scope.locals.length)
    (hg : g₁.Sound) (ht : g₁.Tidy) (hext : g.Extends g₁)
    (hlength : g.scope.locals.length = g₁.scope.arity + 1) (harity : g₁.scope.arity ≤ maxArguments)
    (line : UInt32) : (g₁.scope.prototypeOf c line).WellFormed ∧
      (g₁.scope.prototypeOf c line).Balanced := by
  have hcarries := hbody (g₁.scope.fits_append (c ++ returnCode line))
  have hle := hext.length_le
  rw [hlength] at hcarries hle
  obtain ⟨b, hb, hall, hstart, -⟩ := exists_chart_return hcarries hle line
  have hcode : (g₁.scope.chunk.append (c ++ returnCode line)).code.toList = b.code.bytes := by
    rw [hb, code_prototypeOf hg]
  have hlines : (g₁.scope.chunk.append (c ++ returnCode line)).lines.toList = b.code.lines := by
    rw [hb]
    simp [Chunk.append, ht.scope.lines]
  constructor
  · refine .mk rfl rfl harity hg.scope.captures ht.scope.captures ?_
      fun p hp => (ht.scope.functions p hp).1
    exact Chart.wellFormed hcode hall hlines hb ht.scope.constants.nodup ht.scope.strings.nodup
  · refine .mk rfl rfl (Chart.balanced hcode hall hstart)
      fun p hp => (ht.scope.functions p hp).2

end Statements

end Compiler

/-- The code of a statement can be charted, and leaves a tidy context. -/
theorem Stmt.Emits.charted {g g' : Context} {s : Stmt} {c : Code} (h : Emits g s c g')
    (hset : g.Settled) (hs : s.Structured) (hnamed : s.AllExprs Expr.Named) (hg : g.Sound)
    (ht : g.Tidy) (hfloor : g.scope.arity + 1 ≤ g.scope.locals.length) :
    g'.Tidy ∧ ∀ {w : Chunk} {upvalues : Nat}, g'.scope.Fits w upvalues →
      Carries w upvalues g.scope.arity Plain g.scope.locals.length c Plain
        g'.scope.locals.length := by
  induction h with
  | skip => exact ⟨ht, fun _ => carries_nil⟩
  | seq hfirst hrest ih ih' =>
    obtain ⟨htidy, hcarries⟩ := ih hset hs.1 hnamed.1 hg ht hfloor
    have hext := (hfirst.extends hset hs.1).1
    have hsound := (hfirst.verified hset hs.1 hg).1
    have harity := hfirst.widens.arity
    obtain ⟨htidy', hcarries'⟩ := ih' hext.settled hs.2 hnamed.2 hsound htidy
      (harity ▸ Nat.le_trans hfloor hext.length_le)
    rw [harity] at hcarries'
    exact ⟨htidy', fun hfits => (hcarries (hrest.widens.scope.fits hfits)).append (hcarries' hfits)⟩
  | declareVar hnames he =>
    exact ⟨(he.tidy (Expr.namesOfAll_singleton hnamed) (hnames.tidy ht)).complete,
      fun hfits => carries_declareVar hnames he hnamed hg ht hfits hfloor⟩
  | @declareFun g g₁ g₂ g₃ name _ _ body c outer rest _ _ line hnames htakes hbody houter hmax ih =>
    have htidy₂ := htakes.tidy ((hnames.tidy ht).complete.enter name)
    obtain ⟨hsound₂, hlength⟩ := htakes.spec ((hnames.sound hg).complete.enter name) rfl
    have hset₂ := htakes.settled (Context.settled_enter _ _) Nat.one_pos
    obtain ⟨htidy₃, hcarries⟩ := ih hset₂ hs hnamed hsound₂ htidy₂ (Nat.le_of_eq hlength.symm)
    have hsound₃ := (hbody.verified hset₂ hs hsound₂).1
    have harity := hbody.widens.arity
    rw [← harity] at hcarries hlength
    have hprototype := regular_prototypeOf hcarries hsound₃ htidy₃ (hbody.extends hset₂ hs).1
      hlength (harity ▸ htakes.arity_le (Nat.zero_le _)) line
    have hgrow := hbody.widens.enclosing
    rw [htakes.enclosing, houter] at hgrow
    obtain ⟨hscope, -⟩ := List.forall₂_cons.1 hgrow
    have hlinked := hsound₃.linked
    rw [houter] at hlinked
    obtain ⟨hlinks, -⟩ := List.isChain_cons_cons.1 hlinked
    have houtside : Context.Tidy ⟨outer, rest⟩ :=
      fun f hf => htidy₃ f (List.mem_cons_of_mem _ (houter ▸ hf))
    exact ⟨(houtside.addFunction hprototype).complete, fun hfits =>
      carries_declareFun hnames hg hlinks htidy₃.scope hscope hmax hfits hfloor⟩
  | print he =>
    exact ⟨he.tidy (Expr.namesOfAll_singleton hnamed) ht, fun hfits =>
      carries_consume he hnamed hg ht hfits hfloor (by simp)⟩
  | discard he =>
    exact ⟨he.tidy (Expr.namesOfAll_singleton hnamed) ht, fun hfits =>
      carries_consume he hnamed hg ht hfits hfloor (by simp)⟩
  | echo he =>
    exact ⟨he.tidy (Expr.namesOfAll_singleton hnamed) ht, fun hfits =>
      carries_consume he hnamed hg ht hfits hfloor (by simp)⟩
  | ret _ he =>
    exact ⟨he.tidy (Expr.namesOfAll_singleton hnamed) ht, fun hfits =>
      carries_consume he hnamed hg ht hfits hfloor (by simp)⟩
  | branch he hyes hno hmax hmax' ih ih' =>
    have hkeeps₁ := Context.Keeps.of_grows hset he.grows
    have hkeeps₂ := (hyes.extends hkeeps₁.settled hs.2.1).2 hs.1
    have hkeeps₃ := (hno.extends hkeeps₂.settled hs.2.2.2).2 hs.2.2.1
    have hsound₁ := he.sound hg
    have htidy₁ := he.tidy (Expr.namesOfAll_singleton hnamed.1) ht
    have harity₁ := he.grows.scope.arity
    obtain ⟨htidy₂, hcarries⟩ := ih hkeeps₁.settled hs.2.1 hnamed.2.1 hsound₁ htidy₁
      (by rwa [harity₁, ← hkeeps₁.length_eq])
    obtain ⟨htidy₃, hcarries'⟩ := ih' hkeeps₂.settled hs.2.2.2 hnamed.2.2
      (hyes.verified hkeeps₁.settled hs.2.1 hsound₁).1 htidy₂
      (by rwa [hyes.widens.arity, harity₁, ← hkeeps₂.length_eq, ← hkeeps₁.length_eq])
    rw [harity₁, ← hkeeps₂.length_eq, ← hkeeps₁.length_eq] at hcarries
    rw [hyes.widens.arity, harity₁, ← hkeeps₃.length_eq, ← hkeeps₂.length_eq,
      ← hkeeps₁.length_eq] at hcarries'
    refine ⟨htidy₃, fun hfits => ?_⟩
    rw [← hkeeps₃.length_eq, ← hkeeps₂.length_eq, ← hkeeps₁.length_eq]
    have hfits₂ := hno.widens.scope.fits hfits
    have hfits₁ := hyes.widens.scope.fits hfits₂
    exact carries_branch (carries_expression he hnamed.1 hg ht hfits₁ hfloor) (hcarries hfits₂)
      (hcarries' hfits) hfloor hmax hmax'
  | whileLoop he hbody hmax hmax' ih =>
    have hkeeps₁ := Context.Keeps.of_grows hset he.grows
    have hkeeps₂ := (hbody.extends hkeeps₁.settled hs.2).2 hs.1
    have harity₁ := he.grows.scope.arity
    obtain ⟨htidy₂, hcarries⟩ := ih hkeeps₁.settled hs.2 hnamed.2 (he.sound hg)
      (he.tidy (Expr.namesOfAll_singleton hnamed.1) ht) (by rwa [harity₁, ← hkeeps₁.length_eq])
    rw [harity₁, ← hkeeps₂.length_eq, ← hkeeps₁.length_eq] at hcarries
    refine ⟨htidy₂, fun hfits => ?_⟩
    rw [← hkeeps₂.length_eq, ← hkeeps₁.length_eq]
    exact carries_while (carries_expression he hnamed.1 hg ht (hbody.widens.scope.fits hfits) hfloor)
      (hcarries hfits) hfloor hmax hmax'
  | @forLoop g g₁ g₂ g₃ g₄ init body condition increment c₁ c₂ c₃ c₄ back l₁ l₂ l₃ hinit hcond hinc
      hbody hmax ih ih' =>
    obtain ⟨htidy₁, hcarries⟩ := ih hset.beginScope hs.1 hnamed.1 hg.beginScope ht.beginScope hfloor
    have hext := (hinit.extends hset.beginScope hs.1).1
    have hsound₁ := (hinit.verified hset.beginScope hs.1 hg.beginScope).1
    have harity₁ : g₁.scope.arity = g.scope.arity := hinit.widens.arity
    have hfloor₁ : g.scope.arity + 1 ≤ g₁.scope.locals.length := Nat.le_trans hfloor hext.length_le
    have hkeeps₂ := Context.Keeps.of_grows hext.settled hcond.grows
    have hkeeps₃ := Context.Keeps.of_grows hkeeps₂.settled hinc.grows
    have hkeeps₄ := (hbody.extends hkeeps₃.settled hs.2.2).2 hs.2.1
    have htidy₃ := hinc.tidy hnamed.2.2.1 (hcond.tidy hnamed.2.1 htidy₁)
    have harity₃ : g₃.scope.arity = g.scope.arity := by
      rw [hinc.grows.scope.arity, hcond.grows.scope.arity, harity₁]
    obtain ⟨htidy₄, hcarries'⟩ := ih' hkeeps₃.settled hs.2.2 hnamed.2.2.2
      (hinc.sound (hcond.sound hsound₁)) htidy₃
      (by rwa [harity₃, ← hkeeps₃.length_eq, ← hkeeps₂.length_eq])
    rw [harity₃, ← hkeeps₄.length_eq, ← hkeeps₃.length_eq, ← hkeeps₂.length_eq] at hcarries'
    have hkeeps := (hext.trans hinit.widens.depth
      (hkeeps₂.trans (hkeeps₃.trans hkeeps₄)).extends).of_block hset (by
        rw [hbody.widens.depth, hinc.grows.scope.depth, hcond.grows.scope.depth,
          hinit.widens.depth]
        rfl)
    refine ⟨ht.endScope htidy₄ hkeeps, fun hfits => ?_⟩
    have hfits₄ := fits_of_endScope hfits
    have hfits₃ := hbody.widens.scope.fits hfits₄
    have hfits₁ := hcond.grows.scope.toWidens.fits (hinc.grows.scope.toWidens.fits hfits₃)
    have hloop := carries_for hcond hinc (hcarries' hfits₄) hnamed.2.1 hnamed.2.2.1 hsound₁
      htidy₁.scope.rooted hfits₃ g₁.within_length hfloor₁ hmax l₁ l₂
    have hall := (hcarries hfits₁).append hloop
    rw [hkeeps₂.length_eq, hkeeps₃.length_eq, hkeeps₄.length_eq] at hall
    have hblock : Carries _ _ g.scope.arity _ _ _ _ _ := carries_block hall hkeeps hfloor l₃
    simpa only [List.append_assoc] using hblock
  | block hbody ih =>
    obtain ⟨htidy, hcarries⟩ := ih hset.beginScope hs hnamed hg.beginScope ht.beginScope hfloor
    have hkeeps := (hbody.extends hset.beginScope hs).1.of_block hset hbody.widens.depth
    refine ⟨ht.endScope htidy hkeeps, fun hfits => ?_⟩
    exact carries_block (hcarries (fits_of_endScope hfits)) hkeeps hfloor _

/-! ## Scripts -/

/-- The script of a program is well formed and balanced. -/
lemma regular_of_compile {interactive : Bool} {source : Text} {p : Prototype}
    (h : compile interactive source = .script p) : p.WellFormed ∧ p.Balanced := by
  obtain ⟨body, last, tree, c, g, line, htokens, -, hderives, -, -, hemits, rfl⟩ :=
    compile_eq_script h
  have hs := hderives.structured.1
  have hnamed := hderives.named_of_tokenize htokens
  have hset := Context.settled_script
  have hsound := Context.sound_script
  have htidy : Context.script.Tidy :=
    fun f hf => List.mem_singleton.1 hf ▸ FunctionScope.tidy_new .script []
  obtain ⟨htidy', hcarries⟩ := hemits.charted hset hs hnamed hsound htidy (Nat.le_refl _)
  have harity := hemits.widens.arity
  rw [← harity] at hcarries
  refine regular_prototypeOf hcarries (hemits.verified hset hs hsound).1 htidy'
    (hemits.extends hset hs).1 ?_ ?_ line
  · rw [harity]
    rfl
  · rw [harity]
    exact Nat.zero_le _

lemma captures_of_compile {interactive : Bool} {source : Text} {p : Prototype}
    (h : compile interactive source = .script p) : p.captures = #[] := by
  obtain ⟨body, last, tree, c, g, line, -, -, hderives, -, -, hemits, rfl⟩ := compile_eq_script h
  exact hemits.captures_script hderives.structured.1

/-- Every script that the compiler returns is well formed, with all functions in it. -/
theorem compile_wellFormed {interactive : Bool} {source : Text} {p : Prototype}
    (h : compile interactive source = .script p) : p.WellFormed :=
  (regular_of_compile h).1

/-- A loop around a closure that changes a captured variable. -/
theorem compile_wellFormed_counter :
    ∃ p, compile false "{ var n = 0; fun next() { n = n + 1; return n; } while (next() < 9) print n; }"
      = .script p ∧ p.WellFormed := by
  obtain ⟨p, hp⟩ := Compilation.exists_of_isSome (c := compile false
    "{ var n = 0; fun next() { n = n + 1; return n; } while (next() < 9) print n; }")
    (by decide +kernel)
  exact ⟨p, hp, compile_wellFormed hp⟩

/-- In every script that the compiler returns, and in all functions in it, the height of the stack
at an instruction does not depend on the way to it. -/
theorem compile_balanced {interactive : Bool} {source : Text} {p : Prototype}
    (h : compile interactive source = .script p) : p.Balanced :=
  (regular_of_compile h).2

/-- A function that captures itself, and two ways to the end of an expression. -/
theorem compile_balanced_knot :
    ∃ p, compile false "{ fun f(a) { if (a) return f; } print f(1) and 2 or f; }"
      = .script p ∧ p.Balanced := by
  obtain ⟨p, hp⟩ := Compilation.exists_of_isSome (c := compile false
    "{ fun f(a) { if (a) return f; } print f(1) and 2 or f; }") (by decide +kernel)
  exact ⟨p, hp, compile_balanced hp⟩

end Lox
