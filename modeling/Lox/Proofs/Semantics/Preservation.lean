import Lox.Proofs.Compiler.Charts
import Lox.Proofs.Semantics.Simulation
import Lox.Proofs.Semantics.Variables

/-!
# Compilation preserves meaning
-/

namespace Lox

open Compiler Machine

attribute [local simp] Expr.height Expr.eval Stmt.run

/-! ## Pools -/

namespace Compiler.Context

variable {g : Context} {w : Chunk} {upvalues : Nat}

lemma strings_get? {t : Text} (hg : g.Sound) (hfits : (g.addString t).2.scope.Fits w upvalues) :
    w.strings.get? (g.addString t).1 = some t :=
  Pool.get?_of_prefix hfits.strings (Pool.get?_add hg.scope.strings t)

lemma constants_get? {bits : UInt64} (hg : g.Sound)
    (hfits : (g.addConstant bits).2.scope.Fits w upvalues) :
    w.constants.get? (g.addConstant bits).1 = some bits :=
  Pool.get?_of_prefix hfits.constants (Pool.get?_add hg.scope.constants bits)

/-- There are few locals. -/
lemma Sees.length_le {names : List (List Text)} (h : g.Sees names) (hg : g.Sound) :
    (localsOf names).length ≤ FunctionScope.maxLocals := by
  obtain ⟨pending, hlocals, -⟩ := h.locals
  have hlength := hg.scope.locals
  rw [hlocals, List.length_append] at hlength
  omega

end Compiler.Context

/-! ## Expressions -/

/-- The code `c` evaluates the expression where there are variables of these names: it leaves the
value on top of the stack. -/
def Expr.Evaluates (natives : Natives) (before : List Text) (bound : Nat) (w : Chunk) (callee : Datum)
    (names : List (List Text)) (e : Expr) (c : Code) : Prop :=
  ∀ ⦃o : Nat⦄ ⦃temps : List Datum⦄ ⦃σ : Store⦄ ⦃m : Machine⦄, w.Holds o c → σ.names = names →
    m.Shows before w σ o (σ.values callee ++ temps) →
    (localsOf names).length + temps.length + e.height ≤ MachineConfig.standard.maxStack →
    m.Agrees natives before bound (e.eval σ) fun d σ' m' =>
      σ'.names = names ∧ m'.Shows before w σ' (o + c.size) (σ'.values callee ++ temps ++ [d])

namespace Expr

variable {natives : Natives} {before : List Text} {bound : Nat} {w : Chunk} {callee : Datum}
  {names : List (List Text)} {g g' : Context} {upvalues : Nat} {e l r : Expr} {c d : Code} {line : UInt32}

/-- The last instruction of an expression computes its value. -/
lemma agrees_last {o : Nat} {temps data : List Datum} {σ : Store} {m : Machine} {i : Instruction}
    {v : Except RuntimeError.Cause Datum} (hcode : w.Holds (o + c.size) [(i, line)])
    (hencodable : i.Encodable) (hnames : σ.names = names)
    (hm : m.Shows before w σ (o + c.size) data)
    (hexec : ∀ closure name m₁, m₁.Shows before w σ (o + c.size + i.size) data →
      Computes before w σ (o + c.size + i.size) (σ.values callee ++ temps)
        (execute natives ⟨closure, name, w, o + c.size + i.size, 0⟩ i) m₁ v) :
    m.Agrees natives before bound (EvalM.ofExcept v σ) fun d σ' m' => σ'.names = names ∧
      m'.Shows before w σ' (o + Code.size (c ++ [(i, line)])) (σ'.values callee ++ temps ++ [d]) := by
  refine (hm.agrees (hcode.decode hencodable) hexec).mono fun d σ' m' h => ?_
  obtain ⟨rfl, h⟩ := h
  rw [Code.size_append, Code.size_cons, Code.size_nil, Nat.add_zero, ← Nat.add_assoc]
  exact ⟨hnames, h⟩

lemma length_lt {σ : Store} {temps : List Datum} {n : Nat} (hnames : σ.names = names)
    (hroom : (localsOf names).length + temps.length + n ≤ MachineConfig.standard.maxStack)
    (hn : 0 < n) : (σ.values callee ++ temps).length < MachineConfig.standard.maxStack := by
  rw [List.length_append, σ.length_values callee, hnames]
  omega

lemma evaluates_literal (lit : Literal) : Evaluates natives before bound w callee names (.literal lit)
    [(⟨lit.opcode, 0⟩, line)] := by
  intro o temps σ m hcode hnames hm hroom
  have hencodable : Instruction.Encodable ⟨lit.opcode, 0⟩ := by cases lit <;> rfl
  rw [height] at hroom
  exact agrees_last (c := []) (v := .ok lit.datum) hcode hencodable hnames hm fun _ _ _ h₁ =>
    Shows.computes_literal (length_lt hnames hroom Nat.one_pos) lit h₁

lemma evaluates_number {digits : Text} {bits : UInt64}
    (hdigits : Number.readLiteral? digits = some bits)
    (hmax : (g.addConstant bits).1 ≤ Chunk.maxShort)  (hg : g.Sound)
    (hfits : (g.addConstant bits).2.scope.Fits w upvalues) :
    Evaluates natives before bound w callee names (.number digits)
      [(⟨.loadConstant, (g.addConstant bits).1⟩, line)] := by
  intro o temps σ m hcode hnames hm hroom
  have heval : (Expr.number digits).eval σ =
      EvalM.ofExcept (.ok (.number (Float.ofBits bits))) σ := by
    rw [eval, Datum.ofDigits, hdigits]
    rfl
  rw [height] at hroom
  rw [heval]
  exact agrees_last (c := []) hcode hmax hnames hm fun _ _ _ h₁ =>
    Shows.computes_loadConstant (length_lt hnames hroom Nat.one_pos)
      (Context.constants_get? hg hfits) h₁

lemma evaluates_string {t : Text} (hmax : (g.addString t).1 ≤ Chunk.maxShort) (hg : g.Sound)
    (hfits : (g.addString t).2.scope.Fits w upvalues) :
    Evaluates natives before bound w callee names (.string t)
      [(⟨.loadString, (g.addString t).1⟩, line)] := by
  intro o temps σ m hcode hnames hm hroom
  rw [height] at hroom
  exact agrees_last (c := []) (v := .ok (.string t)) hcode hmax hnames hm fun _ _ _ h₁ =>
    Shows.computes_loadString (length_lt hnames hroom Nat.one_pos)
      (Context.strings_get? hg hfits) h₁

lemma eval_var (name : Text) (σ : Store) : (Expr.var name).eval σ =
    EvalM.ofExcept ((σ.read? name).elim (.error (.undefinedVariable name)) .ok) σ := by
  rw [eval, EvalM.bind_apply, EvalM.get_apply]
  dsimp only
  cases σ.read? name <;> rfl

lemma evaluates_var {name : Text} {a : Access} (hr : g.Resolves name a g') (hname : name ≠ [])
    (hg : g.Sound) (hsees : g.Sees names) (hfits : g'.scope.Fits w upvalues) :
    Evaluates natives before bound w callee names (.var name) [(⟨a.read, a.operand⟩, line)] := by
  intro o temps σ m hcode hnames hm hroom
  rw [height] at hroom
  have hlt : (σ.values callee ++ temps).length < MachineConfig.standard.maxStack :=
    length_lt hnames hroom Nat.one_pos
  have hlocals := hsees.length_le hg
  rw [eval_var]
  rcases hsees.resolves hr with ⟨slot, loc, hfind, rfl, rfl⟩ | ⟨hfind, hmax, rfl, rfl⟩
  · rw [← hnames] at hfind
    obtain ⟨d, hread, hslot⟩ := Store.read?_local hname hfind callee
    have hbound := (List.getElem?_eq_some_iff.1 hslot).1
    have hshort : slot ≤ Chunk.maxShort := by
      rw [σ.length_values, hnames] at hbound
      have : FunctionScope.maxLocals ≤ Chunk.maxShort := by decide
      omega
    have hplace : (σ.values callee ++ temps)[slot]? = some d := by
      rw [List.getElem?_append_left hbound]
      exact hslot
    rw [hread]
    exact agrees_last (c := []) (v := .ok d) hcode hshort hnames hm fun _ _ _ h₁ =>
      Shows.computes_getLocal hlt rfl hplace h₁
  · rw [← hnames] at hfind
    rw [Store.read?_global hname hfind]
    exact agrees_last (c := []) hcode hmax hnames hm fun _ _ _ h₁ =>
      Shows.computes_getGlobal hlt (Context.strings_get? hg hfits) h₁

/-- What is left of an assignment when its value is known. -/
lemma eval_assign (name : Text) (e : Expr) : (Expr.assign name e).eval =
    e.eval >>= fun d σ => match σ.write? name d with
      | some σ' => .ok d σ'
      | none => .error (.failed (.undefinedVariable name)) σ := by
  rw [eval]
  congr 1
  funext d σ
  rw [EvalM.bind_apply, EvalM.get_apply]
  dsimp only
  cases σ.write? name d <;> rfl

lemma evaluates_assign {name : Text} {a : Access} (hr : g.Resolves name a g') (hname : name ≠ [])
    (hg : g.Sound) (hsees : g.Sees names) (hfits : g'.scope.Fits w upvalues)
    (he : Evaluates natives before bound w callee names e c) :
    Evaluates natives before bound w callee names (.assign name e)
      (c ++ [(⟨a.write, a.operand⟩, line)]) := by
  intro o temps σ m hcode hnames hm hroom
  obtain ⟨hc, hwrite⟩ := Chunk.holds_append.1 hcode
  rw [height] at hroom
  rw [eval_assign]
  refine (he hc hnames hm (by omega)).bind fun d σ₁ m₁ h₁ => ?_
  obtain ⟨hnames₁, h₁⟩ := h₁
  have hsize : o + Code.size (c ++ [(⟨a.write, a.operand⟩, line)]) = o + c.size + 3 := by
    rw [Code.size_append, Code.size_cons, Code.size_nil, Nat.add_assoc]
    rw [Instruction.size_of_width hr.operandWidth.2]
  rw [hsize]
  rcases hsees.resolves hr with ⟨slot, loc, hfind, rfl, rfl⟩ | ⟨hfind, hmax, rfl, rfl⟩
  · rw [← hnames₁] at hfind
    obtain ⟨_, -, hslot⟩ := Store.read?_local hname hfind callee
    have hlt := (List.getElem?_eq_some_iff.1 hslot).1
    have hshort : slot ≤ Chunk.maxShort := by
      rw [σ₁.length_values, hnames₁] at hlt
      have hlocals := hsees.length_le hg
      have : FunctionScope.maxLocals ≤ Chunk.maxShort := by decide
      omega
    obtain ⟨σ₂, hassign, hnames₂, hvalues, hglobals, hprinted⟩ :=
      Store.write?_local hname hfind callee d
    have hplace : slot < (σ₁.values callee ++ temps).length := by
      rw [List.length_append]
      omega
    obtain ⟨m₂, hlead, h₂⟩ := h₁.leads_setLocal natives hplace hwrite hshort
    rw [List.set_append_left _ _ hlt, ← hvalues] at h₂
    rw [hassign]
    exact ⟨1, m₂, hlead, hnames₂.trans hnames₁, h₂.of_eq hglobals hprinted⟩
  · rw [← hnames₁] at hfind
    have hstring := Context.strings_get? hg hfits
    rw [Store.write?_global hname hfind]
    by_cases hdefined : (σ₁.globals name).isSome
    · obtain ⟨m₂, hlead, h₂⟩ := h₁.leads_setGlobal natives hwrite hmax hstring hdefined
      rw [if_pos hdefined]
      exact ⟨1, m₂, hlead, hnames₁, h₂⟩
    · rw [if_neg hdefined]
      exact h₁.fails_setGlobal natives hwrite hmax hstring hdefined

lemma evaluates_unary (u : UnaryOperator) (he : Evaluates natives before bound w callee names e c) :
    Evaluates natives before bound w callee names (.unary u e) (c ++ [(⟨u.opcode, 0⟩, line)]) := by
  intro o temps σ m hcode hnames hm hroom
  obtain ⟨hc, hop⟩ := Chunk.holds_append.1 hcode
  have hencodable : Instruction.Encodable ⟨u.opcode, 0⟩ := by cases u <;> rfl
  rw [height] at hroom
  rw [eval]
  refine (he hc hnames hm (by omega)).bind fun a σ₁ m₁ h₁ => ?_
  exact agrees_last hop hencodable h₁.1 h₁.2 fun _ _ _ h₂ =>
    Shows.computes_unary (length_lt h₁.1 hroom (by omega)) u h₂

lemma evaluates_binary (b : BinaryOperator)
    (hl : Evaluates natives before bound w callee names l c)
    (hr : Evaluates natives before bound w callee names r d) :
    Evaluates natives before bound w callee names (.binary b l r)
      (c ++ d ++ [(⟨b.opcode, 0⟩, line)]) := by
  intro o temps σ m hcode hnames hm hroom
  obtain ⟨hcd, hop⟩ := Chunk.holds_append.1 hcode
  obtain ⟨hc, hd⟩ := Chunk.holds_append.1 hcd
  have hencodable : Instruction.Encodable ⟨b.opcode, 0⟩ := by cases b <;> rfl
  rw [height] at hroom
  rw [eval]
  refine (hl hc hnames hm (by omega)).bind fun x σ₁ m₁ h₁ => ?_
  obtain ⟨hnames₁, h₁⟩ := h₁
  rw [List.append_assoc] at h₁
  refine (hr hd hnames₁ h₁ (by rw [List.length_append, List.length_singleton]; omega)).bind
    fun y σ₂ m₂ h₂ => ?_
  obtain ⟨hnames₂, h₂⟩ := h₂
  rw [Nat.add_assoc, ← Code.size_append, ← List.append_assoc] at h₂
  exact agrees_last hop hencodable hnames₂ h₂ fun _ _ _ h₃ =>
    Shows.computes_binary (length_lt hnames₂ hroom (by omega)) b h₃

lemma evaluates_and {line' : UInt32} (hl : Evaluates natives before bound w callee names l c)
    (hr : Evaluates natives before bound w callee names r d) (hmax : 1 + d.size ≤ Chunk.maxShort) :
    Evaluates natives before bound w callee names (.and l r)
      (c ++ (⟨.jumpIfFalse, 1 + d.size⟩, line) :: (⟨.pop, 0⟩, line') :: d) := by
  intro o temps σ m hcode hnames hm hroom
  obtain ⟨hc, htail⟩ := Chunk.holds_append.1 hcode
  obtain ⟨hjump, htail⟩ := Chunk.holds_cons.1 htail
  obtain ⟨hpop, hd⟩ := Chunk.holds_cons.1 htail
  have hend : o + Code.size (c ++ (⟨.jumpIfFalse, 1 + d.size⟩, line) :: (⟨.pop, 0⟩, line') :: d) =
      o + c.size + 3 + (1 + d.size) := by
    simp only [Code.size_append, Code.size_cons, Instruction.size_jumpIfFalse, Instruction.size_pop]
    omega
  rw [height] at hroom
  rw [eval, hend]
  refine (hl hc hnames hm (by omega)).bind fun x σ₁ m₁ h₁ => ?_
  obtain ⟨hnames₁, h₁⟩ := h₁
  obtain ⟨m₂, hlead₂, h₂⟩ := h₁.leads_jumpIfFalse natives hjump hmax
  by_cases hfalsey : x.isFalsey
  · rw [if_pos hfalsey] at h₂ ⊢
    exact ⟨1, m₂, hlead₂, hnames₁, h₂⟩
  · rw [if_neg hfalsey] at h₂ ⊢
    obtain ⟨m₃, hlead₃, h₃⟩ := h₂.leads_pop natives hpop
    have hrest := (hr hd hnames₁ h₃ (by omega)).after (hlead₂.trans hlead₃)
    rw [Instruction.size_jumpIfFalse, Instruction.size_pop, Nat.add_assoc (o + c.size + 3)] at hrest
    exact hrest

lemma evaluates_or {line' line'' : UInt32} (hl : Evaluates natives before bound w callee names l c)
    (hr : Evaluates natives before bound w callee names r d) (hmax : 1 + d.size ≤ Chunk.maxShort) :
    Evaluates natives before bound w callee names (.or l r)
      (c ++ (⟨.jumpIfFalse, 3⟩, line) :: (⟨.jump, 1 + d.size⟩, line') :: (⟨.pop, 0⟩, line'') :: d) := by
  intro o temps σ m hcode hnames hm hroom
  obtain ⟨hc, htail⟩ := Chunk.holds_append.1 hcode
  obtain ⟨hbranch, htail⟩ := Chunk.holds_cons.1 htail
  obtain ⟨hjump, htail⟩ := Chunk.holds_cons.1 htail
  obtain ⟨hpop, hd⟩ := Chunk.holds_cons.1 htail
  have hend : o + Code.size (c ++ (⟨.jumpIfFalse, 3⟩, line) :: (⟨.jump, 1 + d.size⟩, line') ::
      (⟨.pop, 0⟩, line'') :: d) = o + c.size + 3 + 3 + (1 + d.size) := by
    simp only [Code.size_append, Code.size_cons, Instruction.size_jumpIfFalse, Instruction.size_jump,
      Instruction.size_pop]
    omega
  rw [height] at hroom
  rw [eval, hend]
  refine (hl hc hnames hm (by omega)).bind fun x σ₁ m₁ h₁ => ?_
  obtain ⟨hnames₁, h₁⟩ := h₁
  obtain ⟨m₂, hlead₂, h₂⟩ := h₁.leads_jumpIfFalse natives hbranch (by decide)
  by_cases hfalsey : x.isFalsey
  · rw [if_pos hfalsey] at h₂ ⊢
    obtain ⟨m₃, hlead₃, h₃⟩ := h₂.leads_pop natives hpop
    have hrest := (hr hd hnames₁ h₃ (by omega)).after (hlead₂.trans hlead₃)
    rw [Instruction.size_jumpIfFalse, Instruction.size_jump, Instruction.size_pop,
      Nat.add_assoc (o + c.size + 3 + 3)] at hrest
    exact hrest
  · rw [if_neg hfalsey] at h₂ ⊢
    obtain ⟨m₃, hlead₃, h₃⟩ := h₂.leads_jump natives hjump hmax
    exact ⟨1 + 1, m₃, hlead₂.trans hlead₃, hnames₁, h₃⟩

/-- The code of an expression evaluates it. -/
theorem Emits.evaluates {es : List Expr} (h : Emits g es c g') (natives : Natives)
    (before : List Text) (bound : Nat) (callee : Datum) (hes : es = [e]) (hfree : e.isFunctionFree)
    (hnamed : e.Named) (hg : g.Sound) (hsees : g.Sees names) (hfits : g'.scope.Fits w upvalues) :
    Evaluates natives before bound w callee names e c := by
  induction h generalizing e with
  | nil | cons => simp at hes
  | literal =>
    cases hes
    exact evaluates_literal _
  | number hdigits hmax =>
    cases hes
    exact evaluates_number hdigits hmax hg hfits
  | string hmax =>
    cases hes
    exact evaluates_string hmax hg hfits
  | var hr =>
    cases hes
    exact evaluates_var hr (by simpa [Named, Expr.names, eq_comm] using hnamed) hg hsees hfits
  | assign hr hvalue ih =>
    cases hes
    simp only [Named, Expr.names, List.mem_cons, not_or] at hnamed
    have hsees' := hsees.of_resolves hr
    exact evaluates_assign hr (Ne.symm hnamed.1) hg hsees (hvalue.grows.scope.toWidens.fits hfits)
      (ih rfl hfree hnamed.2 (hr.sound hg) hsees' hfits)
  | unary _ ih =>
    cases hes
    exact evaluates_unary _ (ih rfl hfree hnamed hg hsees hfits)
  | binary hleft hright ih ih' =>
    cases hes
    simp only [isFunctionFree, Bool.and_eq_true] at hfree
    simp only [Named, Expr.names, List.mem_append, not_or] at hnamed
    exact evaluates_binary _
      (ih rfl hfree.1 hnamed.1 hg hsees (hright.grows.scope.toWidens.fits hfits))
      (ih' rfl hfree.2 hnamed.2 (hleft.sound hg) (hsees.expr hleft) hfits)
  | and hleft hright hmax ih ih' =>
    cases hes
    simp only [isFunctionFree, Bool.and_eq_true] at hfree
    simp only [Named, Expr.names, List.mem_append, not_or] at hnamed
    exact evaluates_and
      (ih rfl hfree.1 hnamed.1 hg hsees (hright.grows.scope.toWidens.fits hfits))
      (ih' rfl hfree.2 hnamed.2 (hleft.sound hg) (hsees.expr hleft) hfits) hmax
  | or hleft hright hmax ih ih' =>
    cases hes
    simp only [isFunctionFree, Bool.and_eq_true] at hfree
    simp only [Named, Expr.names, List.mem_append, not_or] at hnamed
    exact evaluates_or
      (ih rfl hfree.1 hnamed.1 hg hsees (hright.grows.scope.toWidens.fits hfits))
      (ih' rfl hfree.2 hnamed.2 (hleft.sound hg) (hsees.expr hleft) hfits) hmax
  | call =>
    cases hes
    cases hfree

/-- The code `c` evaluates the expression where nothing but variables is on the stack. -/
def Yields (natives : Natives) (before : List Text) (bound : Nat) (w : Chunk) (callee : Datum)
    (names : List (List Text)) (e : Expr) (c : Code) : Prop :=
  ∀ ⦃o : Nat⦄ ⦃σ : Store⦄ ⦃m : Machine⦄, w.Holds o c → σ.names = names →
    m.Shows before w σ o (σ.values callee) →
    m.Agrees natives before bound (e.eval σ) fun d σ' m' =>
      σ'.names = names ∧ m'.Shows before w σ' (o + c.size) (σ'.values callee ++ [d])

/-- There is room for the values of an expression that is not nested too deeply. -/
lemma Evaluates.yields (he : Evaluates natives before bound w callee names e c)
    (hheight : e.height ≤ maxNesting)
    (hlocals : (localsOf names).length ≤ FunctionScope.maxLocals) :
    Yields natives before bound w callee names e c := by
  intro o σ m hcode hnames hm
  have hroom : (localsOf names).length + ([] : List Datum).length + e.height ≤
      MachineConfig.standard.maxStack := by
    have hmax : FunctionScope.maxLocals + maxNesting ≤ MachineConfig.standard.maxStack := by decide
    rw [List.length_nil]
    omega
  rw [← List.append_nil (σ.values callee)] at hm
  refine (he hcode hnames hm hroom).mono fun d σ' m' h => ?_
  rwa [List.append_nil] at h

lemma Emits.yields (h : Emits g [e] c g') (natives : Natives) (before : List Text) (bound : Nat)
    (callee : Datum) (hfree : e.isFunctionFree) (hnamed : e.Named) (hheight : e.height ≤ maxNesting)
    (hg : g.Sound) (hsees : g.Sees names) (hfits : g'.scope.Fits w upvalues) :
    Yields natives before bound w callee names e c :=
  (h.evaluates natives before bound callee rfl hfree hnamed hg hsees hfits).yields hheight
    (hsees.length_le hg)

end Expr

/-! ## Statements -/

/-- The code `c` does what the statement does where there are variables of these names. -/
def Stmt.Performs (natives : Natives) (before : List Text) (bound : Nat) (w : Chunk) (callee : Datum)
    (names : List (List Text)) (s : Stmt) (c : Code) : Prop :=
  ∀ ⦃o : Nat⦄ ⦃σ : Store⦄ ⦃m : Machine⦄, w.Holds o c → σ.names = names →
    m.Shows before w σ o (σ.values callee) →
    m.Agrees natives before bound (s.run bound σ) fun _ σ' m' =>
      σ'.names = s.namesAfter names ∧ m'.Shows before w σ' (o + c.size) (σ'.values callee)

namespace Stmt

variable {natives : Natives} {before : List Text} {bound : Nat} {w : Chunk} {callee : Datum}
  {names : List (List Text)} {g g' : Context} {upvalues : Nat} {e : Expr} {s : Stmt} {c d : Code}
  {line : UInt32}

lemma performs_seq {rest : Stmt} (hfirst : Performs natives before bound w callee names s c)
    (hrest : Performs natives before bound w callee (s.namesAfter names) rest d) :
    Performs natives before bound w callee names (.seq s rest) (c ++ d) := by
  intro o σ m hcode hnames hm
  obtain ⟨hc, hd⟩ := Chunk.holds_append.1 hcode
  rw [run, Code.size_append, ← Nat.add_assoc]
  exact (hfirst hc hnames hm).bind fun _ σ₁ m₁ h₁ => hrest hd h₁.1 h₁.2

lemma performs_declareVar {name : Text} {global? : Option Nat} {g₁ : Context}
    (he : Expr.Yields natives before bound w callee names e c) (hg : g.Models names)
    (hdeclare : g.Names name global? g₁) (hfits : g₁.scope.Fits w upvalues) :
    Performs natives before bound w callee names (.declareVar name e)
      (c ++ defineCode global? line) := by
  intro o σ m hcode hnames hm
  obtain ⟨hc, hdefine⟩ := Chunk.holds_append.1 hcode
  rw [run]
  refine (he hc hnames hm).bind fun d σ₁ m₁ h₁ => ?_
  obtain ⟨hnames₁, h₁⟩ := h₁
  cases hdeclare with
  | ofLocal hpos _ =>
    rw [hg.depth] at hpos
    obtain ⟨inner, outer, rfl⟩ := List.exists_cons_of_length_pos hpos
    obtain ⟨hnames₂, hvalues, hglobals, hprinted⟩ := Store.declare_local hnames₁ name d callee
    refine ⟨0, m₁, .refl natives m₁, hnames₂, ?_⟩
    rw [hvalues]
    simpa [defineCode] using h₁.of_eq hglobals hprinted
  | ofGlobal hzero hmax =>
    rw [hg.depth] at hzero
    cases List.length_eq_zero_iff.1 hzero
    obtain ⟨m₂, hlead, h₂⟩ := h₁.leads_defineGlobal natives hdefine hmax
      (Context.strings_get? hg.sound hfits)
    have hdeclared := Store.declare_global hnames₁ name d
    refine ⟨1, m₂, hlead, ?_, ?_⟩
    · change (σ₁.declare name d).names = []
      rw [hdeclared]
      exact hnames₁
    · change m₂.Shows before w (σ₁.declare name d) _ ((σ₁.declare name d).values callee)
      rw [hdeclared, Code.size_append, ← Nat.add_assoc]
      exact h₂

lemma performs_print (he : Expr.Yields natives before bound w callee names e c) :
    Performs natives before bound w callee names (.print e) (c ++ [(⟨.print, 0⟩, line)]) := by
  intro o σ m hcode hnames hm
  obtain ⟨hc, hprint⟩ := Chunk.holds_append.1 hcode
  rw [run, Code.size_append, ← Nat.add_assoc]
  refine (he hc hnames hm).bind fun d σ₁ m₁ h₁ => ?_
  obtain ⟨m₂, hlead, h₂⟩ := h₁.2.leads_print natives hprint
  exact ⟨1, m₂, hlead, h₁.1, h₂⟩

lemma performs_discard (he : Expr.Yields natives before bound w callee names e c) :
    Performs natives before bound w callee names (.discard e) (c ++ [(⟨.pop, 0⟩, line)]) := by
  intro o σ m hcode hnames hm
  obtain ⟨hc, hpop⟩ := Chunk.holds_append.1 hcode
  rw [run, Code.size_append, ← Nat.add_assoc]
  refine (he hc hnames hm).bind fun d σ₁ m₁ h₁ => ?_
  obtain ⟨m₂, hlead, h₂⟩ := h₁.2.leads_pop natives hpop
  exact ⟨1, m₂, hlead, h₁.1, h₂⟩

lemma performs_branch {yes no : Stmt} {d' : Code} {l₁ l₂ l₃ l₄ : UInt32}
    (he : Expr.Yields natives before bound w callee names e c)
    (hyes : Performs natives before bound w callee names yes d) (hstatement : yes.IsStatement)
    (hno : Performs natives before bound w callee names no d') (hstatement' : no.IsStatement)
    (hmax : d.size + 4 ≤ Chunk.maxShort) (hmax' : 1 + d'.size ≤ Chunk.maxShort) :
    Performs natives before bound w callee names (.branch e yes no)
      (c ++ (⟨.jumpIfFalse, d.size + 4⟩, l₁) :: (⟨.pop, 0⟩, l₂) :: d ++
        (⟨.jump, 1 + d'.size⟩, l₃) :: (⟨.pop, 0⟩, l₄) :: d') := by
  intro o σ m hcode hnames hm
  obtain ⟨hfirst, hsecond⟩ := Chunk.holds_append.1 hcode
  obtain ⟨hc, hfirst⟩ := Chunk.holds_append.1 hfirst
  obtain ⟨hbranch, hfirst⟩ := Chunk.holds_cons.1 hfirst
  obtain ⟨hpop, hd⟩ := Chunk.holds_cons.1 hfirst
  obtain ⟨hjump, hsecond⟩ := Chunk.holds_cons.1 hsecond
  obtain ⟨hpop', hd'⟩ := Chunk.holds_cons.1 hsecond
  simp only [Code.size_append, Code.size_cons, Instruction.size_jumpIfFalse, Instruction.size_pop,
    Instruction.size_jump] at hpop hd hjump hpop' hd' ⊢
  rw [run]
  refine (he hc hnames hm).bind fun x σ₁ m₁ h₁ => ?_
  obtain ⟨hnames₁, h₁⟩ := h₁
  obtain ⟨m₂, hlead₂, h₂⟩ := h₁.leads_jumpIfFalse natives hbranch hmax
  by_cases hfalsey : x.isFalsey
  · rw [if_pos hfalsey] at h₂ ⊢
    obtain ⟨m₃, hlead₃, h₃⟩ := (h₂.moved (by omega)).leads_pop natives hpop'
    have hrest := (hno hd' hnames₁ h₃).after (hlead₂.trans hlead₃)
    rw [hstatement'.namesAfter_eq] at hrest
    exact hrest.mono fun _ σ' m' h => ⟨h.1, h.2.moved (by omega)⟩
  · rw [if_neg hfalsey] at h₂ ⊢
    obtain ⟨m₃, hlead₃, h₃⟩ := h₂.leads_pop natives hpop
    have hrest := (hyes hd hnames₁ h₃).after (hlead₂.trans hlead₃)
    rw [hstatement.namesAfter_eq] at hrest
    refine hrest.followed fun _ σ' m' h => ?_
    obtain ⟨m₄, hlead₄, h₄⟩ := (h.2.moved (by omega)).leads_jump natives hjump hmax'
    exact ⟨1, m₄, hlead₄, h.1, h₄.moved (by omega)⟩

lemma performs_whileLoop {body : Stmt} {l₁ l₂ l₃ l₄ : UInt32}
    (he : Expr.Yields natives before bound w callee names e c)
    (hbody : Performs natives before bound w callee names body d) (hstatement : body.IsStatement)
    (hmax : d.size + 4 ≤ Chunk.maxShort) (hmax' : c.size + d.size + 7 ≤ Chunk.maxShort) :
    Performs natives before bound w callee names (.whileLoop e body)
      (c ++ (⟨.jumpIfFalse, d.size + 4⟩, l₁) :: (⟨.pop, 0⟩, l₂) :: d ++
        [(⟨.loop, c.size + d.size + 7⟩, l₃), (⟨.pop, 0⟩, l₄)]) := by
  intro o σ m hcode hnames hm
  obtain ⟨hfirst, hsecond⟩ := Chunk.holds_append.1 hcode
  obtain ⟨hc, hfirst⟩ := Chunk.holds_append.1 hfirst
  obtain ⟨hbranch, hfirst⟩ := Chunk.holds_cons.1 hfirst
  obtain ⟨hpop, hd⟩ := Chunk.holds_cons.1 hfirst
  obtain ⟨hloop, hpop'⟩ := Chunk.holds_cons.1 hsecond
  simp only [Code.size_append, Code.size_cons, Code.size_nil, Instruction.size_jumpIfFalse,
    Instruction.size_pop, Instruction.size_loop] at hpop hd hloop hpop' ⊢
  rw [run]
  refine .loop (fun σ m => σ.names = names ∧ m.Shows before w σ o (σ.values callee))
    (fun σ m => σ.names = names ∧
      m.Shows before w σ (o + (c.size + (3 + (1 + d.size)))) (σ.values callee))
    (Nat.le_refl bound) ?_ ?_ ⟨hnames, hm⟩
  · rintro σ m ⟨hnames, hm⟩
    refine (he hc hnames hm).bind fun x σ₁ m₁ h₁ => ?_
    obtain ⟨hnames₁, h₁⟩ := h₁
    obtain ⟨m₂, hlead₂, h₂⟩ := h₁.leads_jumpIfFalse natives hbranch hmax
    by_cases hfalsey : x.isFalsey
    · rw [if_pos hfalsey] at h₂
      rw [if_pos hfalsey]
      obtain ⟨m₃, hlead₃, h₃⟩ := (h₂.moved (by omega)).leads_pop natives hpop'
      exact ⟨1 + 1, m₃, hlead₂.trans hlead₃, hnames₁, h₃.moved (by omega)⟩
    · rw [if_neg hfalsey] at h₂
      rw [if_neg hfalsey]
      obtain ⟨m₃, hlead₃, h₃⟩ := h₂.leads_pop natives hpop
      have hrest := (hbody hd hnames₁ h₃).after (hlead₂.trans hlead₃)
      rw [hstatement.namesAfter_eq] at hrest
      exact hrest.bind fun _ σ' m' h => .pure ⟨h.1, h.2.moved (by omega)⟩
  · rintro σ m ⟨hnames, hm⟩
    obtain ⟨m', hlead, h⟩ := hm.leads_loop natives hloop hmax' (by omega)
    exact ⟨m', hlead, hnames, h.moved (by omega)⟩

/-! ### Blocks -/

/-- Variables of the innermost block are dropped. -/
lemma leads_drops (natives : Natives) {o : Nat} {ls : List Local} {data top : List Datum} {σ : Store} {m : Machine}
    (hplain : ∀ l ∈ ls, l.captured = false) (htop : top.length = ls.length)
    (hcode : w.Holds o (dropCode ls line)) (hm : m.Shows before w σ o (data ++ top)) :
    ∃ n m', m.Leads natives n m' ∧
      m'.Shows before w σ (o + Code.size (dropCode ls line)) data := by
  induction ls generalizing o top m with
  | nil =>
    cases List.length_eq_zero_iff.1 htop
    rw [List.append_nil] at hm
    exact ⟨0, m, .refl natives m, hm⟩
  | cons l ls ih =>
    rcases List.eq_nil_or_concat' top with rfl | ⟨top, d, rfl⟩
    · cases htop
    rw [List.length_append, List.length_singleton, List.length_cons, Nat.add_right_cancel_iff] at htop
    have hpop : dropCode (l :: ls) line = (⟨.pop, 0⟩, line) :: dropCode ls line := by
      simp [dropCode, hplain l List.mem_cons_self]
    rw [hpop] at hcode ⊢
    obtain ⟨hdrop, hrest⟩ := Chunk.holds_cons.1 hcode
    rw [← List.append_assoc] at hm
    obtain ⟨m₁, hlead, h₁⟩ := hm.leads_pop natives hdrop
    obtain ⟨n, m₂, hlead', h₂⟩ := ih (fun l' hl' => hplain l' (List.mem_cons_of_mem l hl')) htop
      hrest h₁
    refine ⟨1 + n, m₂, hlead.trans hlead', ?_⟩
    rw [Code.size_pop_cons, ← Nat.add_assoc]
    exact h₂

/-- The beginning of a block. -/
lemma agrees_enter {o : Nat} {σ : Store} {m : Machine} (hnames : σ.names = names)
    (hm : m.Shows before w σ o (σ.values callee)) :
    m.Agrees natives before bound ((modify Store.enter : EvalM PUnit) σ) fun _ σ' m' =>
      σ'.names = [] :: names ∧ m'.Shows before w σ' o (σ'.values callee) := by
  refine ⟨0, m, .refl natives m, ?_, hm.of_eq rfl rfl⟩
  change [] :: σ.names = [] :: names
  rw [hnames]

/-- The end of a block. -/
lemma agrees_leave {o : Nat} {inner : List Text} {outer : List (List Text)} {σ : Store} {m : Machine}
    (hg : g.Models (inner :: outer)) (hcode : w.Holds o (dropCode g.leaving line))
    (hnames : σ.names = inner :: outer) (hm : m.Shows before w σ o (σ.values callee)) :
    m.Agrees natives before bound ((modify Store.leave : EvalM PUnit) σ) fun _ σ' m' =>
      σ'.names = outer ∧
        m'.Shows before w σ' (o + Code.size (dropCode g.leaving line)) (σ'.values callee) := by
  have hleaving : g.leaving = inner.map (⟨·, some (outer.length + 1), false⟩) := by
    rw [Context.leaving, hg.span]
  obtain ⟨hnames', top, hvalues, htop⟩ := Store.values_leave hnames callee
  rw [hvalues] at hm
  have hplain : ∀ l ∈ g.leaving, l.captured = false := by
    intro l hl
    rw [hleaving] at hl
    obtain ⟨name, -, rfl⟩ := List.mem_map.1 hl
    rfl
  obtain ⟨n, m', hlead, h⟩ := leads_drops natives hplain
    (by rw [hleaving, List.length_map, htop]) hcode hm
  exact ⟨n, m', hlead, hnames', h.of_eq rfl rfl⟩

lemma performs_block {body : Stmt}
    (hbody : Performs natives before bound w callee ([] :: names) body c)
    (hg : g.Models (body.namesAfter ([] :: names))) :
    Performs natives before bound w callee names (.block body) (c ++ dropCode g.leaving line) := by
  intro o σ m hcode hnames hm
  obtain ⟨hc, hdrop⟩ := Chunk.holds_append.1 hcode
  obtain ⟨inner, hinner⟩ := body.exists_namesAfter_eq_cons [] names
  rw [hinner] at hg
  rw [run, Code.size_append, ← Nat.add_assoc]
  refine (agrees_enter hnames hm).bind fun _ σ₁ m₁ h₁ => ?_
  refine (hbody hc h₁.1 h₁.2).bind fun _ σ₂ m₂ h₂ => ?_
  rw [hinner] at h₂
  exact agrees_leave hg hdrop h₂.1 h₂.2

/-! ### For loops -/

/-- The condition of a for loop leads into the loop, or behind it. -/
lemma agrees_condition {condition : Option Expr} {after o : Nat} {σ : Store} {m : Machine}
    (h : Expr.EmitsCondition g condition after c g')
    (he : ∀ e d, condition = some e → Expr.Emits g [e] d g' →
      Expr.Yields natives before bound w callee names e d)
    (hcode : w.Holds o c) (hexit : w.Holds (o + c.size + after) (exitCode condition line))
    (hnames : σ.names = names) (hm : m.Shows before w σ o (σ.values callee)) :
    m.Agrees natives before bound (Expr.holds condition σ) fun goOn σ' m' => σ'.names = names ∧
      m'.Shows before w σ' (if goOn then o + c.size
        else o + c.size + after + Code.size (exitCode condition line)) (σ'.values callee) := by
  cases h with
  | none => exact .pure ⟨hnames, hm⟩
  | @some _ _ _ c l₁ l₂ hemits hmax =>
    obtain ⟨hc, htail⟩ := Chunk.holds_append.1 hcode
    obtain ⟨hbranch, hpop⟩ := Chunk.holds_cons.1 htail
    simp only [Code.size_append, Code.size_cons, Code.size_nil, Instruction.size_jumpIfFalse,
      Instruction.size_pop, exitCode] at hpop hexit ⊢
    rw [Expr.holds]
    refine (he _ c rfl hemits hc hnames hm).bind fun x σ₁ m₁ h₁ => ?_
    obtain ⟨hnames₁, h₁⟩ := h₁
    obtain ⟨m₂, hlead₂, h₂⟩ := h₁.leads_jumpIfFalse natives hbranch hmax
    by_cases hfalsey : x.isFalsey
    · rw [if_pos hfalsey] at h₂
      obtain ⟨m₃, hlead₃, h₃⟩ := (h₂.moved (by omega)).leads_pop natives hexit
      refine ⟨1 + 1, m₃, hlead₂.trans hlead₃, hnames₁, h₃.moved ?_⟩
      rw [hfalsey]
      rfl
    · rw [if_neg hfalsey] at h₂
      obtain ⟨m₃, hlead₃, h₃⟩ := h₂.leads_pop natives hpop
      refine ⟨1 + 1, m₃, hlead₂.trans hlead₃, hnames₁, h₃.moved ?_⟩
      rw [Bool.not_eq_true] at hfalsey
      rw [hfalsey]
      rfl

/-- The increment is skipped on the way to the body. -/
lemma leads_over {increment : Option Expr} {first back o : Nat} {σ : Store} {m : Machine}
    {data : List Datum} (natives : Natives) (h : Expr.EmitsIncrement g increment first c g' back)
    (hcode : w.Holds o c) (hm : m.Shows before w σ o data) :
    ∃ n m', m.Leads natives n m' ∧ m'.Shows before w σ (o + c.size) data := by
  cases h with
  | none => exact ⟨0, m, .refl natives m, hm⟩
  | @some _ _ _ c l₁ l₂ l₃ hemits hmax hmax' =>
    obtain ⟨hjump, -⟩ := Chunk.holds_cons.1 hcode
    obtain ⟨m₁, hlead, h₁⟩ := hm.leads_jump natives hjump hmax
    refine ⟨1, m₁, hlead, h₁.moved ?_⟩
    simp only [Code.size_append, Code.size_cons, Code.size_nil, Instruction.size_jump,
      Instruction.size_loop, Instruction.size_pop]
    omega

/-- From the end of the body, which takes `n` bytes, the increment leads to the jump back to the
condition at `o`. -/
lemma agrees_increment {increment : Option Expr} {first back o n : Nat} {σ : Store} {m : Machine}
    (h : Expr.EmitsIncrement g increment first c g' back)
    (he : ∀ e d, increment = some e → Expr.Emits g [e] d g' →
      Expr.Yields natives before bound w callee names e d)
    (hcode : w.Holds (o + first) c)
    (hloop : w.Holds (o + first + c.size + n) [(⟨.loop, back + n + 3⟩, line)])
    (hmax : back + n + 3 ≤ Chunk.maxShort) (hnames : σ.names = names)
    (hm : m.Shows before w σ (o + first + c.size + n) (σ.values callee)) :
    m.Agrees natives before bound (Expr.perform increment σ) fun _ σ' m' =>
      ∃ m'', m'.Leads natives 1 m'' ∧ σ'.names = names ∧
        m''.Shows before w σ' o (σ'.values callee) := by
  have hback := h.back_le
  obtain ⟨m₁, hlead₁, h₁⟩ := hm.leads_loop natives hloop hmax (by omega)
  cases h with
  | none =>
    refine .pure ⟨m₁, hlead₁, hnames, h₁.moved ?_⟩
    rw [Code.size_nil]
    omega
  | @some _ _ _ c l₁ l₂ l₃ hemits hmax₁ hmax₂ =>
    obtain ⟨-, hcode⟩ := Chunk.holds_cons.1 hcode
    obtain ⟨hc, htail⟩ := Chunk.holds_append.1 hcode
    obtain ⟨hpop, hloop'⟩ := Chunk.holds_cons.1 htail
    simp only [Code.size_append, Code.size_cons, Code.size_nil, Instruction.size_jump,
      Instruction.size_loop, Instruction.size_pop] at hc hpop hloop' h₁
    rw [Expr.perform]
    refine ((he _ c rfl hemits hc hnames (h₁.moved (by omega))).after hlead₁).bind
      fun x σ₂ m₂ h₂ => ?_
    obtain ⟨m₃, hlead₃, h₃⟩ := h₂.2.leads_pop natives hpop
    obtain ⟨m₄, hlead₄, h₄⟩ := h₃.leads_loop natives hloop' hmax₂ (by omega)
    exact ⟨1, m₃, hlead₃, m₄, hlead₄, h₂.1, h₄.moved (by omega)⟩

section ForLoop

variable {body : Stmt} {condition increment : Option Expr} {g₁ g₂ g₃ g₄ : Context}
  {c₁ c₂ c₃ c₄ : Code} {back : Nat} {l₁ l₂ l₃ : UInt32}

/-- The loop of a for statement, from its condition on. -/
lemma agrees_rounds {o : Nat} {σ : Store} {m : Machine}
    (hcond : Expr.EmitsCondition g₁ condition (c₃.size + c₄.size + 3) c₂ g₂)
    (hcondition : ∀ e d, condition = some e → Expr.Emits g₁ [e] d g₂ →
      Expr.Yields natives before bound w callee names e d)
    (hinc : Expr.EmitsIncrement g₂ increment c₂.size c₃ g₃ back)
    (hincrement : ∀ e d, increment = some e → Expr.Emits g₂ [e] d g₃ →
      Expr.Yields natives before bound w callee names e d)
    (hbody : Performs natives before bound w callee names body c₄) (hstatement : body.IsStatement)
    (hmax : back + c₄.size + 3 ≤ Chunk.maxShort)
    (hcode : w.Holds o (c₂ ++ c₃ ++ c₄ ++ (⟨.loop, back + c₄.size + 3⟩, l₁) :: exitCode condition l₂))
    (hnames : σ.names = names) (hm : m.Shows before w σ o (σ.values callee)) :
    m.Agrees natives before bound
      (EvalM.repeat (do
        if ← Expr.holds condition then
          body.run bound
          Expr.perform increment
          return true
        else
          return false) bound σ)
      fun _ σ' m' => σ'.names = names ∧ m'.Shows before w σ'
        (o + Code.size (c₂ ++ c₃ ++ c₄ ++
          (⟨.loop, back + c₄.size + 3⟩, l₁) :: exitCode condition l₂)) (σ'.values callee) := by
  obtain ⟨hcode, hend⟩ := Chunk.holds_append.1 hcode
  obtain ⟨hloop, hexit⟩ := Chunk.holds_cons.1 hend
  obtain ⟨hcode, hc₄⟩ := Chunk.holds_append.1 hcode
  obtain ⟨hc₂, hc₃⟩ := Chunk.holds_append.1 hcode
  simp only [Code.size_append, Code.size_cons, Instruction.size_loop, ← Nat.add_assoc]
    at hc₃ hc₄ hloop hexit ⊢
  have hbehind : o + c₂.size + (c₃.size + c₄.size + 3) =
      o + c₂.size + c₃.size + c₄.size + 3 := by omega
  rw [← hbehind] at hexit ⊢
  -- A round begins with the condition and ends, with the increment done, at a jump back to it.
  refine .loop (fun σ m => σ.names = names ∧ m.Shows before w σ o (σ.values callee))
    (fun σ m => ∃ m', m.Leads natives 1 m' ∧ σ.names = names ∧
      m'.Shows before w σ o (σ.values callee)) (Nat.le_refl bound) ?_ (fun _ _ h => h) ⟨hnames, hm⟩
  rintro σ m ⟨hnames, hm⟩
  refine (agrees_condition hcond hcondition hc₂ hexit hnames hm).bind fun goOn σ₁ m₁ h₁ => ?_
  cases goOn with
  | false => exact .pure h₁
  | true =>
    obtain ⟨n, m₂, hlead₂, h₂⟩ := leads_over natives hinc hc₃ h₁.2
    have hround := (hbody hc₄ h₁.1 h₂).after hlead₂
    rw [hstatement.namesAfter_eq] at hround
    refine hround.bind fun _ σ₃ m₃ h₃ => ?_
    exact (agrees_increment hinc hincrement hc₃ hloop hmax h₃.1 h₃.2).bind fun _ _ _ h₄ => .pure h₄

lemma performs_forLoop {init : Stmt}
    (hinit : Performs natives before bound w callee ([] :: names) init c₁)
    (hcond : Expr.EmitsCondition g₁ condition (c₃.size + c₄.size + 3) c₂ g₂)
    (hcondition : ∀ e d, condition = some e → Expr.Emits g₁ [e] d g₂ →
      Expr.Yields natives before bound w callee (init.namesAfter ([] :: names)) e d)
    (hinc : Expr.EmitsIncrement g₂ increment c₂.size c₃ g₃ back)
    (hincrement : ∀ e d, increment = some e → Expr.Emits g₂ [e] d g₃ →
      Expr.Yields natives before bound w callee (init.namesAfter ([] :: names)) e d)
    (hbody : Performs natives before bound w callee (init.namesAfter ([] :: names)) body c₄)
    (hstatement : body.IsStatement) (hg : g₄.Models (init.namesAfter ([] :: names)))
    (hmax : back + c₄.size + 3 ≤ Chunk.maxShort) :
    Performs natives before bound w callee names (.forLoop init condition increment body)
      (c₁ ++ c₂ ++ c₃ ++ c₄ ++ (⟨.loop, back + c₄.size + 3⟩, l₁) :: exitCode condition l₂ ++
        dropCode g₄.leaving l₃) := by
  intro o σ m hcode hnames hm
  have hcodes : c₁ ++ c₂ ++ c₃ ++ c₄ ++ (⟨.loop, back + c₄.size + 3⟩, l₁) :: exitCode condition l₂ =
      c₁ ++ (c₂ ++ c₃ ++ c₄ ++ (⟨.loop, back + c₄.size + 3⟩, l₁) :: exitCode condition l₂) := by
    simp only [List.append_assoc]
  rw [hcodes] at hcode ⊢
  obtain ⟨hcode, hdrop⟩ := Chunk.holds_append.1 hcode
  obtain ⟨hc₁, hcode⟩ := Chunk.holds_append.1 hcode
  obtain ⟨inner, hinner⟩ := init.exists_namesAfter_eq_cons [] names
  rw [hinner] at hbody hcondition hincrement hg
  rw [run, Code.size_append, ← Nat.add_assoc]
  refine (agrees_enter hnames hm).bind fun _ σ₁ m₁ h₁ => ?_
  refine (hinit hc₁ h₁.1 h₁.2).bind fun _ σ₂ m₂ h₂ => ?_
  rw [hinner] at h₂
  refine (agrees_rounds hcond hcondition hinc hincrement hbody hstatement hmax hcode h₂.1
    h₂.2).bind fun _ σ₃ m₃ h₃ => ?_
  rw [Nat.add_assoc, ← Code.size_append] at h₃
  exact agrees_leave hg hdrop h₃.1 h₃.2

end ForLoop

/-! ### Programs -/

/-- The code of a statement without functions does what the statement does. -/
theorem Emits.performs (h : Emits g s c g') (natives : Natives) (before : List Text) (bound : Nat)
    (callee : Datum) (hg : g.Models names) (hs : s.Structured) (hfree : s.isFunctionFree)
    (hnamed : s.AllExprs Expr.Named) (hheight : s.AllExprs fun e => e.height ≤ maxNesting)
    (hfits : g'.scope.Fits w upvalues) : Performs natives before bound w callee names s c := by
  induction h generalizing names with
  | skip => exact fun o σ m _ hnames hm => .pure ⟨hnames, hm⟩
  | seq hfirst hrest ih ih' =>
    simp only [isFunctionFree, Bool.and_eq_true] at hfree
    exact performs_seq
      (ih hg hs.1 hfree.1 hnamed.1 hheight.1 (hrest.widens.scope.fits hfits))
      (ih' (hfirst.models hg hs.1 hfree.1) hs.2 hfree.2 hnamed.2 hheight.2 hfits)
  | declareVar hdeclare he =>
    have hfits' := (Context.widens_complete _).scope.fits hfits
    obtain ⟨hsound, hsees, -⟩ := hg.declare hdeclare he
    exact performs_declareVar
      (he.yields natives before bound callee hfree hnamed hheight hsound hsees hfits') hg hdeclare
      (he.grows.scope.toWidens.fits hfits')
  | declareFun | ret => cases hfree
  | print he =>
    exact performs_print
      (he.yields natives before bound callee hfree hnamed hheight hg.sound hg.sees hfits)
  | discard he =>
    exact performs_discard
      (he.yields natives before bound callee hfree hnamed hheight hg.sound hg.sees hfits)
  | echo he =>
    exact performs_print
      (he.yields natives before bound callee hfree hnamed hheight hg.sound hg.sees hfits)
  | branch he hyes hno hmax hmax' ih ih' =>
    simp only [isFunctionFree, Bool.and_eq_true] at hfree
    have hfits₂ := hno.widens.scope.fits hfits
    have hfits₁ := hyes.widens.scope.fits hfits₂
    have hg₁ := hg.expr he
    have hg₂ := hyes.models hg₁ hs.2.1 hfree.1.2
    rw [hs.1.namesAfter_eq] at hg₂
    exact performs_branch
      (he.yields natives before bound callee hfree.1.1 hnamed.1 hheight.1 hg.sound hg.sees hfits₁)
      (ih hg₁ hs.2.1 hfree.1.2 hnamed.2.1 hheight.2.1 hfits₂) hs.1
      (ih' hg₂ hs.2.2.2 hfree.2 hnamed.2.2 hheight.2.2 hfits) hs.2.2.1 hmax hmax'
  | whileLoop he hbody hmax hmax' ih =>
    simp only [isFunctionFree, Bool.and_eq_true] at hfree
    exact performs_whileLoop
      (he.yields natives before bound callee hfree.1 hnamed.1 hheight.1 hg.sound hg.sees
        (hbody.widens.scope.fits hfits))
      (ih (hg.expr he) hs.2 hfree.2 hnamed.2 hheight.2 hfits) hs.1 hmax hmax'
  | forLoop hinit hcond hinc hbody hmax ih ih' =>
    simp only [isFunctionFree, Bool.and_eq_true] at hfree
    obtain ⟨⟨⟨hfree₁, hfree₂⟩, hfree₃⟩, hfree₄⟩ := hfree
    have hfits₄ := fits_of_endScope hfits
    have hfits₃ := hbody.widens.scope.fits hfits₄
    have hfits₂ := hinc.grows.scope.toWidens.fits hfits₃
    have hfits₁ := hcond.grows.scope.toWidens.fits hfits₂
    have hg₁ := hinit.models hg.beginScope hs.1 hfree₁
    have hg₂ := hg₁.condition hcond
    have hg₃ := hg₂.increment hinc
    have hg₄ := hbody.models hg₃ hs.2.2 hfree₄
    rw [hs.2.1.namesAfter_eq] at hg₄
    refine performs_forLoop (ih hg.beginScope hs.1 hfree₁ hnamed.1 hheight.1 hfits₁) hcond ?_ hinc ?_
      (ih' hg₃ hs.2.2 hfree₄ hnamed.2.2.2 hheight.2.2.2 hfits₄) hs.2.1 hg₄ hmax
    · rintro e d rfl he
      exact he.yields natives before bound callee hfree₂ (hnamed.2.1 e rfl) (hheight.2.1 e rfl)
        hg₁.sound hg₁.sees hfits₂
    · rintro e d rfl he
      exact he.yields natives before bound callee hfree₃ (hnamed.2.2.1 e rfl) (hheight.2.2.1 e rfl)
        hg₂.sound hg₂.sees hfits₃
  | block hbody ih =>
    have hfits' := fits_of_endScope hfits
    exact performs_block (ih hg.beginScope hs hfree hnamed hheight hfits')
      (hbody.models hg.beginScope hs hfree)

end Stmt

end Lox
