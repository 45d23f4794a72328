import Lox.Proofs.Compiler.Scoping

/-!
# Names resolve lexically

The code of a statement performs the actions of the statement (`Stmt.Emits.scopes`), by induction on
the code.  What carries the induction beyond that are the names: those that can be used behind a
statement are the ones that the compiler has as locals there.

For a script that the compiler returns it follows that every instruction in it, and in all the functions
in it, performs an action of its tree (`names_resolve_lexically`).
-/

namespace Lox

/-! ## Decoding -/

/-- Code that can be encoded is decoded instruction by instruction. -/
lemma decodes_of_holds {w : Chunk} {o : Nat} {c : Code} (hcode : w.Holds o c)
    (hencodable : ∀ i ∈ c, i.1.Encodable) (hsize : o + c.size = w.code.size) :
    w.Decodes o (c.map Prod.fst) := by
  induction c generalizing o with
  | nil =>
    have hend : o = w.code.size := by simpa using hsize
    subst hend
    exact .done
  | cons i c ih =>
    obtain ⟨hi, hrest⟩ := Chunk.holds_cons.1 hcode
    refine .next (hi.decode (hencodable i List.mem_cons_self))
      (ih hrest (fun j hj => hencodable j (List.mem_cons_of_mem _ hj)) ?_)
    rwa [Code.size_cons, ← Nat.add_assoc] at hsize

lemma Chart.mem_places {a : Chart} {i : Instruction × UInt32} (hi : i ∈ a.code) (o : Nat) :
    ∃ q ∈ a.places o, q.instruction = i.1 := by
  induction a generalizing o with
  | nil => simp at hi
  | cons x a ih =>
    obtain ⟨⟨j, line⟩, h⟩ := x
    rw [Chart.code_cons] at hi
    rcases List.mem_cons.1 hi with rfl | hi
    · exact ⟨_, List.mem_cons_self, rfl⟩
    · obtain ⟨q, hq, hsame⟩ := ih hi (o + j.size)
      exact ⟨q, List.mem_cons_of_mem _ hq, hsame⟩

open Instruction (Plain)

/-- Code that can be charted can be encoded. -/
lemma Carries.encodable {w : Chunk} {upvalues arity h h' : Nat} {c : Code}
    (hc : Carries w upvalues arity Plain h c Plain h') : ∀ i ∈ c, i.1.Encodable := by
  obtain ⟨a, rfl, ha⟩ := hc
  obtain ⟨-, hleads⟩ := ha 0 (fun _ => True) (fun _ _ => trivial)
    ⟨⟨.pop, 0⟩, by simp [Plain], trivial⟩
  intro i hi
  obtain ⟨q, hq, hsame⟩ := Chart.mem_places hi 0
  exact hsame ▸ (hleads q hq).encodable

open Compiler

/-! ## Between statements -/

/-- What is known between the statements of a program whose variables have names. -/
structure Compiler.Context.Orderly (g : Context) : Prop where
  settled : g.Settled
  sound : g.Sound
  tidy : g.Tidy
  floor : g.scope.arity + 1 ≤ g.scope.locals.length

namespace Compiler.Context

variable {g g' : Context} {v : Visible}

lemma orderly_script : Context.script.Orderly where
  settled := settled_script
  sound := sound_script
  tidy := fun _ hf => List.mem_singleton.1 hf ▸ FunctionScope.tidy_new .script []
  floor := Nat.le_refl _

lemma Orderly.beginScope (h : g.Orderly) : g.beginScope.Orderly :=
  ⟨h.settled.beginScope, h.sound.beginScope, h.tidy.beginScope, h.floor⟩

lemma Orderly.expr {es : List Expr} {c : Code} (h : g.Orderly) (he : Expr.Emits g es c g')
    (hnames : [] ∉ Expr.namesOfAll es) : g'.Orderly where
  settled := (Keeps.of_grows h.settled he.grows).settled
  sound := he.sound h.sound
  tidy := he.tidy hnames h.tidy
  floor := by
    rw [he.grows.scope.arity, ← he.grows.scope.locals.length_eq]
    exact h.floor

lemma Orderly.condition {e? : Option Expr} {n : Nat} {c : Code} (h : g.Orderly)
    (he : Expr.EmitsCondition g e? n c g') (hnamed : ∀ e ∈ e?, e.Named) : g'.Orderly := by
  cases he with
  | none => exact h
  | some he => exact h.expr he (Expr.namesOfAll_singleton (hnamed _ rfl))

lemma Orderly.increment {e? : Option Expr} {n back : Nat} {c : Code} (h : g.Orderly)
    (he : Expr.EmitsIncrement g e? n c g' back) (hnamed : ∀ e ∈ e?, e.Named) : g'.Orderly := by
  cases he with
  | none => exact h
  | some he => exact h.expr he (Expr.namesOfAll_singleton (hnamed _ rfl))

/-- The body of a function begins in order. -/
lemma Orderly.function {g₁ : Context} {name : Text} {global? : Option Nat} {ps : List Text}
    (h : g.Orderly) (hnames : g.Names name global? g₁)
    (htakes : (g₁.complete.enter name).Takes ps g') : g'.Orderly := by
  obtain ⟨hsound, hlength⟩ := htakes.spec ((hnames.sound h.sound).complete.enter name) rfl
  exact ⟨htakes.settled (settled_enter _ _) Nat.one_pos, hsound,
    htakes.tidy ((hnames.tidy h.tidy).complete.enter name), Nat.le_of_eq hlength.symm⟩

end Compiler.Context

lemma Stmt.Emits.orderly {g g' : Context} {s : Stmt} {c : Code} (h : Emits g s c g')
    (hg : g.Orderly) (hs : s.Structured) (hnamed : s.AllExprs Expr.Named) : g'.Orderly where
  settled := (h.extends hg.settled hs).1.settled
  sound := (h.verified hg.settled hs hg.sound).1
  tidy := (h.charted hg.settled hs hnamed hg.sound hg.tidy hg.floor).1
  floor := by
    rw [h.widens.arity]
    exact Nat.le_trans hg.floor (h.extends hg.settled hs).1.length_le

lemma Stmt.Emits.encodable {g g' : Context} {s : Stmt} {c : Code} (h : Emits g s c g')
    (hg : g.Orderly) (hs : s.Structured) (hnamed : s.AllExprs Expr.Named) :
    ∀ i ∈ c, i.1.Encodable :=
  ((h.charted hg.settled hs hnamed hg.sound hg.tidy hg.floor).2 (g'.scope.fits_append [])).encodable

namespace Compiler.Context

variable {g g' : Context} {v : Visible}

/-! ## Names -/

/-- Between statements all locals can be read. -/
lemma Settled.readable_eq (h : g.Settled) : g.scope.readable = g.scope.locals := by
  have hall : ∀ ls : List Local, (∀ l ∈ ls, ∃ d ≤ g.scope.depth, l.depth = some d) →
      ls.dropWhile (·.depth.isNone) = ls := by
    intro ls hls
    cases ls with
    | nil => rfl
    | cons l ls =>
      obtain ⟨d, -, hd⟩ := hls l List.mem_cons_self
      exact List.dropWhile_cons_of_neg (by simp [hd])
  exact hall g.scope.locals h

lemma Settled.knows_iff (h : g.Settled) {names : List Text} :
    g.scope.Knows names ↔ g.scope.locals.map Local.name = names ++ [[]] := by
  rw [FunctionScope.Knows, h.readable_eq]

lemma Knows.length_eq (h : g.Knows v) (hg : g.Settled) :
    g.scope.locals.length = v.locals.length + 1 := by
  have hlength := congrArg List.length (hg.knows_iff.1 h.scope)
  simpa using hlength

lemma Knows.keeps (h : g.Knows v) (hkeeps : g.Keeps g') (hwidens : g.Widens g') : g'.Knows v where
  scope := h.scope.of_locals hkeeps.locals
  enclosing := forall₂_knows h.enclosing hwidens.enclosing
  top := by rw [hwidens.depth, h.top]

lemma Knows.beginScope (h : g.Knows v) : g.beginScope.Knows v.block where
  scope := h.scope
  enclosing := h.enclosing
  top := by simp [Visible.block, Context.beginScope]

end Compiler.Context

lemma Stmt.IsStatement.after_eq {s : Stmt} (h : s.IsStatement) (v : Visible) : s.after v = v := by
  cases s with
  | seq | declareVar | declareFun => exact h.elim
  | _ => rfl

lemma Stmt.IsStatement.captured_eq {s : Stmt} (h : s.IsStatement) (v : Visible)
    (following : List Action) : s.captured v following = [] := by
  cases s with
  | seq | declareVar | declareFun => exact h.elim
  | _ => rfl

/-! ## Statements -/

/-- These slots, the newest first. -/
def slotsDown (m n : Nat) : List Nat :=
  (List.range' m (n - m)).reverse

/-- The code of the statement performs its actions and leaves the names that are visible then.  Whether
the locals that it leaves are marked in the end depends on what follows. -/
structure Stmt.Scopes (v : Visible) (s : Stmt) (g : Context) (c : Code) (g' : Context) : Prop
    extends g.Does (s.actions v) c g' where
  knows : g'.Knows (s.after v)
  captured : ∀ (following : List Action) (marked : Nat → Bool),
    (∀ slot, g.scope.locals.length ≤ slot → slot < g'.scope.locals.length →
      marked slot = (g'.marked 0 slot || usedByAny 0 slot following)) →
    (slotsDown g.scope.locals.length g'.scope.locals.length).map marked = s.captured v following

section Scopes

variable {g g₁ g' g'' : Context} {v : Visible} {s rest : Stmt} {c d : Code}

/-- A statement that is not a declaration leaves no locals. -/
lemma Stmt.Emits.scopes_of_does (h : Emits g s c g') (hs : s.IsStatement) (hset : g.Settled)
    (hstructured : s.Structured) (hknows : g.Knows v)
    (hdoes : g.Keeps g' → g.Does (s.actions v) c g') : s.Scopes v g c g' := by
  have hkeeps := (h.extends hset hstructured).2 hs
  refine ⟨hdoes hkeeps, ?_, fun following marked _ => ?_⟩
  · rw [hs.after_eq]
    exact hknows.keeps hkeeps h.widens
  · rw [hs.captured_eq, ← hkeeps.length_eq, slotsDown, Nat.sub_self]
    rfl

lemma slotsDown_append {m n k : Nat} (hmn : m ≤ n) (hnk : n ≤ k) :
    slotsDown m k = slotsDown n k ++ slotsDown m n := by
  have hsum : k - m = (n - m) + (k - n) := by omega
  rw [slotsDown, slotsDown, slotsDown, hsum, ← List.range'_append, List.reverse_append]
  congr 3
  omega

lemma Stmt.Scopes.seq (h : s.Scopes v g c g') (h' : rest.Scopes (s.after v) g' d g'') :
    (Stmt.seq s rest).Scopes v g (c ++ d) g'' where
  toDoes := h.toDoes.append h'.toDoes
  knows := h'.knows
  captured following marked hmarked := by
    rw [slotsDown_append h.length_le h'.length_le, List.map_append, Stmt.captured]
    congr 1
    · exact h'.captured following marked fun slot hle hlt =>
        hmarked slot (Nat.le_trans h.length_le hle) hlt
    · refine h.captured _ marked fun slot hle hlt => ?_
      rw [hmarked slot hle (Nat.lt_of_lt_of_le hlt h'.length_le), h'.marks 0 slot fun _ => hlt,
        usedByAny_append, Bool.or_assoc]

/-! ## Blocks -/

lemma Compiler.map_captured (new old : List Local) :
    new.map Local.captured =
      (slotsDown old.length (new ++ old).length).map fun slot => Local.marked slot (new ++ old) := by
  induction new with
  | nil => simp [slotsDown]
  | cons l new ih =>
    have hle : old.length ≤ (new ++ old).length := by simp
    have htop : slotsDown (new ++ old).length ((new ++ old).length + 1) = [(new ++ old).length] := by
      simp [slotsDown]
    rw [List.map_cons, ih, List.cons_append, List.length_cons,
      slotsDown_append hle (Nat.le_succ _), htop, List.singleton_append, List.map_cons]
    congr 1
    · simp [Local.marked]
    · refine List.map_congr_left fun slot hslot => ?_
      have hlt : slot < (new ++ old).length := by
        simp only [slotsDown, List.mem_reverse, List.mem_range'_1] at hslot
        omega
      exact (Local.marked_append [l] hlt).symm

/-- The marks of the locals of a block, when it ends. -/
lemma Compiler.Context.map_captured_leaving (hkeeps : g.Keeps g'.endScope) :
    g'.leaving.map Local.captured =
      (slotsDown g.scope.locals.length g'.scope.locals.length).map (g'.marked 0) := by
  rw [hkeeps.length_eq, map_captured _ g'.endScope.scope.locals, ← locals_eq_leaving_append]
  rfl

lemma performs_dropCode (chain : List Prototype) (ls : List Local) (line : UInt32) :
    Action.AllPerformedBy chain ((ls.map Local.captured).map .drop)
      ((dropCode ls line).map Prod.fst) := by
  induction ls with
  | nil => exact .nil
  | cons l ls ih => exact .cons .drop ih

/-- The locals of a block are dropped when it ends. -/
lemma Compiler.Context.Does.block {as : List Action} {flags : List Bool}
    (h : g.beginScope.Does as c g') (hkeeps : g.Keeps g'.endScope)
    (hflags : (slotsDown g.scope.locals.length g'.scope.locals.length).map (g'.marked 0) = flags)
    (line : UInt32) :
    g.Does (as ++ flags.map .drop) (c ++ dropCode g'.leaving line) g'.endScope where
  widens := h.widens.of_block
  length_le := Nat.le_of_eq hkeeps.length_eq
  performs chain hchain := by
    have hwidens : g'.scope.Widens g'.endScope.scope := .of_eq rfl rfl rfl rfl
    obtain ⟨p, outer, hp, houter, rfl⟩ := List.forall₂_cons_left_iff.1 hchain
    have hbody : g'.Becomes (p :: outer) := .cons (hwidens.becomes hp) houter
    rw [List.map_append, ← hflags, ← map_captured_leaving hkeeps]
    exact (h.performs _ hbody).append (performs_dropCode _ _ _)
  marks level slot hslot := by
    have hsame : g'.endScope.marked level slot = g'.marked level slot := by
      cases level with
      | zero =>
        have hlt := hkeeps.length_eq ▸ hslot rfl
        change Local.marked slot _ = Local.marked slot g'.scope.locals
        rw [g'.locals_eq_leaving_append, Local.marked_append _ hlt]
      | succ level => rfl
    have hbegin : g.beginScope.marked level slot = g.marked level slot := by cases level <;> rfl
    rw [hsame, h.marks level slot hslot, hbegin, usedByAny_append, usedByAny_drops, Bool.or_false]

/-! ## Loops -/

lemma Expr.EmitsCondition.does {e? : Option Expr} {n : Nat} (h : EmitsCondition g e? n c g')
    (hnamed : ∀ e ∈ e?, e.Named) (hg : g.Sound) (hknows : g.Knows v) :
    g.Does (conditionActions v e?) c g' := by
  cases h with
  | none => exact Context.does_of_locals (.refl _) rfl rfl
  | some he =>
    have hdoes := he.does (namesOfAll_singleton (hnamed _ rfl)) hg hknows
    simpa [conditionActions, actionsOfAll] using (hdoes.plain _ _ _).plain _ _ _

lemma Expr.EmitsIncrement.does {e? : Option Expr} {n back : Nat}
    (h : EmitsIncrement g e? n c g' back) (hnamed : ∀ e ∈ e?, e.Named) (hg : g.Sound)
    (hknows : g.Knows v) : g.Does (incrementActions v e?) c g' := by
  cases h with
  | none => exact Context.does_of_locals (.refl _) rfl rfl
  | some he =>
    have hdoes := he.does (namesOfAll_singleton (hnamed _ rfl)) hg hknows
    simpa [incrementActions, actionsOfAll] using ((hdoes.before _ _ _).plain _ _ _).plain _ _ _

lemma does_exitCode (g : Context) (condition : Option Expr) (line : UInt32) :
    g.Does (Action.exit condition) (exitCode condition line) g := by
  cases condition with
  | none => exact Context.does_of_locals (.refl _) rfl rfl
  | some => exact Context.does_plain g _ _ _

/-! ## Declarations -/

namespace Compiler.Context

variable {name : Text} {global? : Option Nat} {line : UInt32} {as : List Action}

lemma marked_complete (g : Context) (level slot : Nat) :
    g.complete.marked level slot = g.marked level slot := by
  rw [complete]
  split
  · rfl
  · rfl
  · rename_i l older hlocals _
    cases level with
    | zero => simp [marked, FunctionScope.marked, hlocals, Local.marked]
    | succ level => rfl

lemma names_complete (g : Context) :
    g.complete.scope.locals.map Local.name = g.scope.locals.map Local.name := by
  rw [complete]
  split
  · rfl
  · rfl
  · rename_i l older hlocals _
    simp [hlocals]

lemma does_complete (g : Context) : g.Does [] [] g.complete :=
  does_nil g.widens_complete (Nat.le_of_eq g.length_complete.symm) fun level slot _ =>
    g.marked_complete level slot

/-- A declaration begins without marking anything. -/
lemma Names.does (h : g.Names name global? g₁) : g.Does [] [] g₁ := by
  cases h with
  | ofLocal =>
    refine does_nil (g.widens_declare name) (Nat.le_succ _) fun level slot hslot => ?_
    cases level with
    | zero => exact Local.marked_append [_] (hslot rfl)
    | succ level => rfl
  | ofGlobal => exact does_of_locals (g.grows_addString name).widens rfl rfl

lemma Names.top_iff (h : g.Names name global? g₁) (hknows : g.Knows v) :
    v.top = false ↔ global? = none := by
  rw [← h.depth_pos, Nat.pos_iff_ne_zero, ne_eq, ← hknows.top, Bool.not_eq_true]

/-- A global is defined by its name. -/
lemma Names.does_define (h : g.Names name global? g₁) (hg : g.Sound) (hknows : g.Knows v)
    (hwidens : g₁.Widens g') (line : UInt32) :
    g'.Does (v.define name) (defineCode global? line) g' where
  widens := .refl g'
  length_le := Nat.le_refl _
  performs chain hchain := by
    have htop := h.top_iff hknows
    cases h with
    | ofLocal =>
      rw [Visible.define, htop.2 rfl]
      exact .nil
    | ofGlobal =>
      have hglobal : v.top = true := by simpa using htop
      rw [Visible.define, hglobal]
      obtain ⟨p, outer, w, rfl, hw, hfits⟩ := (hwidens.becomes hchain).scope
      exact (Action.PerformedBy.define hw
        (Pool.get?_of_prefix hfits.strings (Pool.get?_add hg.scope.strings name))).single
  marks level slot _ := by rw [v.usedByAny_define, Bool.or_false]

/-- The names after a declaration, when its local can be read. -/
lemma Names.knows (h : g.Names name global? g₁) (hg : g.Settled) (hknows : g.Knows v)
    (hset : g'.Settled) (hlocals : g'.scope.locals.map Local.name = g₁.scope.locals.map Local.name)
    (hwidens : g₁.Widens g') : g'.Knows (v.declare name) := by
  have hnames := hg.knows_iff.1 hknows.scope
  have htop := h.top_iff hknows
  have henclosing := forall₂_knows hknows.enclosing (h.widens.trans hwidens).enclosing
  have hdepth : g'.scope.depth = g.scope.depth := (h.widens.trans hwidens).depth
  cases h with
  | ofLocal =>
    rw [Visible.declare, if_neg (by simp [htop.2 rfl])]
    refine ⟨hset.knows_iff.2 ?_, henclosing, hdepth ▸ hknows.top⟩
    rw [hlocals]
    exact congrArg (name :: ·) hnames
  | ofGlobal =>
    have hglobal : v.top = true := by simpa using htop
    rw [Visible.declare, hglobal]
    exact ⟨hset.knows_iff.2 (hlocals.trans hnames), henclosing, hdepth ▸ hknows.top⟩

/-- In its initializer a local cannot be read. -/
lemma Names.knows_within (h : g.Names name global? g₁) (hknows : g.Knows v) :
    g₁.Knows v := by
  cases h with
  | ofLocal =>
    have hscope : (g.declare name).scope.Knows v.locals := by
      have hnames := hknows.scope
      rw [FunctionScope.Knows, FunctionScope.readable] at hnames ⊢
      rw [declare, List.dropWhile_cons_of_pos rfl]
      exact hnames
    exact ⟨hscope, hknows.enclosing, hknows.top⟩
  | ofGlobal => exact hknows.grows (g.grows_addString name)

lemma Names.settled_complete (h : g.Names name global? g₁) (hg : g.Settled) :
    g₁.complete.Settled := by
  cases h with
  | ofLocal hpos _ =>
    have hext : g.Extends (g.declare name).complete :=
      .of_complete hg hpos rfl rfl (List.forall₂_same.2 fun l _ => .refl l)
    exact hext.settled
  | ofGlobal hzero _ =>
    have hzero' : (g.addString name).2.scope.depth = 0 := hzero
    rw [complete_of_depth_zero hzero']
    exact hg

/-- Whether a local that was just declared is captured depends on the rest of its declaration and on
what follows. -/
lemma Names.captured (h : g.Names name global? g₁) (hg : g.Settled) (hknows : g.Knows v)
    (hdoes : g₁.Does as c g') (hlength : g'.scope.locals.length = g₁.scope.locals.length)
    (following : List Action) (marked : Nat → Bool)
    (hmarked : ∀ slot, g.scope.locals.length ≤ slot → slot < g'.scope.locals.length →
      marked slot = (g'.marked 0 slot || usedByAny 0 slot following)) :
    (slotsDown g.scope.locals.length g'.scope.locals.length).map marked =
      if v.top then []
      else [usedByAny 0 (v.locals.length + 1) as || usedByAny 0 (v.locals.length + 1) following] := by
  have htop := h.top_iff hknows
  rw [← hknows.length_eq hg]
  cases h with
  | ofLocal =>
    have hnew : g'.scope.locals.length = g.scope.locals.length + 1 := hlength
    have hslot : (g.declare name).marked 0 g.scope.locals.length = false := by
      simp [Context.marked, FunctionScope.marked, declare, Local.marked]
    rw [htop.2 rfl, hnew, slotsDown, Nat.add_sub_cancel_left, List.range'_one, List.reverse_singleton,
      List.map_singleton, hmarked _ (Nat.le_refl _) (hnew ▸ Nat.lt_succ_self _),
      hdoes.marks 0 _ fun _ => Nat.lt_succ_self _, hslot, Bool.false_or]
    rfl
  | ofGlobal =>
    have hglobal : v.top = true := by simpa using htop
    have hsame : g'.scope.locals.length = g.scope.locals.length := hlength
    rw [hglobal, hsame, slotsDown, Nat.sub_self]
    rfl

/-! ## Functions -/

/-- The parameters of a function can be used in its body. -/
lemma Takes.knows {ps : List Text} (h : g.Takes ps g') (hg : g.Settled) (hpos : 0 < g.scope.depth)
    (hknows : g.Knows v) : g'.Knows { v with locals := ps.reverse ++ v.locals } := by
  induction h generalizing v with
  | nil => exact hknows
  | @cons g g' p ps _ _ _ ih =>
    have hext : g.countParameter.Extends (g.countParameter.declare p).complete :=
      .of_complete hg hpos rfl rfl (List.forall₂_same.2 fun l _ => .refl l)
    have hset := hext.settled
    have hdepth := (widens_complete (g.countParameter.declare p)).depth
    have hscope : (g.countParameter.declare p).complete.scope.Knows (p :: v.locals) := by
      rw [hset.knows_iff, names_complete]
      exact congrArg (p :: ·) (hg.knows_iff.1 hknows.scope)
    have hknows' : (g.countParameter.declare p).complete.Knows { v with locals := p :: v.locals } :=
      ⟨hscope, (enclosing_complete _).symm ▸ hknows.enclosing, hdepth ▸ hknows.top⟩
    have hall := ih hset (hdepth ▸ hpos) hknows'
    simpa using hall

/-- The names that can be used in the body of a function. -/
lemma Knows.enter (h : g.Knows v) (name : Text) {ps : List Text}
    (htakes : (g.enter name).Takes ps g') : g'.Knows (v.enter ps) := by
  have hscope : (g.enter name).scope.Knows [] := (settled_enter g name).knows_iff.2 rfl
  have hentered : (g.enter name).Knows ⟨[], v.locals :: v.outer, false⟩ :=
    ⟨hscope, .cons h.scope h.enclosing, by simp [Context.enter]⟩
  have hall := htakes.knows (settled_enter g name) Nat.one_pos hentered
  simpa [Visible.enter] using hall

/-- The finished function contains what was gathered for it. -/
lemma Becomes.function {g₃ : Context} {outer : FunctionScope} {enclosing : List FunctionScope}
    {chain : List Prototype} (c : Code) (line : UInt32) (henclosing : g₃.enclosing = outer :: enclosing)
    (hchain : Becomes ⟨outer, enclosing⟩ chain) :
    g₃.Becomes (g₃.scope.prototypeOf c line :: chain) := by
  have hscope : g₃.scope.Becomes (g₃.scope.prototypeOf c line) :=
    ⟨List.prefix_refl _, _, rfl, g₃.scope.fits_append _⟩
  refine .cons hscope ?_
  rw [henclosing]
  exact hchain

/-- A function performs the actions of its body and returns. -/
lemma Does.function {chain : List Prototype} (h : g.Does as c g')
    (hchain : g'.Becomes (g'.scope.prototypeOf c line :: chain)) (hg : g'.Sound)
    (hencodable : ∀ i ∈ c, i.1.Encodable) :
    Prototype.Performs chain (g'.scope.prototypeOf c line) (as ++ Action.leave) := by
  have hcode := hg.scope.holds_append (c ++ returnCode line)
  have hall : ∀ i ∈ c ++ returnCode line, i.1.Encodable := by
    intro i hi
    rcases List.mem_append.1 hi with hi | hi
    · exact hencodable i hi
    · rcases List.mem_pair.1 hi with rfl | rfl <;> rfl
  have hsize : 0 + (c ++ returnCode line).size =
      (g'.scope.chunk.append (c ++ returnCode line)).code.size := by
    rw [← Array.length_toList]
    simp [Chunk.append, hg.scope.code]
  refine .mk rfl (decodes_of_holds hcode hall hsize) ?_
  rw [List.map_append]
  exact (h.performs _ hchain).append (.cons .plain (.cons .plain .nil))

/-- The instruction that makes a closure of a function. -/
lemma does_closure {g₂ g₃ : Context} {outer : FunctionScope} {enclosing : List FunctionScope}
    {ps : List Text} (line line' : UInt32) (htakes : (g.enter name).Takes ps g₂) (hbody : g₂.Does as c g₃)
    (hg : g₃.Sound) (hencodable : ∀ i ∈ c, i.1.Encodable) (houter : g₃.enclosing = outer :: enclosing) :
    g.Does [.closure (as ++ Action.leave)] [(⟨.closure, outer.chunk.functions.size⟩, line)]
      (Context.addFunction ⟨outer, enclosing⟩ (g₃.scope.prototypeOf c line')).2 := by
  have hgrow := hbody.widens.enclosing
  rw [htakes.enclosing, houter] at hgrow
  obtain ⟨hscope, henclosing⟩ := List.forall₂_cons.1 hgrow
  have hgrows : g.Grows ⟨outer, enclosing⟩ := ⟨hscope, henclosing⟩
  have hadded := grows_addFunction ⟨outer, enclosing⟩ (g₃.scope.prototypeOf c line')
  refine ⟨(hgrows.trans hadded).widens, Nat.le_of_eq hgrows.scope.locals.length_eq,
    fun chain hchain => ?_, fun level slot _ => ?_⟩
  · have hbefore := hadded.widens.becomes hchain
    have hperforms := hbody.function (.function c line' houter hbefore) hg hencodable
    obtain ⟨p, rest, w, rfl, hw, hfits⟩ := hchain.scope
    have hfunction : w.functions[outer.chunk.functions.size]? =
        some (g₃.scope.prototypeOf c line') := by
      obtain ⟨more, hmore⟩ := hfits.functions
      rw [← Array.getElem?_toList, ← hmore]
      simp [Context.addFunction, Context.mapChunk, Chunk.addFunction]
    exact (Action.PerformedBy.closure hw hfunction hperforms).single
  · -- One level outward from the body is where the function is declared.
    have hinside := hbody.marks (level + 1) slot (by simp)
    simp only [Context.marked, FunctionScope.marked, houter, htakes.enclosing, Context.enter]
      at hinside
    have hsame : (Context.addFunction ⟨outer, enclosing⟩ (g₃.scope.prototypeOf c line')).2.marked
        level slot = FunctionScope.marked (outer :: enclosing) level slot := by
      cases level <;> rfl
    rw [hsame, hinside, usedByAny_cons, usedByAny_nil, Bool.or_false, Action.uses, usedByAny_append]
    simp [Context.marked, Action.leave, Action.uses]

end Compiler.Context

end Scopes

lemma Expr.Emits.does_one {g g' : Context} {e : Expr} {c : Code} {v : Visible}
    (h : Emits g [e] c g') (hnamed : e.Named) (hg : g.Sound) (hknows : g.Knows v) :
    g.Does (e.actions v) c g' := by
  have hdoes := h.does (namesOfAll_singleton hnamed) hg hknows
  rwa [actionsOfAll, actionsOfAll, List.append_nil] at hdoes

/-- The code of a statement performs the actions of the statement. -/
theorem Stmt.Emits.scopes {g g' : Context} {s : Stmt} {c : Code} {v : Visible} (h : Emits g s c g')
    (hg : g.Orderly) (hknows : g.Knows v) (hs : s.Structured) (hnamed : s.AllExprs Expr.Named) :
    s.Scopes v g c g' := by
  induction h generalizing v with
  | skip =>
    exact Emits.skip.scopes_of_does trivial hg.settled hs hknows fun _ =>
      Context.does_of_locals (.refl _) rfl rfl
  | seq hfirst _ ih ih' =>
    have hfirst' := ih hg hknows hs.1 hnamed.1
    exact hfirst'.seq (ih' (hfirst.orderly hg hs.1 hnamed.1) hfirst'.knows hs.2 hnamed.2)
  | @declareVar g g₁ g₂ name _ e c line hnames he =>
    have hvalue := he.does_one hnamed (hnames.sound hg.sound) (hnames.knows_within hknows)
    have hrest := (hvalue.append (hnames.does_define hg.sound hknows he.grows.widens line)).append
      (Context.does_complete _)
    rw [List.append_nil, List.append_nil] at hrest
    have hset := ((@Emits.declareVar _ _ _ _ _ _ _ line hnames he).extends hg.settled hs).1.settled
    refine ⟨hnames.does.append hrest, ?_, fun following marked hmarked => ?_⟩
    · refine hnames.knows hg.settled hknows hset ?_ hrest.widens
      rw [Context.names_complete, names_of_grows he.grows.scope.locals]
    · have hlength : g₂.complete.scope.locals.length = g₁.scope.locals.length := by
        rw [g₂.length_complete, he.grows.scope.locals.length_eq]
      rw [hnames.captured hg.settled hknows hrest hlength following marked hmarked, captured,
        usedByAny_append, e.usedByAny_zero, v.usedByAny_define, Bool.false_or, Bool.false_or]
  | @declareFun g g₁ g₂ g₃ name _ ps body c outer rest line line' line'' hnames htakes hbody houter
      hmax ih =>
    have hknows₁ : g₁.complete.Knows (v.declare name) := hnames.knows hg.settled hknows
      (hnames.settled_complete hg.settled) g₁.names_complete g₁.widens_complete
    have horderly := hg.function hnames htakes
    have hscopes := ih horderly (hknows₁.enter name htakes) hs hnamed
    have hclosure := Context.does_closure line line'' htakes hscopes.toDoes
      (hbody.orderly horderly hs hnamed).sound (hbody.encodable horderly hs hnamed) houter
    have hrest := (((Context.does_complete g₁).append hclosure).append
      (hnames.does_define hg.sound hknows (g₁.widens_complete.trans hclosure.widens) line')).append
        (Context.does_complete _)
    rw [List.nil_append, List.nil_append, List.append_nil, List.append_nil] at hrest
    have hset := ((@Emits.declareFun _ _ _ _ _ _ _ _ _ _ _ line line' line'' hnames htakes hbody
      houter hmax).extends hg.settled hs).1.settled
    have hgrow := hbody.widens.enclosing
    rw [htakes.enclosing, houter] at hgrow
    obtain ⟨hscope, -⟩ := List.forall₂_cons.1 hgrow
    refine ⟨hnames.does.append hrest, ?_, fun following marked hmarked => ?_⟩
    · refine hnames.knows hg.settled hknows hset ?_ hrest.widens
      rw [Context.names_complete]
      exact (names_of_grows hscope.locals).trans g₁.names_complete
    · have hlength : (Context.addFunction ⟨outer, rest⟩
          (g₃.scope.prototypeOf c line'')).2.complete.scope.locals.length =
            g₁.scope.locals.length := by
        rw [Context.length_complete]
        exact hscope.locals.length_eq.symm.trans g₁.length_complete
      rw [hnames.captured hg.settled hknows hrest hlength following marked hmarked, captured]
      simp [Action.uses, Action.leave, v.usedByAny_define]
  | print he =>
    exact (Emits.print he).scopes_of_does trivial hg.settled hs hknows fun _ =>
      (he.does_one hnamed hg.sound hknows).plain _ _ _
  | discard he =>
    exact (Emits.discard he).scopes_of_does trivial hg.settled hs hknows fun _ =>
      (he.does_one hnamed hg.sound hknows).plain _ _ _
  | echo he =>
    exact (Emits.echo he).scopes_of_does trivial hg.settled hs hknows fun _ =>
      (he.does_one hnamed hg.sound hknows).plain _ _ _
  | ret hkind he =>
    exact (Emits.ret hkind he).scopes_of_does trivial hg.settled hs hknows fun _ =>
      (he.does_one hnamed hg.sound hknows).plain _ _ _
  | branch he hyes hno hmax hmax' ih ih' =>
    have hcond := he.does_one hnamed.1 hg.sound hknows
    have horderly₁ := hg.expr he (Expr.namesOfAll_singleton hnamed.1)
    have hyes' := ih horderly₁ (hknows.grows he.grows) hs.2.1 hnamed.2.1
    have hknows₂ := hyes'.knows
    rw [hs.1.after_eq] at hknows₂
    have hno' := ih' (hyes.orderly horderly₁ hs.2.1 hnamed.2.1) hknows₂ hs.2.2.2 hnamed.2.2
    exact (Emits.branch he hyes hno hmax hmax').scopes_of_does trivial hg.settled hs hknows fun _ =>
      (hcond.append ((hyes'.toDoes.before _ _ _).before _ _ _)).append
        ((hno'.toDoes.before _ _ _).before _ _ _)
  | whileLoop he hbody hmax hmax' ih =>
    have hcond := he.does_one hnamed.1 hg.sound hknows
    have hbody' := ih (hg.expr he (Expr.namesOfAll_singleton hnamed.1)) (hknows.grows he.grows) hs.2
      hnamed.2
    exact (Emits.whileLoop he hbody hmax hmax').scopes_of_does trivial hg.settled hs hknows fun _ =>
      (hcond.append ((hbody'.toDoes.before _ _ _).before _ _ _)).append
        ((Context.does_plain _ _ _ _).plain _ _ _)
  | @forLoop g g₁ g₂ g₃ g₄ init body condition increment c₁ c₂ c₃ c₄ back l₁ l₂ l₃ hinit hcond hinc
      hbody hmax ih ih' =>
    have horderly₁ := hinit.orderly hg.beginScope hs.1 hnamed.1
    have horderly₂ := horderly₁.condition hcond hnamed.2.1
    have horderly₃ := horderly₂.increment hinc hnamed.2.2.1
    have hinit' := ih hg.beginScope hknows.beginScope hs.1 hnamed.1
    have hknows₂ := hinit'.knows.grows hcond.grows
    have hbody' := ih' horderly₃ (hknows₂.grows hinc.grows) hs.2.2 hnamed.2.2.2
    have hturn := ((hcond.does hnamed.2.1 horderly₁.sound hinit'.knows).append
      (hinc.does hnamed.2.2.1 horderly₂.sound hknows₂)).append hbody'.toDoes
    have hloop := (hinit'.toDoes.append hturn).append
      ((does_exitCode g₄ condition l₂).before .loop (back + c₄.size + 3) l₁)
    refine (Emits.forLoop hinit hcond hinc hbody hmax).scopes_of_does trivial hg.settled hs hknows
      fun hkeeps => ?_
    -- The body may use the locals of the initializer, but it adds none.
    have hlength : g₁.scope.locals.length = g₄.scope.locals.length := by
      rw [hcond.grows.scope.locals.length_eq, hinc.grows.scope.locals.length_eq]
      exact ((hbody.extends horderly₃.settled hs.2.2).2 hs.2.1).length_eq
    have hflags := hinit'.captured _ (g₄.marked 0) fun slot _ hlt => hturn.marks 0 slot fun _ => hlt
    rw [hlength] at hflags
    have hall := hloop.block hkeeps hflags l₃
    simpa only [Stmt.actions, List.append_assoc, List.cons_append] using hall
  | @block g g' body c line hbody ih =>
    have hscopes := ih hg.beginScope hknows.beginScope hs hnamed
    refine (Emits.block hbody).scopes_of_does trivial hg.settled hs hknows fun hkeeps => ?_
    exact hscopes.toDoes.block hkeeps
      (hscopes.captured [] (g'.marked 0) fun slot _ _ => by simp) line

/-- The names of a program resolve lexically.  In every script that the compiler returns, and in all
functions in it, every instruction performs the action that the tree of the program asks for.  So every
use of a name reads or writes what the name is bound to, and a local is closed when its block ends just
if a function inside its scope uses it. -/
theorem names_resolve_lexically {interactive : Bool} {source : Text} {p : Prototype}
    (h : compile interactive source = .script p) :
    ∃ body last tree, tokenize source = body ++ [last] ∧
      Stmt.Derives interactive .declarations tree body ∧ tree.NearestElse ∧
      Prototype.Performs [] p (tree.actions .script ++ Action.leave) := by
  obtain ⟨body, last, tree, c, g, line, htokens, -, hderives, hnearest, -, hemits, rfl⟩ :=
    compile_eq_script h
  have hs := hderives.structured.1
  have hnamed := hderives.named_of_tokenize htokens
  have hscript := Context.orderly_script
  have hknows : Context.script.Knows .script :=
    ⟨Context.settled_script.knows_iff.2 rfl, .nil, by simp [Visible.script, Context.script,
      FunctionScope.new]⟩
  have hscopes := hemits.scopes hscript hknows hs hnamed
  have henclosing : g.enclosing = [] := List.forall₂_nil_left_iff.1 hemits.widens.enclosing
  have hscope : g.scope.Becomes (g.scope.prototypeOf c line) :=
    ⟨List.prefix_refl _, _, rfl, g.scope.fits_append _⟩
  refine ⟨body, last, tree, htokens, hderives, hnearest, ?_⟩
  refine hscopes.toDoes.function (.cons hscope ?_) (hemits.orderly hscript hs hnamed).sound
    (hemits.encodable hscript hs hnamed)
  rw [henclosing]
  exact .nil

/-- A variable that is used two functions further inside, and two of the same name. -/
theorem names_resolve_lexically_nested :
    ∃ p, compile false "{ var a; { var a; fun f() { fun g() { a = a + 1; } } } print a; }" = .script p ∧
      ∃ body last tree,
        tokenize "{ var a; { var a; fun f() { fun g() { a = a + 1; } } } print a; }" = body ++ [last] ∧
        Stmt.Derives false .declarations tree body ∧ tree.NearestElse ∧
        Prototype.Performs [] p (tree.actions .script ++ Action.leave) := by
  obtain ⟨p, hp⟩ := Compilation.exists_of_isSome (c := compile false
    "{ var a; { var a; fun f() { fun g() { a = a + 1; } } } print a; }") (by decide +kernel)
  exact ⟨p, hp, names_resolve_lexically hp⟩

end Lox
