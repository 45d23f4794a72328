import Lox.Proofs.Bytecode.Layout
import Lox.Proofs.Compiler.Verification

/-!
# Tidy contexts

What the code of a function owes to the bookkeeping of the compiler, beyond what is needed to run
it.  Pools hold each item once and captures are listed once.  Slot zero of a call holds the callee
and belongs to a local without a name, so that no variable is found there: the slots that are read,
assigned and captured are those of arguments and locals.

`Context.Tidy` says this of the function being compiled and of the functions around it, together
with what is proved of the functions that were finished.  Whatever the compiler does to a context
keeps it tidy, as long as every variable has a name (`Expr.Named`).
-/

namespace Lox

namespace Compiler

open FunctionScope

/-! ## Functions -/

/-- The oldest local has no name. -/
def Rooted (ls : List Local) : Prop :=
  ∃ l, ls.reverse[0]? = some l ∧ l.name = []

lemma Rooted.grows {ls ls' : List Local} (h : Rooted ls)
    (hgrows : List.Forall₂ Local.Grows ls ls') : Rooted ls' := by
  obtain ⟨l, hl, hname⟩ := h
  have hrev : List.Forall₂ Local.Grows ls.reverse ls'.reverse := List.rel_reverse hgrows
  obtain ⟨hlt, rfl⟩ := List.getElem?_eq_some_iff.1 hl
  have hlt' : 0 < ls'.reverse.length := hrev.length_eq ▸ hlt
  exact ⟨ls'.reverse[0], List.getElem?_eq_getElem hlt', (hrev.get hlt hlt').name.trans hname⟩

lemma Rooted.append {ls : List Local} (h : Rooted ls) (new : List Local) : Rooted (new ++ ls) := by
  obtain ⟨l, hl, hname⟩ := h
  refine ⟨l, ?_, hname⟩
  rw [List.reverse_append, List.getElem?_append_left (List.getElem?_eq_some_iff.1 hl).1]
  exact hl

lemma findLocal_name {name : Text} {ls : List Local} {slot : Nat} {l : Local}
    (h : findLocal name ls = some (slot, l)) : l.name = name := by
  induction ls with
  | nil => simp [findLocal] at h
  | cons l' older ih =>
    rw [findLocal] at h
    split at h
    · rename_i heq
      cases h
      exact heq
    · exact ih h

/-- A variable with a name is not found in slot zero. -/
lemma Rooted.slot_pos {ls : List Local} (h : Rooted ls) {name : Text} (hname : name ≠ [])
    {slot : Nat} {l : Local} (hfind : findLocal name ls = some (slot, l)) : 0 < slot := by
  obtain ⟨l₀, hl₀, hempty⟩ := h
  rw [Nat.pos_iff_ne_zero]
  rintro rfl
  have hl := findLocal_eq_some hfind
  rw [hl₀, Option.some.injEq] at hl
  subst hl
  exact hname ((findLocal_name hfind).symm.trans hempty)

/-- What is known of every function being compiled. -/
structure FunctionScope.Tidy (f : FunctionScope) : Prop where
  rooted : Rooted f.locals
  slots : ∀ c ∈ f.captures, c.isLocal = true → 0 < c.index
  captures : f.captures.toList.Nodup
  lines : f.chunk.lines = #[]
  constants : f.chunk.constants.Distinct
  strings : f.chunk.strings.Distinct
  functions : ∀ p ∈ f.chunk.functions, p.WellFormed ∧ p.Balanced

namespace FunctionScope

lemma tidy_new (kind : FunctionKind) (name : Text) : (FunctionScope.new kind name).Tidy where
  rooted := ⟨_, rfl, rfl⟩
  slots := by simp [FunctionScope.new]
  captures := by simp [FunctionScope.new]
  lines := rfl
  constants := Pool.distinct_empty
  strings := Pool.distinct_empty
  functions := by simp [FunctionScope.new, Chunk.empty]

lemma Tidy.of_eq {f f' : FunctionScope} (h : f.Tidy) (hchunk : f'.chunk = f.chunk)
    (hcaptures : f'.captures = f.captures) (hrooted : Rooted f'.locals) : f'.Tidy where
  rooted := hrooted
  slots := hcaptures ▸ h.slots
  captures := hcaptures ▸ h.captures
  lines := hchunk ▸ h.lines
  constants := hchunk ▸ h.constants
  strings := hchunk ▸ h.strings
  functions := hchunk ▸ h.functions

lemma Tidy.addCapture {f : FunctionScope} (h : f.Tidy) {c : Capture}
    (hc : c.isLocal = true → 0 < c.index) : (f.addCapture c).2.1.Tidy := by
  rw [FunctionScope.addCapture]
  split
  · exact h
  · rename_i hnone
    split
    · exact h
    · have hnew : c ∉ f.captures := by
        intro hmem
        have hsome := Array.isSome_idxOf?.2 hmem
        simp [hnone] at hsome
      refine { h with slots := ?_, captures := ?_ }
      · intro c' hc'
        rcases Array.mem_push.1 hc' with hc' | rfl
        · exact h.slots c' hc'
        · exact hc
      · have hdisjoint : ∀ c' ∈ f.captures.toList, c' ≠ c := by
          rintro c' hc' rfl
          exact hnew (Array.mem_toList_iff.1 hc')
        simpa [List.nodup_append] using ⟨h.captures, by simpa using hdisjoint⟩

lemma Tidy.markCaptured {f : FunctionScope} (h : f.Tidy) (slot : Nat) :
    Tidy { f with locals := FunctionScope.markCaptured slot f.locals } :=
  h.of_eq rfl rfl (h.rooted.grows (grows_markCaptured slot f.locals))

/-- Capturing a variable with a name keeps the functions tidy. -/
lemma capture?_tidy {name : Text} (hname : name ≠ []) {f f' : FunctionScope}
    {outer outer' : List FunctionScope} {i : Nat} {errors : List CompileError.Cause}
    (h : f.capture? name outer = some (i, f', outer', errors)) (ht : ∀ g ∈ f :: outer, g.Tidy) :
    ∀ g ∈ f' :: outer', g.Tidy := by
  induction outer generalizing f f' outer' i errors with
  | nil => simp [capture?] at h
  | cons o rest ih =>
    simp only [List.forall_mem_cons] at ht
    obtain ⟨hf, ho, hrest⟩ := ht
    rw [capture?] at h
    split at h
    · -- The variable is a local of the next function.
      rename_i slot l hfind
      simp only [Option.some.injEq, Prod.mk.injEq] at h
      obtain ⟨-, rfl, rfl, -⟩ := h
      simp only [List.forall_mem_cons]
      exact ⟨hf.addCapture fun _ => ho.rooted.slot_pos hname hfind, ho.markCaptured slot, hrest⟩
    · split at h
      · cases h
      · -- The next function captures it in turn.
        rename_i j o' rest' before hrec
        simp only [Option.some.injEq, Prod.mk.injEq] at h
        obtain ⟨-, rfl, rfl, -⟩ := h
        rw [List.forall_mem_cons]
        exact ⟨hf.addCapture (by simp), ih hrec (List.forall_mem_cons.2 ⟨ho, hrest⟩)⟩

end FunctionScope

/-! ## Contexts -/

namespace Context

/-- Every function of the context is tidy. -/
def Tidy (g : Context) : Prop :=
  ∀ f ∈ g.scope :: g.enclosing, f.Tidy

lemma Tidy.scope {g : Context} (h : g.Tidy) : g.scope.Tidy :=
  h g.scope List.mem_cons_self

lemma Tidy.of_scope {g : Context} (h : g.Tidy) {f : FunctionScope} (hf : f.Tidy) :
    Tidy ⟨f, g.enclosing⟩ :=
  List.forall_mem_cons.2 ⟨hf, (List.forall_mem_cons.1 h).2⟩

lemma Tidy.addConstant {g : Context} (h : g.Tidy) (bits : UInt64) : (g.addConstant bits).2.Tidy :=
  h.of_scope { h.scope with constants := h.scope.constants.add bits }

lemma Tidy.addString {g : Context} (h : g.Tidy) (t : Text) : (g.addString t).2.Tidy :=
  h.of_scope { h.scope with strings := h.scope.strings.add t }

lemma Tidy.addFunction {g : Context} (h : g.Tidy) {p : Prototype} (hp : p.WellFormed ∧ p.Balanced) :
    (g.addFunction p).2.Tidy := by
  refine h.of_scope { h.scope with functions := ?_ }
  intro q hq
  simp only [Chunk.addFunction, Array.mem_push] at hq
  rcases hq with hq | rfl
  · exact h.scope.functions q hq
  · exact hp

lemma Resolves.tidy {g g' : Context} {name : Text} {a : Access} (h : g.Resolves name a g')
    (hname : name ≠ []) (hg : g.Tidy) : g'.Tidy := by
  cases h with
  | ofLocal => exact hg
  | ofCapture _ hcapture => exact capture?_tidy hname hcapture hg
  | ofGlobal => exact hg.addString name

lemma Tidy.declare {g : Context} (h : g.Tidy) (name : Text) : (g.declare name).Tidy :=
  h.of_scope (h.scope.of_eq rfl rfl (h.scope.rooted.append [_]))

lemma Names.tidy {g g' : Context} {name : Text} {global? : Option Nat} (h : g.Names name global? g')
    (hg : g.Tidy) : g'.Tidy := by
  cases h with
  | ofLocal => exact hg.declare name
  | ofGlobal => exact hg.addString name

/-- A local that can be read from now on keeps its name. -/
lemma rooted_complete {g : Context} (h : Rooted g.scope.locals) :
    Rooted g.complete.scope.locals := by
  rw [complete]
  split
  · exact h
  · exact h
  · rename_i l older hlocals _
    rw [hlocals] at h
    cases older with
    | nil =>
      obtain ⟨l₀, hl₀, hname⟩ := h
      cases hl₀
      exact ⟨_, rfl, hname⟩
    | cons l' older =>
      obtain ⟨l₀, hl₀, hname⟩ := h
      rw [List.reverse_cons, List.getElem?_append_left (by simp)] at hl₀
      have hrooted : Rooted (l' :: older) := ⟨l₀, hl₀, hname⟩
      exact hrooted.append [_]

lemma Tidy.complete {g : Context} (h : g.Tidy) : g.complete.Tidy := by
  have hscope : g.complete.scope.Tidy := by
    refine h.scope.of_eq ?_ ?_ (rooted_complete h.scope.rooted)
    · rw [Context.complete]
      split <;> rfl
    · rw [Context.complete]
      split <;> rfl
  have henclosing : g.complete.enclosing = g.enclosing := by
    rw [Context.complete]
    split <;> rfl
  have htidy := h.of_scope hscope
  rwa [← henclosing] at htidy

lemma Tidy.beginScope {g : Context} (h : g.Tidy) : g.beginScope.Tidy :=
  h.of_scope (h.scope.of_eq rfl rfl h.scope.rooted)

/-- What is left at the end of a block are the locals from before it. -/
lemma Tidy.endScope {g g' : Context} (hg : g.Tidy) (h : g'.Tidy) (hkeeps : g.Keeps g'.endScope) :
    g'.endScope.Tidy :=
  h.of_scope (h.scope.of_eq rfl rfl (hg.scope.rooted.grows hkeeps.locals))

lemma Tidy.enter {g : Context} (h : g.Tidy) (name : Text) : (g.enter name).Tidy := by
  have hnew := FunctionScope.tidy_new .function name
  exact List.forall_mem_cons.2 ⟨hnew.of_eq rfl rfl hnew.rooted, h⟩

lemma Takes.tidy {g g' : Context} {ps : List Text} (h : g.Takes ps g') (hg : g.Tidy) : g'.Tidy := by
  induction h with
  | nil => exact hg
  | @cons g g' p ps _ _ _ ih =>
    have hcount : g.countParameter.Tidy := hg.of_scope (hg.scope.of_eq rfl rfl hg.scope.rooted)
    exact ih (hcount.declare p).complete

/-- There is a limit on the number of parameters. -/
lemma Takes.arity_le {g g' : Context} {ps : List Text} (h : g.Takes ps g')
    (hg : g.scope.arity ≤ maxArguments) : g'.scope.arity ≤ maxArguments := by
  induction h with
  | nil => exact hg
  | @cons g g' p ps hle _ _ ih =>
    refine ih ?_
    rw [(widens_complete _).arity]
    exact hle

end Context

end Compiler

open Compiler

/-! ## Expressions -/

/-- Compiling expressions keeps the context tidy. -/
theorem Expr.Emits.tidy {g g' : Context} {es : List Expr} {c : Code} (h : Emits g es c g')
    (hnames : [] ∉ namesOfAll es) (hg : g.Tidy) : g'.Tidy := by
  induction h with
  | nil | literal => exact hg
  | cons _ _ ih ih' =>
    simp only [namesOfAll, List.append_nil, List.mem_append, not_or] at hnames ih ih'
    exact ih' hnames.2 (ih hnames.1 hg)
  | number => exact hg.addConstant _
  | string => exact hg.addString _
  | var h =>
    simp only [namesOfAll, names, List.append_nil, List.mem_singleton] at hnames
    exact h.tidy (Ne.symm hnames) hg
  | assign h _ ih =>
    simp only [namesOfAll, names, List.append_nil, List.mem_cons, not_or] at hnames ih
    exact ih hnames.2 (h.tidy (Ne.symm hnames.1) hg)
  | unary _ ih =>
    simp only [namesOfAll, names, List.append_nil] at hnames ih
    exact ih hnames hg
  | binary _ _ ih ih' | and _ _ _ ih ih' | or _ _ _ ih ih' =>
    simp only [namesOfAll, names, List.append_nil, List.mem_append, not_or] at hnames ih ih'
    exact ih' hnames.2 (ih hnames.1 hg)
  | call _ _ ih =>
    simp only [namesOfAll, names, List.append_nil] at hnames ih
    exact ih hnames hg

lemma Expr.namesOfAll_singleton {e : Expr} (h : e.Named) : [] ∉ namesOfAll [e] := by
  simpa [namesOfAll, Named] using h

lemma Expr.EmitsCondition.tidy {g g' : Context} {e? : Option Expr} {n : Nat} {c : Code}
    (h : EmitsCondition g e? n c g') (hnamed : ∀ e ∈ e?, e.Named) (hg : g.Tidy) : g'.Tidy := by
  cases h with
  | none => exact hg
  | some h => exact h.tidy (namesOfAll_singleton (hnamed _ rfl)) hg

lemma Expr.EmitsIncrement.tidy {g g' : Context} {e? : Option Expr} {n back : Nat} {c : Code}
    (h : EmitsIncrement g e? n c g' back) (hnamed : ∀ e ∈ e?, e.Named) (hg : g.Tidy) : g'.Tidy := by
  cases h with
  | none => exact hg
  | some h => exact h.tidy (namesOfAll_singleton (hnamed _ rfl)) hg

end Lox
