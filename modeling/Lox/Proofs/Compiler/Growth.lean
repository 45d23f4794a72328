import Mathlib.Data.List.Forall2
import Mathlib.Data.List.TakeDrop
import Lox.Proofs.Bytecode.Pool
import Lox.Proofs.Compiler.Emission

/-!
# Contexts only grow

While a function is compiled its pools and captures are only extended, and a local that was
declared stays what it is, except that it may become captured.  `FunctionScope.Grows` says so of
a function; an expression lets every function of the context grow (`Expr.Emits.grows`).  A
statement may also add locals to the innermost function (`Stmt.Emits.widens`,
`Stmt.Emits.locals`); a block takes away the locals it added.
-/

namespace Lox

namespace Compiler

open FunctionScope

/-! ## Functions -/

/-- The same local, which may have been captured in the meantime. -/
structure Local.Grows (l l' : Local) : Prop where
  name : l'.name = l.name
  depth : l'.depth = l.depth
  captured : l.captured → l'.captured

lemma Local.Grows.refl (l : Local) : l.Grows l := ⟨rfl, rfl, id⟩

lemma Local.Grows.trans {l l' l'' : Local} (h : l.Grows l') (h' : l'.Grows l'') : l.Grows l'' :=
  ⟨h'.name.trans h.name, h'.depth.trans h.depth, h'.captured ∘ h.captured⟩

/-- What never changes and never shrinks while a function is compiled. -/
structure FunctionScope.Widens (f f' : FunctionScope) : Prop where
  kind : f'.kind = f.kind
  name : f'.name = f.name
  captures : f.captures.toList <+: f'.captures.toList
  constants : f.chunk.constants.items.toList <+: f'.chunk.constants.items.toList
  strings : f.chunk.strings.items.toList <+: f'.chunk.strings.items.toList
  functions : f.chunk.functions.toList <+: f'.chunk.functions.toList

/-- Parameters, blocks and locals do not matter. -/
lemma FunctionScope.Widens.of_eq {f f' : FunctionScope} (hkind : f'.kind = f.kind)
    (hname : f'.name = f.name) (hcaptures : f'.captures = f.captures) (hchunk : f'.chunk = f.chunk) :
    f.Widens f' := by
  refine ⟨hkind, hname, ?_, ?_, ?_, ?_⟩ <;> simp [hcaptures, hchunk]

lemma FunctionScope.Widens.refl (f : FunctionScope) : f.Widens f :=
  .of_eq rfl rfl rfl rfl

lemma FunctionScope.Widens.trans {f f' f'' : FunctionScope} (h : f.Widens f')
    (h' : f'.Widens f'') : f.Widens f'' :=
  ⟨h'.kind.trans h.kind, h'.name.trans h.name, h.captures.trans h'.captures,
    h.constants.trans h'.constants, h.strings.trans h'.strings, h.functions.trans h'.functions⟩

/-- The function with the same parameters, blocks and locals. -/
structure FunctionScope.Grows (f f' : FunctionScope) : Prop extends f.Widens f' where
  arity : f'.arity = f.arity
  depth : f'.depth = f.depth
  locals : List.Forall₂ Local.Grows f.locals f'.locals

lemma forall₂_trans {α : Type} {R : α → α → Prop} (h : ∀ a b c, R a b → R b c → R a c)
    {as bs cs : List α} (hab : List.Forall₂ R as bs) (hbc : List.Forall₂ R bs cs) :
    List.Forall₂ R as cs := by
  induction hab generalizing cs with
  | nil =>
    cases hbc
    exact .nil
  | cons h₁ _ ih =>
    cases hbc with
    | cons h₂ hbc => exact .cons (h _ _ _ h₁ h₂) (ih hbc)

namespace FunctionScope.Grows

lemma refl (f : FunctionScope) : f.Grows f :=
  ⟨.refl f, rfl, rfl, List.forall₂_same.2 fun l _ => .refl l⟩

lemma trans {f f' f'' : FunctionScope} (h : f.Grows f') (h' : f'.Grows f'') : f.Grows f'' :=
  ⟨h.toWidens.trans h'.toWidens, h'.arity.trans h.arity, h'.depth.trans h.depth,
    forall₂_trans (R := Local.Grows) (fun _ _ _ => Local.Grows.trans) h.locals h'.locals⟩

end FunctionScope.Grows

lemma forall₂_grows_refl (fs : List FunctionScope) : List.Forall₂ FunctionScope.Grows fs fs :=
  List.forall₂_same.2 fun f _ => .refl f

lemma forall₂_grows_trans {fs gs hs : List FunctionScope}
    (h : List.Forall₂ FunctionScope.Grows fs gs) (h' : List.Forall₂ FunctionScope.Grows gs hs) :
    List.Forall₂ FunctionScope.Grows fs hs :=
  forall₂_trans (R := FunctionScope.Grows) (fun _ _ _ => FunctionScope.Grows.trans) h h'

/-! ## Contexts -/

namespace Context

/-- Every function of the context has grown. -/
structure Grows (g g' : Context) : Prop where
  scope : g.scope.Grows g'.scope
  enclosing : List.Forall₂ FunctionScope.Grows g.enclosing g'.enclosing

lemma Grows.refl (g : Context) : g.Grows g :=
  ⟨.refl _, forall₂_grows_refl _⟩

lemma Grows.trans {g g' g'' : Context} (h : g.Grows g') (h' : g'.Grows g'') : g.Grows g'' :=
  ⟨h.scope.trans h'.scope, forall₂_grows_trans h.enclosing h'.enclosing⟩

/-- The same, but the innermost function may have other locals than before. -/
structure Widens (g g' : Context) : Prop where
  scope : g.scope.Widens g'.scope
  arity : g'.scope.arity = g.scope.arity
  depth : g'.scope.depth = g.scope.depth
  enclosing : List.Forall₂ FunctionScope.Grows g.enclosing g'.enclosing

lemma Grows.widens {g g' : Context} (h : g.Grows g') : g.Widens g' :=
  ⟨h.scope.toWidens, h.scope.arity, h.scope.depth, h.enclosing⟩

lemma Widens.refl (g : Context) : g.Widens g := (Grows.refl g).widens

lemma Widens.trans {g g' g'' : Context} (h : g.Widens g') (h' : g'.Widens g'') : g.Widens g'' :=
  ⟨h.scope.trans h'.scope, h'.arity.trans h.arity, h'.depth.trans h.depth,
    forall₂_grows_trans h.enclosing h'.enclosing⟩

lemma grows_addConstant (g : Context) (bits : UInt64) : g.Grows (g.addConstant bits).2 :=
  ⟨⟨⟨rfl, rfl, List.prefix_refl _, Pool.items_add _ _, List.prefix_refl _, List.prefix_refl _⟩,
    rfl, rfl, List.forall₂_same.2 fun l _ => .refl l⟩, forall₂_grows_refl _⟩

lemma grows_addString (g : Context) (t : Text) : g.Grows (g.addString t).2 :=
  ⟨⟨⟨rfl, rfl, List.prefix_refl _, List.prefix_refl _, Pool.items_add _ _, List.prefix_refl _⟩,
    rfl, rfl, List.forall₂_same.2 fun l _ => .refl l⟩, forall₂_grows_refl _⟩

lemma grows_addFunction (g : Context) (p : Prototype) : g.Grows (g.addFunction p).2 :=
  ⟨⟨⟨rfl, rfl, List.prefix_refl _, List.prefix_refl _, List.prefix_refl _,
      by simp [mapChunk, addFunction, Chunk.addFunction]⟩,
    rfl, rfl, List.forall₂_same.2 fun l _ => .refl l⟩, forall₂_grows_refl _⟩

end Context

/-! ## Captures -/

lemma grows_markCaptured (slot : Nat) (ls : List Local) :
    List.Forall₂ Local.Grows ls (markCaptured slot ls) := by
  induction ls with
  | nil => exact .nil
  | cons l older ih =>
    rw [markCaptured]
    split
    · exact .cons ⟨rfl, rfl, fun _ => rfl⟩ (List.forall₂_same.2 fun l _ => .refl l)
    · exact .cons (.refl l) ih

/-- A variable was captured: nothing is compiled, but locals and captures may change. -/
structure FunctionScope.Captures (f f' : FunctionScope) : Prop extends f.Grows f' where
  chunk : f'.chunk = f.chunk

lemma FunctionScope.Captures.refl (f : FunctionScope) : f.Captures f := ⟨.refl f, rfl⟩

lemma captures_addCapture (f : FunctionScope) (c : Capture) : f.Captures (f.addCapture c).2.1 := by
  rw [addCapture]
  split
  · exact .refl f
  · split
    · exact .refl f
    · exact ⟨⟨⟨rfl, rfl, by simp, List.prefix_refl _, List.prefix_refl _, List.prefix_refl _⟩,
        rfl, rfl, List.forall₂_same.2 fun l _ => .refl l⟩, rfl⟩

lemma captures_markCaptured (f : FunctionScope) (slot : Nat) :
    f.Captures { f with locals := markCaptured slot f.locals } :=
  ⟨⟨.of_eq rfl rfl rfl rfl, rfl, rfl, grows_markCaptured slot f.locals⟩, rfl⟩

lemma capture?_captures {name : Text} {f g : FunctionScope} {outer outer' : List FunctionScope}
    {i : Nat} {errors : List CompileError.Cause}
    (h : f.capture? name outer = some (i, g, outer', errors)) :
    List.Forall₂ FunctionScope.Captures (f :: outer) (g :: outer') := by
  induction outer generalizing f g i outer' errors with
  | nil => simp [capture?] at h
  | cons o rest ih =>
    rw [capture?] at h
    split at h
    · simp only [Option.some.injEq, Prod.mk.injEq] at h
      obtain ⟨-, rfl, rfl, -⟩ := h
      exact .cons (captures_addCapture _ _) (.cons (captures_markCaptured o _)
        (List.forall₂_same.2 fun f _ => .refl f))
    · split at h
      · cases h
      · rename_i j o' rest' before hrec
        simp only [Option.some.injEq, Prod.mk.injEq] at h
        obtain ⟨-, rfl, rfl, -⟩ := h
        exact .cons (captures_addCapture _ _) (ih hrec)

lemma Context.Resolves.grows {g g' : Context} {name : Text} {a : Access}
    (h : g.Resolves name a g') : g.Grows g' := by
  cases h with
  | ofLocal => exact .refl g
  | ofCapture _ hcapture =>
    obtain ⟨hscope, henclosing⟩ := List.forall₂_cons.1 (capture?_captures hcapture)
    exact ⟨hscope.toGrows, henclosing.imp fun _ _ h => h.toGrows⟩
  | ofGlobal => exact g.grows_addString name

end Compiler

open Compiler

/-! ## Expressions -/

/-- Compiling expressions lets the functions of the context grow. -/
theorem Expr.Emits.grows {g g' : Context} {es : List Expr} {c : Code} (h : Emits g es c g') :
    g.Grows g' := by
  induction h with
  | nil | literal => exact .refl _
  | cons _ _ ih ih' => exact ih.trans ih'
  | number => exact Context.grows_addConstant _ _
  | string => exact Context.grows_addString _ _
  | var h => exact h.grows
  | assign h _ ih => exact h.grows.trans ih
  | unary _ ih => exact ih
  | binary _ _ ih ih' => exact ih.trans ih'
  | and _ _ _ ih ih' => exact ih.trans ih'
  | or _ _ _ ih ih' => exact ih.trans ih'
  | call _ _ ih => exact ih

lemma Expr.EmitsCondition.grows {g g' : Context} {e : Option Expr} {n : Nat} {c : Code}
    (h : EmitsCondition g e n c g') : g.Grows g' := by
  cases h with
  | none => exact .refl _
  | some h => exact h.grows

lemma Expr.EmitsIncrement.grows {g g' : Context} {e : Option Expr} {n back : Nat} {c : Code}
    (h : EmitsIncrement g e n c g' back) : g.Grows g' := by
  cases h with
  | none => exact .refl _
  | some h => exact h.grows

/-! ## Statements -/

namespace Compiler.Context

lemma widens_declare (g : Context) (name : Text) : g.Widens (g.declare name) :=
  ⟨.of_eq rfl rfl rfl rfl, rfl, rfl, forall₂_grows_refl _⟩

lemma widens_complete (g : Context) : g.Widens g.complete := by
  rw [complete]
  split
  · exact .refl g
  · exact .refl g
  · exact ⟨.of_eq rfl rfl rfl rfl, rfl, rfl, forall₂_grows_refl _⟩

lemma Names.widens {g g' : Context} {name : Text} {global? : Option Nat}
    (h : g.Names name global? g') : g.Widens g' := by
  cases h with
  | ofLocal => exact g.widens_declare name
  | ofGlobal => exact (g.grows_addString name).widens

/-- What happens in a block, from its beginning to its end. -/
lemma Widens.of_block {g g' : Context} (h : g.beginScope.Widens g') : g.Widens g'.endScope where
  scope := by
    have hbegin : g.scope.Widens g.beginScope.scope := .of_eq rfl rfl rfl rfl
    exact (hbegin.trans h.scope).trans (.of_eq rfl rfl rfl rfl)
  arity := h.arity
  depth := by simp [endScope, h.depth, beginScope]
  enclosing := h.enclosing

/-- Parameters change the innermost function alone, which is a new one. -/
lemma Takes.enclosing {g g' : Context} {ps : List Text} (h : g.Takes ps g') :
    g'.enclosing = g.enclosing := by
  induction h with
  | nil => rfl
  | cons _ _ _ ih =>
    rw [ih, complete]
    split <;> rfl

end Compiler.Context

/-- Compiling a statement widens the innermost function and lets the others grow. -/
theorem Stmt.Emits.widens {g g' : Context} {s : Stmt} {c : Code} (h : Emits g s c g') :
    g.Widens g' := by
  induction h with
  | skip => exact .refl _
  | seq _ _ ih ih' => exact ih.trans ih'
  | declareVar hnames he => exact hnames.widens.trans (he.grows.widens.trans (Context.widens_complete _))
  | declareFun hnames htakes _ houter _ ih =>
    -- The body lets the function around it grow, which is the innermost one again afterwards.
    refine hnames.widens.trans ((Context.widens_complete _).trans (.trans ?_
      (Context.widens_complete _)))
    have hgrow := ih.enclosing
    rw [htakes.enclosing, houter] at hgrow
    cases hgrow with
    | cons hscope hrest =>
      have hsame : Context.Grows _ ⟨_, _⟩ := ⟨hscope, hrest⟩
      exact (hsame.trans (Context.grows_addFunction _ _)).widens
  | print h | discard h | echo h | ret _ h => exact h.grows.widens
  | branch he _ _ _ _ ih ih' => exact he.grows.widens.trans (ih.trans ih')
  | whileLoop he _ _ _ ih => exact he.grows.widens.trans ih
  | forLoop _ hcond hinc _ _ ih ih' =>
    have h := ih.trans (hcond.grows.widens.trans (hinc.grows.widens.trans ih'))
    exact h.of_block
  | block _ ih => exact ih.of_block

/-! ## Locals -/

namespace Compiler.Context

/-- Between statements every local can be read, and belongs to a block that is open. -/
def Settled (g : Context) : Prop :=
  ∀ l ∈ g.scope.locals, ∃ d ≤ g.scope.depth, l.depth = some d

/-- The locals of the first context are still there in the second, below the new ones. -/
structure Extends (g g' : Context) : Prop where
  settled : g'.Settled
  locals : ∃ new old, g'.scope.locals = new ++ old ∧
    List.Forall₂ Local.Grows g.scope.locals old ∧ ∀ l ∈ new, l.depth = some g.scope.depth

/-- The same locals. -/
structure Keeps (g g' : Context) : Prop where
  settled : g'.Settled
  locals : List.Forall₂ Local.Grows g.scope.locals g'.scope.locals

lemma Keeps.extends {g g' : Context} (h : g.Keeps g') : g.Extends g' :=
  ⟨h.settled, [], g'.scope.locals, rfl, h.locals, by simp⟩

lemma forall₂_local_grows_trans {as bs cs : List Local} (h : List.Forall₂ Local.Grows as bs)
    (h' : List.Forall₂ Local.Grows bs cs) : List.Forall₂ Local.Grows as cs :=
  forall₂_trans (R := Local.Grows) (fun _ _ _ => Local.Grows.trans) h h'

lemma Keeps.trans {g g' g'' : Context} (h : g.Keeps g') (h' : g'.Keeps g'') : g.Keeps g'' :=
  ⟨h'.settled, forall₂_local_grows_trans h.locals h'.locals⟩

/-- As many locals leave with the innermost block. -/
lemma Keeps.length_leaving {g g' : Context} (h : g.Keeps g') (hdepth : g'.scope.depth = g.scope.depth) :
    g'.leaving.length = g.leaving.length := by
  rw [leaving, leaving, List.span_eq_takeWhile_dropWhile, List.span_eq_takeWhile_dropWhile, hdepth]
  refine List.Forall₂.rec rfl (fun {l l'} _ _ hgrows _ ih => ?_) h.locals
  have hsame : Local.inBlock g.scope.depth l' = Local.inBlock g.scope.depth l := by
    rw [Local.inBlock, Local.inBlock, hgrows.depth]
  simp only [List.takeWhile_cons, hsame]
  split
  · simpa using ih
  · rfl

lemma exists_of_mem_forall₂ {α β : Type} {R : α → β → Prop} {as : List α} {bs : List β} {b : β}
    (h : List.Forall₂ R as bs) (hb : b ∈ bs) : ∃ a ∈ as, R a b := by
  induction h with
  | nil => simp at hb
  | cons hab _ ih =>
    rcases List.mem_cons.1 hb with rfl | hb
    · exact ⟨_, List.mem_cons_self, hab⟩
    · obtain ⟨a, ha, hR⟩ := ih hb
      exact ⟨a, List.mem_cons_of_mem _ ha, hR⟩

lemma Keeps.of_grows {g g' : Context} (hg : g.Settled) (h : g.Grows g') : g.Keeps g' := by
  refine ⟨fun l' hl' => ?_, h.scope.locals⟩
  obtain ⟨l, hl, hgrows⟩ := exists_of_mem_forall₂ h.scope.locals hl'
  rw [h.scope.depth, hgrows.depth]
  exact hg l hl

lemma Extends.trans {g g' g'' : Context} (h : g.Extends g') (hdepth : g'.scope.depth = g.scope.depth)
    (h' : g'.Extends g'') : g.Extends g'' := by
  obtain ⟨new, old, hlocals, hold, hnew⟩ := h.locals
  obtain ⟨new', old', hlocals', hold', hnew'⟩ := h'.locals
  rw [hlocals] at hold'
  have hsplit := List.take_append_drop new.length old'
  refine ⟨h'.settled, new' ++ old'.take new.length, old'.drop new.length, ?_, ?_, ?_⟩
  · rw [List.append_assoc, hsplit, hlocals']
  · have hdrop := List.forall₂_drop new.length hold'
    rw [List.drop_left] at hdrop
    exact forall₂_local_grows_trans hold hdrop
  · intro l hl
    rcases List.mem_append.1 hl with hl | hl
    · rw [hnew' l hl, hdepth]
    · have htake := List.forall₂_take new.length hold'
      rw [List.take_left] at htake
      obtain ⟨l₀, hl₀, hgrows⟩ := exists_of_mem_forall₂ htake hl
      rw [hgrows.depth, hnew l₀ hl₀]

lemma locals_eq_leaving_append (g : Context) :
    g.scope.locals = g.leaving ++ g.endScope.scope.locals := by
  rw [leaving, endScope, List.span_eq_takeWhile_dropWhile]
  exact List.takeWhile_append_dropWhile.symm

/-- The locals of a block are exactly those that leave with it. -/
lemma Extends.of_block {g g' : Context} (hg : g.Settled) (h : g.beginScope.Extends g')
    (hdepth : g'.scope.depth = g.scope.depth + 1) : g.Keeps g'.endScope := by
  obtain ⟨new, old, hlocals, hold, hnew⟩ := h.locals
  have hdrop : (g'.scope.locals.span (Local.inBlock g'.scope.depth)).2 = old := by
    rw [List.span_eq_takeWhile_dropWhile, hlocals]
    have hin : ∀ l ∈ new, Local.inBlock g'.scope.depth l = true := by
      intro l hl
      simp [Local.inBlock, hnew l hl, beginScope, hdepth]
    have hout : ∀ l ∈ old, Local.inBlock g'.scope.depth l = false := by
      intro l hl
      obtain ⟨l₀, hl₀, hgrows⟩ := exists_of_mem_forall₂ hold hl
      obtain ⟨d, hd, hl₀d⟩ := hg l₀ hl₀
      simp [Local.inBlock, hgrows.depth, hl₀d, hdepth]
      omega
    rw [List.dropWhile_append_of_pos hin]
    cases old with
    | nil => rfl
    | cons l older => rw [List.dropWhile_cons_of_neg (by simp [hout l List.mem_cons_self])]
  refine ⟨?_, ?_⟩
  · intro l hl
    change l ∈ (g'.scope.locals.span (Local.inBlock g'.scope.depth)).2 at hl
    rw [hdrop] at hl
    obtain ⟨l₀, hl₀, hgrows⟩ := exists_of_mem_forall₂ hold hl
    obtain ⟨d, hd, hl₀d⟩ := hg l₀ hl₀
    refine ⟨d, ?_, hgrows.depth.trans hl₀d⟩
    change d ≤ g'.scope.depth - 1
    omega
  · change List.Forall₂ Local.Grows g.scope.locals
      (g'.scope.locals.span (Local.inBlock g'.scope.depth)).2
    rw [hdrop]
    exact hold

lemma Settled.beginScope {g : Context} (hg : g.Settled) : g.beginScope.Settled := by
  intro l hl
  obtain ⟨d, hd, hl⟩ := hg l hl
  exact ⟨d, Nat.le_succ_of_le hd, hl⟩

lemma complete_of_depth_zero {g : Context} (h : g.scope.depth = 0) : g.complete = g := by
  rw [complete]
  split <;> simp_all

lemma complete_locals {g : Context} {l : Local} {older : List Local} (h : 0 < g.scope.depth)
    (hlocals : g.scope.locals = l :: older) :
    g.complete.scope.locals = { l with depth := some g.scope.depth } :: older := by
  rw [complete, hlocals]
  cases hd : g.scope.depth with
  | zero => omega
  | succ d => rfl

lemma complete_declare_locals {g : Context} {name : Text} (h : 0 < g.scope.depth) :
    (g.declare name).complete.scope.locals =
      { name, depth := some g.scope.depth, captured := false } :: g.scope.locals :=
  complete_locals (g := g.declare name) h rfl

/-- Completing the declaration of a local that is on top of settled ones. -/
lemma Extends.of_complete {g g' : Context} {l : Local} {older : List Local} (hg : g.Settled)
    (hpos : 0 < g.scope.depth) (hdepth : g'.scope.depth = g.scope.depth)
    (hlocals : g'.scope.locals = l :: older)
    (holder : List.Forall₂ Local.Grows g.scope.locals older) : g.Extends g'.complete := by
  have hcomplete : g'.complete.scope.locals = { l with depth := some g.scope.depth } :: older := by
    rw [complete_locals (hdepth ▸ hpos) hlocals, hdepth]
  refine ⟨?_, [{ l with depth := some g.scope.depth }], older, hcomplete, holder, by simp⟩
  intro l' hl'
  rw [(widens_complete g').depth, hdepth]
  rw [hcomplete] at hl'
  rcases List.mem_cons.1 hl' with rfl | hl'
  · exact ⟨_, Nat.le_refl _, rfl⟩
  · obtain ⟨l₀, hl₀, hgrows⟩ := exists_of_mem_forall₂ holder hl'
    rw [hgrows.depth]
    exact hg l₀ hl₀

/-- In a new function there is only the callee. -/
lemma settled_new {g : Context} (h : g.scope.locals = (FunctionScope.new .function []).locals) :
    g.Settled := by
  intro l hl
  rw [h] at hl
  refine ⟨0, Nat.zero_le _, ?_⟩
  simp only [FunctionScope.new, List.mem_singleton] at hl
  rw [hl]

lemma settled_enter (g : Context) (name : Text) : (g.enter name).Settled :=
  settled_new rfl

/-- Parameters can be read at once. -/
lemma Takes.settled {g g' : Context} {ps : List Text} (h : g.Takes ps g') (hg : g.Settled)
    (hpos : 0 < g.scope.depth) : g'.Settled := by
  induction h with
  | nil => exact hg
  | @cons g g' p ps _ _ _ ih =>
    have hext : g.countParameter.Extends (g.countParameter.declare p).complete :=
      .of_complete hg hpos rfl rfl (List.forall₂_same.2 fun l _ => .refl l)
    exact ih hext.settled ((widens_complete (g.countParameter.declare p)).depth ▸ hpos)

end Compiler.Context

/-- A statement keeps the locals there are; only declarations add to them. -/
theorem Stmt.Emits.extends {g g' : Context} {s : Stmt} {c : Code} (h : Emits g s c g')
    (hg : g.Settled) (hs : s.Structured) : g.Extends g' ∧ (s.IsStatement → g.Keeps g') := by
  have hstatement : ∀ {g g' : Context} {s : Stmt}, g.Keeps g' →
      g.Extends g' ∧ (s.IsStatement → g.Keeps g') := fun h => ⟨h.extends, fun _ => h⟩
  induction h with
  | skip => exact hstatement (.of_grows hg (.refl _))
  | seq hfirst _ ih ih' =>
    obtain ⟨hext, -⟩ := ih hg hs.1
    obtain ⟨hext', -⟩ := ih' hext.settled hs.2
    exact ⟨hext.trans hfirst.widens.depth hext', fun h => h.elim⟩
  | declareVar hnames he =>
    refine ⟨?_, fun h => h.elim⟩
    cases hnames with
    | ofLocal hpos _ =>
      have hlocals := he.grows.scope.locals
      obtain ⟨l, older, -, holder, hsame⟩ := List.forall₂_cons_left_iff.1 hlocals
      exact .of_complete hg hpos he.grows.scope.depth hsame holder
    | ofGlobal hzero _ =>
      have hgrows := (Context.grows_addString _ _).trans he.grows
      rw [Context.complete_of_depth_zero (hgrows.scope.depth.trans hzero)]
      exact (Context.Keeps.of_grows hg hgrows).extends
  | @declareFun g g₁ g₂ g₃ name _ _ _ c outer rest _ _ line hnames htakes hbody houter _ _ =>
    refine ⟨?_, fun h => h.elim⟩
    have hgrow := hbody.widens.enclosing
    rw [htakes.enclosing, houter] at hgrow
    obtain ⟨hscope, hrest⟩ := List.forall₂_cons.1 hgrow
    cases hnames with
    | ofLocal hpos _ =>
      have hlocals := hscope.locals
      change List.Forall₂ Local.Grows (g.declare name).complete.scope.locals outer.locals at hlocals
      rw [Context.complete_declare_locals hpos] at hlocals
      obtain ⟨l, older, -, holder, hsame⟩ := List.forall₂_cons_left_iff.1 hlocals
      refine .of_complete hg hpos ?_ hsame holder
      exact hscope.depth.trans (Context.widens_complete _).depth
    | ofGlobal hzero _ =>
      have hgrows : (g.addString name).2.complete.Grows ⟨outer, rest⟩ := ⟨hscope, hrest⟩
      have hzero' : (g.addString name).2.scope.depth = 0 := hzero
      rw [Context.complete_of_depth_zero hzero'] at hgrows
      have hall := (g.grows_addString name).trans (hgrows.trans
        (Context.grows_addFunction ⟨outer, rest⟩ (g₃.scope.prototypeOf c line)))
      rw [Context.complete_of_depth_zero (hall.scope.depth.trans hzero)]
      exact (Context.Keeps.of_grows hg hall).extends
  | print h | discard h | echo h | ret _ h => exact hstatement (.of_grows hg h.grows)
  | branch he _ _ _ _ ih ih' =>
    have h₁ := Context.Keeps.of_grows hg he.grows
    have h₂ := (ih h₁.settled hs.2.1).2 hs.1
    have h₃ := (ih' h₂.settled hs.2.2.2).2 hs.2.2.1
    exact hstatement (h₁.trans (h₂.trans h₃))
  | whileLoop he _ _ _ ih =>
    have h₁ := Context.Keeps.of_grows hg he.grows
    exact hstatement (h₁.trans ((ih h₁.settled hs.2).2 hs.1))
  | forLoop hinit hcond hinc hbody _ ih ih' =>
    have h₁ := (ih hg.beginScope hs.1).1
    have h₂ := Context.Keeps.of_grows h₁.settled (hcond.grows.trans hinc.grows)
    have h₃ := (ih' h₂.settled hs.2.2).2 hs.2.1
    have hall := h₁.trans hinit.widens.depth (h₂.trans h₃).extends
    refine hstatement (hall.of_block hg ?_)
    rw [hbody.widens.depth, hinc.grows.scope.depth, hcond.grows.scope.depth, hinit.widens.depth]
    rfl
  | block hbody ih =>
    exact hstatement ((ih hg.beginScope hs).1.of_block hg hbody.widens.depth)

end Lox
