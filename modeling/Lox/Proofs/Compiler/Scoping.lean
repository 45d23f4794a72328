import Mathlib.Data.List.TakeWhile
import Lox.Proofs.Compiler.Charts
import Lox.Proofs.Scoping
import Lox.Proofs.Semantics.Variables

/-!
# Compiled code is scoped lexically

The compiler looks a name up in the locals of the function it is compiling, then in those of the
functions around it, and marks what it finds there as captured.  These locals are the visible names of
the tree at that point (`Context.Knows`), so what it finds is the innermost visible declaration.

A capture is noted in every function on the way, and the notes are only ever extended.  In the finished
functions they therefore still lead to the slot that was found (`capture?_spec`).

When a block ends, a local is marked as captured just if one of the functions behind its declaration
uses it: marks are never removed, and each is made by a use that leads to the slot
(`Context.Does`).
-/

namespace Lox

namespace Compiler

open FunctionScope

/-! ## Marks -/

/-- Whether the local in a slot is marked as captured. -/
def Local.marked (slot : Nat) : List Local → Bool
  | [] => false
  | l :: older => if older.length = slot then l.captured else marked slot older

lemma Local.marked_append {slot : Nat} (new : List Local) {old : List Local}
    (h : slot < old.length) : marked slot (new ++ old) = marked slot old := by
  induction new with
  | nil => rfl
  | cons l new ih =>
    rw [List.cons_append, marked, if_neg (by rw [List.length_append]; omega), ih]

lemma Local.marked_markCaptured {slot slot' : Nat} {ls : List Local} (h : slot' < ls.length) :
    marked slot (markCaptured slot' ls) = (marked slot ls || slot' = slot) := by
  have hlength : ∀ ls : List Local, (markCaptured slot' ls).length = ls.length :=
    fun ls => (grows_markCaptured slot' ls).length_eq.symm
  induction ls with
  | nil => cases h
  | cons l older ih =>
    rw [markCaptured]
    split
    · rename_i heq
      subst heq
      by_cases hslot : older.length = slot <;> simp [marked, hslot]
    · rename_i hne
      have hlt : slot' < older.length := by
        rw [List.length_cons] at h
        omega
      rw [marked, marked, hlength, ih hlt]
      split
      · rename_i hslot
        simp [Ne.symm (hslot ▸ hne : slot ≠ slot')]
      · rfl

/-- Whether the local in a slot of the function so many levels further outward is marked. -/
def FunctionScope.marked : List FunctionScope → (level slot : Nat) → Bool
  | [], _, _ => false
  | f :: _, 0, slot => Local.marked slot f.locals
  | _ :: outer, level + 1, slot => marked outer level slot

/-! ## Names -/

/-- The locals that can be read, with the callee at the end. -/
def FunctionScope.readable (f : FunctionScope) : List Local :=
  f.locals.dropWhile (·.depth.isNone)

/-- These are the names that can be read. -/
def FunctionScope.Knows (f : FunctionScope) (names : List Text) : Prop :=
  f.readable.map Local.name = names ++ [[]]

lemma names_of_grows {ls ls' : List Local} (h : List.Forall₂ Local.Grows ls ls') :
    ls'.map Local.name = ls.map Local.name := by
  induction h with
  | nil => rfl
  | cons hl _ ih => rw [List.map_cons, List.map_cons, hl.name, ih]

lemma FunctionScope.Knows.of_locals {f f' : FunctionScope} {names : List Text} (h : f.Knows names)
    (hlocals : List.Forall₂ Local.Grows f.locals f'.locals) : f'.Knows names := by
  have hsame : ∀ {ls ls' : List Local}, List.Forall₂ Local.Grows ls ls' →
      (ls'.dropWhile (·.depth.isNone)).map Local.name =
        (ls.dropWhile (·.depth.isNone)).map Local.name := by
    intro ls ls' hgrows
    induction hgrows with
    | nil => rfl
    | cons hl hrest ih =>
      rw [List.dropWhile_cons, List.dropWhile_cons, hl.depth]
      split
      · exact ih
      · exact names_of_grows (.cons hl hrest)
  exact (hsame hlocals).trans h

lemma slot?_of_find {name : Text} {ls : List Local} {names : List Text}
    (hnames : ls.map Local.name = names ++ [[]]) (hname : name ≠ []) :
    slot? name names = (findLocal name ls).map Prod.fst := by
  induction ls generalizing names with
  | nil => simp at hnames
  | cons l older ih =>
    cases names with
    | nil =>
      obtain ⟨hl, holder⟩ := List.cons_eq_cons.1 hnames
      cases List.map_eq_nil_iff.1 holder
      have hne : l.name ≠ name := hl ▸ Ne.symm hname
      simp [slot?, findLocal, hne]
    | cons n names =>
      obtain ⟨rfl, holder⟩ := List.cons_eq_cons.1 hnames
      have hlength := congrArg List.length holder
      rw [slot?, findLocal]
      split
      · simpa using hlength.symm
      · exact ih holder

/-- What the compiler finds among the locals is what the name stands for. -/
lemma FunctionScope.Knows.find {f : FunctionScope} {names : List Text} (h : f.Knows names)
    {name : Text} (hname : name ≠ []) {found : Option (Nat × Local)}
    (hfind : findLocal name f.locals = found)
    (hread : ∀ slot l, found = some (slot, l) → l.depth.isSome) :
    slot? name names = found.map Prod.fst := by
  have hsplit := List.takeWhile_append_dropWhile (p := (·.depth.isNone)) (l := f.locals)
  rw [← hsplit] at hfind
  have hreadable : findLocal name f.readable = found := by
    refine Context.findLocal_pending (fun l hl => ?_) hfind hread
    simpa using List.mem_takeWhile_imp hl
  rw [slot?_of_find h hname, hreadable]

/-! ## Captures -/

/-- What was gathered for the function so far is part of the finished function. -/
structure FunctionScope.Becomes (f : FunctionScope) (p : Prototype) : Prop where
  captures : f.captures.toList <+: p.captures.toList
  chunk : ∃ w, p.chunk = some w ∧ f.Fits w p.captures.size

lemma FunctionScope.Widens.becomes {f f' : FunctionScope} {p : Prototype} (h : f.Widens f')
    (hp : f'.Becomes p) : f.Becomes p where
  captures := h.captures.trans hp.captures
  chunk := by
    obtain ⟨w, hw, hfits⟩ := hp.chunk
    exact ⟨w, hw, h.fits hfits⟩

lemma forall₂_becomes {fs fs' : List FunctionScope} {chain : List Prototype}
    (h : List.Forall₂ FunctionScope.Grows fs fs')
    (hchain : List.Forall₂ FunctionScope.Becomes fs' chain) :
    List.Forall₂ FunctionScope.Becomes fs chain := by
  induction h generalizing chain with
  | nil => exact hchain
  | cons hf _ ih =>
    obtain ⟨p, rest, hp, hrest, rfl⟩ := List.forall₂_cons_left_iff.1 hchain
    exact .cons (hf.toWidens.becomes hp) (ih hrest)

/-- A capture that was given a place is there. -/
lemma addCapture_place {f f' : FunctionScope} {c : Capture} {i : Nat}
    (h : f.addCapture c = (i, f', [])) : f'.captures[i]? = some c ∧ f'.locals = f.locals := by
  rw [addCapture] at h
  split at h
  · rename_i j hj
    simp only [Prod.mk.injEq, and_true] at h
    obtain ⟨rfl, rfl⟩ := h
    rw [Array.idxOf?_eq_map_finIdxOf?_val, Option.map_eq_some_iff] at hj
    obtain ⟨j', hj', rfl⟩ := hj
    have hplace := (Array.finIdxOf?_eq_some_iff.1 hj').1
    exact ⟨by simpa using hplace, rfl⟩
  · split at h
    · simp at h
    · simp only [Prod.mk.injEq, and_true] at h
      obtain ⟨rfl, rfl⟩ := h
      exact ⟨by simp, rfl⟩

/-- The finished function has the capture in the same place. -/
lemma FunctionScope.Becomes.capture {f : FunctionScope} {p : Prototype} (h : f.Becomes p) {i : Nat}
    {c : Capture} (hc : f.captures[i]? = some c) : p.captures[i]? = some c := by
  rw [← Array.getElem?_toList] at hc ⊢
  obtain ⟨more, hmore⟩ := h.captures
  rw [← hmore, List.getElem?_append_left (List.getElem?_eq_some_iff.1 hc).1]
  exact hc

/-- A variable that is captured is the innermost one of its name outside, the captures of the finished
functions lead to it, and it is marked. -/
theorem capture?_spec {name : Text} (hname : name ≠ []) {f f' : FunctionScope}
    {outer outer' : List FunctionScope} {i : Nat} {names : List (List Text)}
    (h : f.capture? name outer = some (i, f', outer', []))
    (hknows : List.Forall₂ FunctionScope.Knows outer names) :
    ∃ up slot, outward? name names = some (up, slot) ∧
      (∀ chain, List.Forall₂ FunctionScope.Becomes (f' :: outer') chain →
        follow chain i = some (up, slot)) ∧
      ∀ level slot', FunctionScope.marked (f' :: outer') level slot' =
        (FunctionScope.marked (f :: outer) level slot' ||
          (Binding.outer up slot).LeadsTo level slot') := by
  induction outer generalizing f f' outer' i names with
  | nil => simp [capture?] at h
  | cons o rest ih =>
    obtain ⟨outer_names, rest_names, ho, hrest, rfl⟩ := List.forall₂_cons_left_iff.1 hknows
    rw [capture?] at h
    split at h
    · -- The variable is a local of the next function.
      rename_i slot l hfind
      simp only [Option.some.injEq, Prod.mk.injEq, List.append_eq_nil_iff] at h
      obtain ⟨rfl, rfl, rfl, hread, hnil⟩ := h
      obtain ⟨hplace, hlocals⟩ := addCapture_place (f := f) (Prod.ext rfl (Prod.ext rfl hnil))
      have hdepth : l.depth.isSome := by
        cases hl : l.depth with
        | none => simp [Local.readErrors, hl] at hread
        | some d => rfl
      have hslot := ho.find hname hfind fun _ _ heq => by
        cases heq
        exact hdepth
      refine ⟨0, slot, by simp [outward?, hslot], fun chain hchain => ?_, fun level slot' => ?_⟩
      · obtain ⟨p, rest', hp, -, rfl⟩ := List.forall₂_cons_left_iff.1 hchain
        rw [follow, hp.capture hplace]
        rfl
      · rcases level with _ | _ | level
        · simp [FunctionScope.marked, hlocals, Binding.LeadsTo]
        · have hlt := slot_lt (findLocal_eq_some hfind)
          simp [FunctionScope.marked, Binding.LeadsTo, Local.marked_markCaptured hlt]
        · simp [FunctionScope.marked, Binding.LeadsTo]
    · rename_i hfind
      split at h
      · cases h
      · -- The next function captures it in turn.
        rename_i j o' rest' before hrec
        simp only [Option.some.injEq, Prod.mk.injEq, List.append_eq_nil_iff] at h
        obtain ⟨rfl, rfl, rfl, rfl, hnil⟩ := h
        obtain ⟨hplace, hlocals⟩ := addCapture_place (f := f) (Prod.ext rfl (Prod.ext rfl hnil))
        obtain ⟨up, slot, houtward, hfollow, hmarked⟩ := ih hrec hrest
        have hslot := ho.find hname hfind (by simp)
        refine ⟨up + 1, slot, by simp [outward?, hslot, houtward], fun chain hchain => ?_,
          fun level slot' => ?_⟩
        · obtain ⟨p, rest'', hp, hrest', rfl⟩ := List.forall₂_cons_left_iff.1 hchain
          rw [follow, hp.capture hplace]
          simp [hfollow _ hrest']
        · cases level with
          | zero => simp [FunctionScope.marked, hlocals, Binding.LeadsTo]
          | succ level => simpa [FunctionScope.marked, Binding.LeadsTo] using hmarked level slot'

/-- A variable that cannot be captured is declared by none of the functions around. -/
lemma outward?_of_capture? {name : Text} (hname : name ≠ []) {f : FunctionScope}
    {outer : List FunctionScope} {names : List (List Text)} (h : f.capture? name outer = none)
    (hknows : List.Forall₂ FunctionScope.Knows outer names) : outward? name names = none := by
  induction outer generalizing f names with
  | nil =>
    cases hknows
    rfl
  | cons o rest ih =>
    obtain ⟨outer_names, rest_names, ho, hrest, rfl⟩ := List.forall₂_cons_left_iff.1 hknows
    rw [capture?] at h
    split at h
    · cases h
    · rename_i hfind
      split at h
      · rename_i hrec
        have hslot := ho.find hname hfind (by simp)
        simp [outward?, hslot, ih hrec hrest]
      · cases h

namespace Context

/-- These are the names that can be used. -/
structure Knows (g : Context) (v : Visible) : Prop where
  scope : g.scope.Knows v.locals
  enclosing : List.Forall₂ FunctionScope.Knows g.enclosing v.outer
  top : v.top = true ↔ g.scope.depth = 0

/-- Whether a local of the function so many levels outward is marked. -/
def marked (g : Context) (level slot : Nat) : Bool :=
  FunctionScope.marked (g.scope :: g.enclosing) level slot

/-- These are the finished functions, inside out. -/
def Becomes (g : Context) (chain : List Prototype) : Prop :=
  List.Forall₂ FunctionScope.Becomes (g.scope :: g.enclosing) chain

lemma Widens.becomes {g g' : Context} {chain : List Prototype} (h : g.Widens g')
    (hchain : g'.Becomes chain) : g.Becomes chain := by
  obtain ⟨p, outer, hp, houter, rfl⟩ := List.forall₂_cons_left_iff.1 hchain
  exact .cons (h.scope.becomes hp) (forall₂_becomes h.enclosing houter)

lemma Becomes.scope {g : Context} {chain : List Prototype} (h : g.Becomes chain) :
    ∃ p outer w, chain = p :: outer ∧ p.chunk = some w ∧ g.scope.Fits w p.captures.size := by
  obtain ⟨p, outer, hp, -, rfl⟩ := List.forall₂_cons_left_iff.1 h
  obtain ⟨w, hw, hfits⟩ := hp.chunk
  exact ⟨p, outer, w, rfl, hw, hfits⟩

lemma forall₂_knows {fs fs' : List FunctionScope} {names : List (List Text)}
    (h : List.Forall₂ FunctionScope.Knows fs names)
    (hgrows : List.Forall₂ FunctionScope.Grows fs fs') :
    List.Forall₂ FunctionScope.Knows fs' names := by
  induction hgrows generalizing names with
  | nil => exact h
  | cons hf _ ih =>
    obtain ⟨ns, rest, hns, hrest, rfl⟩ := List.forall₂_cons_left_iff.1 h
    exact .cons (hns.of_locals hf.locals) (ih hrest)

/-- Names stay usable while the functions grow. -/
lemma Knows.grows {g g' : Context} {v : Visible} (h : g.Knows v) (hgrows : g.Grows g') :
    g'.Knows v where
  scope := h.scope.of_locals hgrows.scope.locals
  enclosing := forall₂_knows h.enclosing hgrows.enclosing
  top := by rw [hgrows.scope.depth, h.top]

/-- A name is reached where it is bound, and then its variable is marked. -/
lemma Resolves.binding {g g' : Context} {name : Text} {a : Access} {v : Visible}
    (h : g.Resolves name a g') (hname : name ≠ []) (hg : g.Sound) (hknows : g.Knows v) :
    (∀ chain, g'.Becomes chain → (v.binding name).ReachedBy chain name a) ∧
      ∀ level slot, g'.marked level slot =
        (g.marked level slot || (v.binding name).LeadsTo level slot) := by
  cases h with
  | @ofLocal slot l hfind hdepth =>
    have hslot := hknows.scope.find hname hfind fun _ _ heq => by
      cases heq
      exact hdepth
    have hbinding : v.binding name = .here slot := by simp [Visible.binding, hslot]
    rw [hbinding]
    exact ⟨fun _ _ => .here, by simp [Binding.LeadsTo]⟩
  | @ofCapture i scope enclosing hfind hcapture =>
    have hslot := hknows.scope.find hname hfind (by simp)
    obtain ⟨up, slot, houtward, hfollow, hmarked⟩ := capture?_spec hname hcapture hknows.enclosing
    have hbinding : v.binding name = .outer up slot := by
      simp [Visible.binding, hslot, houtward]
    rw [hbinding]
    exact ⟨fun chain hchain => .outer (hfollow chain hchain), hmarked⟩
  | ofGlobal hfind hcapture =>
    have hslot := hknows.scope.find hname hfind (by simp)
    have houtward := outward?_of_capture? hname hcapture hknows.enclosing
    have hbinding : v.binding name = .global := by simp [Visible.binding, hslot, houtward]
    rw [hbinding]
    refine ⟨fun chain hchain => ?_, fun level slot => ?_⟩
    · obtain ⟨p, outer, w, rfl, hw, hfits⟩ := hchain.scope
      exact .global hw (Pool.get?_of_prefix hfits.strings (Pool.get?_add hg.scope.strings name))
    · cases level <;> simp [Binding.LeadsTo, marked, FunctionScope.marked, addString, mapChunk]

/-! ## Code and actions -/

/-- The code performs the actions, and what they use of the locals there were is marked in the end. -/
structure Does (g : Context) (as : List Action) (c : Code) (g' : Context) : Prop where
  widens : g.Widens g'
  length_le : g.scope.locals.length ≤ g'.scope.locals.length
  performs : ∀ chain, g'.Becomes chain → Action.AllPerformedBy chain as (c.map Prod.fst)
  marks : ∀ level slot, (level = 0 → slot < g.scope.locals.length) →
    g'.marked level slot = (g.marked level slot || usedByAny level slot as)

section Does

variable {g g' g'' : Context} {as bs : List Action} {c d : Code} {line : UInt32}

lemma Does.append (h : g.Does as c g') (h' : g'.Does bs d g'') : g.Does (as ++ bs) (c ++ d) g'' where
  widens := h.widens.trans h'.widens
  length_le := Nat.le_trans h.length_le h'.length_le
  performs chain hchain := by
    rw [List.map_append]
    exact (h.performs chain (h'.widens.becomes hchain)).append (h'.performs chain hchain)
  marks level slot hslot := by
    rw [h'.marks level slot fun hzero => Nat.lt_of_lt_of_le (hslot hzero) h.length_le,
      h.marks level slot hslot, usedByAny_append, Bool.or_assoc]

/-- The context changes, but nothing is marked. -/
lemma does_nil (hwidens : g.Widens g') (hlength : g.scope.locals.length ≤ g'.scope.locals.length)
    (hmarks : ∀ level slot, (level = 0 → slot < g.scope.locals.length) →
      g'.marked level slot = g.marked level slot) : g.Does [] [] g' where
  widens := hwidens
  length_le := hlength
  performs _ _ := .nil
  marks level slot hslot := by rw [hmarks level slot hslot, usedByAny_nil, Bool.or_false]

/-- The locals are what counts. -/
lemma does_of_locals (hwidens : g.Widens g') (hlocals : g'.scope.locals = g.scope.locals)
    (henclosing : g'.enclosing = g.enclosing) : g.Does [] [] g' := by
  refine does_nil hwidens (Nat.le_of_eq (congrArg List.length hlocals.symm)) fun level slot _ => ?_
  cases level <;> simp [marked, FunctionScope.marked, hlocals, henclosing]

/-- An instruction that has nothing to do with names. -/
lemma does_plain (g : Context) (op : Opcode) (n : Nat) (line : UInt32) :
    g.Does [.plain op] [(⟨op, n⟩, line)] g where
  widens := .refl g
  length_le := Nat.le_refl _
  performs _ _ := Action.PerformedBy.plain.single
  marks level slot _ := by simp [Action.uses]

lemma Does.plain (h : g.Does as c g') (op : Opcode) (n : Nat) (line : UInt32) :
    g.Does (as ++ [.plain op]) (c ++ [(⟨op, n⟩, line)]) g' :=
  h.append (does_plain g' op n line)

lemma Does.before (h : g.Does as c g') (op : Opcode) (n : Nat) (line : UInt32) :
    g.Does (.plain op :: as) ((⟨op, n⟩, line) :: c) g' :=
  (does_plain g op n line).append h

lemma Resolves.does {name : Text} {a : Access} {v : Visible} (h : g.Resolves name a g')
    (hname : name ≠ []) (hg : g.Sound) (hknows : g.Knows v) (line : UInt32) :
    g.Does [.read name (v.binding name)] [(⟨a.read, a.operand⟩, line)] g' where
  widens := h.grows.widens
  length_le := Nat.le_of_eq h.grows.scope.locals.length_eq
  performs chain hchain :=
    (Action.PerformedBy.read ((h.binding hname hg hknows).1 chain hchain)).single
  marks level slot _ := by simp [Action.uses, (h.binding hname hg hknows).2 level slot]

/-- The variable is marked before the value that is assigned to it is computed. -/
lemma Resolves.does_write {name : Text} {a : Access} {v : Visible} (h : g.Resolves name a g')
    (hname : name ≠ []) (hg : g.Sound) (hknows : g.Knows v) (hvalue : g'.Does as c g'') (line : UInt32) :
    g.Does (as ++ [.write name (v.binding name)]) (c ++ [(⟨a.write, a.operand⟩, line)]) g'' where
  widens := h.grows.widens.trans hvalue.widens
  length_le := Nat.le_trans (Nat.le_of_eq h.grows.scope.locals.length_eq) hvalue.length_le
  performs chain hchain := by
    have hreached := (h.binding hname hg hknows).1 chain (hvalue.widens.becomes hchain)
    rw [List.map_append]
    exact (hvalue.performs chain hchain).append (Action.PerformedBy.write hreached).single
  marks level slot hslot := by
    rw [hvalue.marks level slot fun hzero => h.grows.scope.locals.length_eq ▸ hslot hzero,
      (h.binding hname hg hknows).2, usedByAny_append, usedByAny_cons, usedByAny_nil, Bool.or_false,
      Action.uses, Bool.or_assoc, Bool.or_comm (Binding.LeadsTo level slot _)]

end Does

end Context

end Compiler

open Compiler

/-! ## Expressions -/

/-- The code of expressions does what it should. -/
theorem Expr.Emits.does {g g' : Context} {es : List Expr} {c : Code} {v : Visible}
    (h : Emits g es c g') (hnames : [] ∉ namesOfAll es) (hg : g.Sound) (hknows : g.Knows v) :
    g.Does (Expr.actionsOfAll v es) c g' := by
  induction h with
  | nil => exact Context.does_of_locals (.refl _) rfl rfl
  | cons hfirst hrest ih ih' =>
    simp only [namesOfAll, List.append_nil, List.mem_append, not_or] at hnames ih ih'
    have hdoes := (ih hnames.1 hg hknows).append
      (ih' hnames.2 (hfirst.sound hg) (hknows.grows hfirst.grows))
    simpa [actionsOfAll] using hdoes
  | literal => exact Context.does_plain _ _ _ _
  | number =>
    exact (Context.does_plain _ _ _ _).append (Context.does_of_locals (Context.grows_addConstant _ _).widens rfl rfl)
  | string =>
    exact (Context.does_plain _ _ _ _).append (Context.does_of_locals (Context.grows_addString _ _).widens rfl rfl)
  | var h =>
    simp only [namesOfAll, names, List.append_nil, List.mem_singleton] at hnames
    exact h.does (Ne.symm hnames) hg hknows _
  | assign h _ ih =>
    simp only [namesOfAll, names, List.append_nil, List.mem_cons, not_or, actionsOfAll, actions]
      at hnames ih ⊢
    exact h.does_write (Ne.symm hnames.1) hg hknows (ih hnames.2 (h.sound hg) (hknows.grows h.grows)) _
  | unary _ ih =>
    simp only [namesOfAll, names, List.append_nil, actionsOfAll, actions] at hnames ih ⊢
    exact (ih hnames hg hknows).plain _ _ _
  | binary hleft _ ih ih' =>
    simp only [namesOfAll, names, List.append_nil, List.mem_append, not_or, actionsOfAll, actions]
      at hnames ih ih' ⊢
    exact ((ih hnames.1 hg hknows).append
      (ih' hnames.2 (hleft.sound hg) (hknows.grows hleft.grows))).plain _ _ _
  | and hleft _ _ ih ih' =>
    simp only [namesOfAll, names, List.append_nil, List.mem_append, not_or, actionsOfAll, actions]
      at hnames ih ih' ⊢
    have hright := ih' hnames.2 (hleft.sound hg) (hknows.grows hleft.grows)
    exact (ih hnames.1 hg hknows).append ((hright.before _ _ _).before _ _ _)
  | or hleft _ _ ih ih' =>
    simp only [namesOfAll, names, List.append_nil, List.mem_append, not_or, actionsOfAll, actions]
      at hnames ih ih' ⊢
    have hright := ih' hnames.2 (hleft.sound hg) (hknows.grows hleft.grows)
    exact (ih hnames.1 hg hknows).append (((hright.before _ _ _).before _ _ _).before _ _ _)
  | call _ _ ih =>
    simp only [namesOfAll, names, List.append_nil, actionsOfAll, actions] at hnames ih ⊢
    exact (ih hnames hg hknows).plain _ _ _

end Lox
