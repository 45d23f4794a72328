import Lox.Proofs.Compiler.Verification
import Lox.Proofs.Semantics.Evaluation

/-!
# Variables and their slots

While a tree is evaluated, its variables are in the blocks of a `Store`.  While its code runs, they
are on the stack, and the compiler knows them as locals.  The three fit together: the names of the
variables, block by block, determine the locals (`localsOf`), and the slot of a local is the place
of its value in `Store.values`, the values of all variables with the oldest first.

`Context.Models` says that a context has the locals of given blocks and no others.  It is kept
by statements without functions (`Stmt.Emits.models`), where `Stmt.namesAfter` says which variables
there are afterwards.  In the initializer of a local the local itself is there as well, but it
cannot be read yet: `Context.Sees`.
-/

namespace Lox

open Compiler FunctionScope

/-! ## Locals and bindings -/

namespace Scope

/-- Each local has the name of a variable, in the same order. -/
def Matches (ls : List Local) (bs : Scope) : Prop :=
  List.Forall₂ (fun l b => l.name = b.1) ls bs

/-- The values of the variables, oldest first. -/
def values (bs : Scope) : List Datum :=
  (bs.map Prod.snd).reverse

@[simp] lemma values_cons (b : Text × Datum) (bs : Scope) : values (b :: bs) = bs.values ++ [b.2] := by
  simp [values]

@[simp] lemma values_append (bs bs' : Scope) : values (bs ++ bs') = values bs' ++ bs.values := by
  simp [values]

@[simp] lemma length_values (bs : Scope) : bs.values.length = bs.length := by
  simp [values]

variable {ls : List Local} {bs : Scope} {name : Text} {slot : Nat} {l : Local} {d : Datum}

lemma Matches.length_eq (h : Matches ls bs) : ls.length = bs.length :=
  List.Forall₂.length_eq h

/-- The slot of a local is the place of its variable's value. -/
lemma Matches.lookup_of_find (h : Matches ls bs) (hfind : findLocal name ls = some (slot, l)) :
    ∃ d, bs.lookup name = some d ∧ bs.values[slot]? = some d := by
  induction h with
  | nil => simp [findLocal] at hfind
  | @cons l' b ls' bs' hname hrest ih =>
    obtain ⟨name', d'⟩ := b
    dsimp only at hname
    subst hname
    have hlength : ls'.length = (values bs').length := by
      rw [length_values]
      exact Matches.length_eq hrest
    rw [findLocal] at hfind
    rw [List.lookup_cons, values_cons]
    by_cases heq : l'.name = name
    · rw [if_pos heq] at hfind
      cases hfind
      exact ⟨d', by simp [heq], by simp [hlength]⟩
    · rw [if_neg heq] at hfind
      obtain ⟨d, hlookup, hslot⟩ := ih hfind
      refine ⟨d, ?_, ?_⟩
      · have hne : (name == l'.name) = false := by simpa using Ne.symm heq
        rw [hne]
        exact hlookup
      · rw [List.getElem?_append_left (List.getElem?_eq_some_iff.1 hslot).1]
        exact hslot

lemma Matches.lookup_eq_none (h : Matches ls bs) (hfind : findLocal name ls = none) :
    bs.lookup name = none := by
  induction h with
  | nil => rfl
  | @cons l' b ls' bs' hname _ ih =>
    obtain ⟨name', d'⟩ := b
    dsimp only at hname
    subst hname
    rw [findLocal] at hfind
    by_cases heq : l'.name = name
    · rw [if_pos heq] at hfind
      cases hfind
    · rw [if_neg heq] at hfind
      have hne : (name == l'.name) = false := by simpa using Ne.symm heq
      rw [List.lookup_cons, hne]
      exact ih hfind

/-- Assigning to a variable changes its value, in the slot of its local. -/
lemma Matches.assign_of_find (h : Matches ls bs) (hfind : findLocal name ls = some (slot, l))
    (d : Datum) : ∃ bs', assign? name d bs = some bs' ∧ bs'.values = bs.values.set slot d := by
  induction h with
  | nil => simp [findLocal] at hfind
  | @cons l' b ls' bs' hname hrest ih =>
    obtain ⟨name', d'⟩ := b
    dsimp only at hname
    subst hname
    have hlength : ls'.length = (values bs').length := by
      rw [length_values]
      exact Matches.length_eq hrest
    rw [findLocal] at hfind
    rw [assign?]
    by_cases heq : l'.name = name
    · rw [if_pos heq] at hfind
      cases hfind
      exact ⟨(name, d) :: bs', by rw [if_pos heq.symm], by simp [hlength]⟩
    · rw [if_neg heq] at hfind
      obtain ⟨bs'', hassign, hvalues⟩ := ih hfind
      obtain ⟨d₀, -, hslot⟩ := Matches.lookup_of_find hrest hfind
      refine ⟨(l'.name, d') :: bs'', by rw [if_neg (Ne.symm heq), hassign]; rfl, ?_⟩
      rw [values_cons, values_cons, hvalues,
        List.set_append_left _ _ (List.getElem?_eq_some_iff.1 hslot).1]

/-- Only a variable that is there can be assigned to. -/
lemma assign?_eq_none (h : bs.lookup name = none) (d : Datum) : assign? name d bs = none := by
  induction bs with
  | nil => rfl
  | cons b bs ih =>
    obtain ⟨name', d'⟩ := b
    rw [List.lookup_cons] at h
    rw [assign?]
    by_cases heq : name = name'
    · subst heq
      simp at h
    · have hne : (name == name') = false := by simpa using heq
      rw [hne] at h
      rw [if_neg heq, ih h]
      rfl

/-- Assigning leaves the names. -/
lemma names_assign? {bs' : Scope} (h : assign? name d bs = some bs') :
    bs'.map Prod.fst = bs.map Prod.fst := by
  induction bs generalizing bs' with
  | nil => cases h
  | cons b bs ih =>
    obtain ⟨name', d'⟩ := b
    rw [assign?] at h
    split at h
    · rename_i heq
      cases h
      simp [heq]
    · obtain ⟨bs'', hassign, rfl⟩ := Option.map_eq_some_iff.1 h
      simp [ih hassign]

lemma assign?_append (bs' : Scope) :
    assign? name d (bs ++ bs') =
      ((assign? name d bs).map (· ++ bs')).or ((assign? name d bs').map (bs ++ ·)) := by
  induction bs with
  | nil =>
    rw [List.nil_append, assign?]
    cases h : assign? name d bs' <;> simp
  | cons b bs ih =>
    obtain ⟨name', d'⟩ := b
    rw [List.cons_append, assign?, assign?]
    split
    · rfl
    · rw [ih]
      cases assign? name d bs <;> cases assign? name d bs' <;> rfl

end Scope

/-! ## Blocks -/

lemma lookup_flatten (scopes : List Scope) (name : Text) :
    scopes.findSome? (·.lookup name) = scopes.flatten.lookup name := by
  induction scopes with
  | nil => rfl
  | cons sc outer ih =>
    rw [List.findSome?_cons, List.flatten_cons, List.lookup_append, ih]
    cases sc.lookup name <;> rfl

lemma assignScopes?_flatten (scopes : List Scope) (name : Text) (d : Datum) :
    (assignScopes? name d scopes).map List.flatten = Scope.assign? name d scopes.flatten := by
  induction scopes with
  | nil => rfl
  | cons sc outer ih =>
    rw [assignScopes?, List.flatten_cons, Scope.assign?_append, ← ih]
    cases sc.assign? name d with
    | some sc' => rfl
    | none => cases assignScopes? name d outer <;> rfl

lemma names_assignScopes? {scopes scopes' : List Scope} {name : Text} {d : Datum}
    (h : assignScopes? name d scopes = some scopes') :
    scopes'.map (·.map Prod.fst) = scopes.map (·.map Prod.fst) := by
  induction scopes generalizing scopes' with
  | nil => cases h
  | cons sc outer ih =>
    rw [assignScopes?] at h
    split at h
    · rename_i sc' hassign
      cases h
      simp [Scope.names_assign? hassign]
    · obtain ⟨outer', hassign, rfl⟩ := Option.map_eq_some_iff.1 h
      simp [ih hassign]

/-- The locals that the compiler has for the variables of these blocks, innermost first.  The
oldest stands for the callee and has no name. -/
def localsOf : List (List Text) → List Local
  | [] => [⟨[], some 0, false⟩]
  | names :: outer => names.map (⟨·, some (outer.length + 1), false⟩) ++ localsOf outer

namespace Store

variable {σ : Store} {callee : Datum} {name : Text} {slot : Nat} {l : Local}

/-- The names of the variables, block by block. -/
def names (σ : Store) : List (List Text) :=
  σ.scopes.map (·.map Prod.fst)

/-- The callee and the variables of all blocks, newest first. -/
def bindings (σ : Store) (callee : Datum) : Scope :=
  σ.scopes.flatten ++ [([], callee)]

/-- Their values, oldest first, as they are on the stack. -/
def values (σ : Store) (callee : Datum) : List Datum :=
  (σ.bindings callee).values

lemma matches_bindings (σ : Store) (callee : Datum) :
    Scope.Matches (localsOf σ.names) (σ.bindings callee) := by
  have hscope : ∀ (sc : Scope) (depth : Nat), Scope.Matches
      ((sc.map Prod.fst).map (⟨·, some depth, false⟩)) sc := by
    intro sc depth
    induction sc with
    | nil => exact .nil
    | cons b sc ih => exact .cons rfl ih
  unfold names bindings
  induction σ.scopes with
  | nil => exact .cons rfl .nil
  | cons sc outer ih =>
    rw [List.map_cons, localsOf, List.flatten_cons, List.append_assoc]
    exact List.rel_append (hscope sc _) ih

lemma length_values (σ : Store) (callee : Datum) :
    (σ.values callee).length = (localsOf σ.names).length := by
  rw [values, Scope.length_values, (σ.matches_bindings callee).length_eq]

lemma lookup_bindings (hname : name ≠ []) :
    (σ.bindings callee).lookup name = σ.scopes.flatten.lookup name := by
  have hroot : List.lookup name [(([] : Text), callee)] = none := by
    have hne : (name == []) = false := by simpa using hname
    rw [List.lookup_cons, hne]
    rfl
  rw [bindings, List.lookup_append, hroot, Option.or_none]

/-- A local variable is read from its slot. -/
lemma read?_local (hname : name ≠ []) (hfind : findLocal name (localsOf σ.names) = some (slot, l))
    (callee : Datum) : ∃ d, σ.read? name = some d ∧ (σ.values callee)[slot]? = some d := by
  obtain ⟨d, hlookup, hslot⟩ := (σ.matches_bindings callee).lookup_of_find hfind
  rw [lookup_bindings hname] at hlookup
  exact ⟨d, by rw [read?, lookup_flatten, hlookup, Option.some_or], hslot⟩

lemma lookup_eq_none (hname : name ≠ []) (hfind : findLocal name (localsOf σ.names) = none) :
    σ.scopes.flatten.lookup name = none := by
  have hnone := (σ.matches_bindings .nil).lookup_eq_none hfind
  rwa [lookup_bindings hname] at hnone

lemma read?_global (hname : name ≠ []) (hfind : findLocal name (localsOf σ.names) = none) :
    σ.read? name = σ.globals name := by
  rw [read?, lookup_flatten, lookup_eq_none hname hfind, Option.none_or]

/-- A local variable is written to its slot. -/
lemma write?_local (hname : name ≠ []) (hfind : findLocal name (localsOf σ.names) = some (slot, l))
    (callee d : Datum) : ∃ σ', σ.write? name d = some σ' ∧ σ'.names = σ.names ∧
      σ'.values callee = (σ.values callee).set slot d ∧ σ'.globals = σ.globals ∧
      σ'.printed = σ.printed := by
  obtain ⟨bs, hassign, hvalues⟩ := (σ.matches_bindings callee).assign_of_find hfind d
  have hroot : Scope.assign? name d [([], callee)] = none := by
    simp [Scope.assign?, hname]
  rw [bindings, Scope.assign?_append, hroot, Option.map_none, Option.or_none,
    ← assignScopes?_flatten, Option.map_map, Option.map_eq_some_iff] at hassign
  obtain ⟨scopes, hscopes, rfl⟩ := hassign
  refine ⟨{ σ with scopes }, by rw [write?, hscopes], names_assignScopes? hscopes, hvalues, rfl, rfl⟩

lemma write?_global (hname : name ≠ []) (hfind : findLocal name (localsOf σ.names) = none)
    (d : Datum) : σ.write? name d =
      if (σ.globals name).isSome then some (σ.defineGlobal name d) else none := by
  have hassign := Scope.assign?_eq_none (lookup_eq_none hname hfind) d
  rw [← assignScopes?_flatten, Option.map_eq_none_iff] at hassign
  rw [write?, hassign]

@[simp] lemma names_enter (σ : Store) : σ.enter.names = [] :: σ.names := rfl

@[simp] lemma values_enter (σ : Store) (callee : Datum) : σ.enter.values callee = σ.values callee :=
  rfl

@[simp] lemma names_print (σ : Store) (d : Datum) : (σ.print d).names = σ.names := rfl

@[simp] lemma values_print (σ : Store) (d callee : Datum) :
    (σ.print d).values callee = σ.values callee := rfl

@[simp] lemma names_defineGlobal (σ : Store) (name : Text) (d : Datum) :
    (σ.defineGlobal name d).names = σ.names := rfl

@[simp] lemma values_defineGlobal (σ : Store) (name : Text) (d callee : Datum) :
    (σ.defineGlobal name d).values callee = σ.values callee := rfl

/-- The values of the innermost block are on top. -/
lemma values_leave {inner : List Text} {outer : List (List Text)} (h : σ.names = inner :: outer)
    (callee : Datum) : σ.leave.names = outer ∧
      ∃ top, σ.values callee = σ.leave.values callee ++ top ∧ top.length = inner.length := by
  obtain ⟨sc, rest, hscopes, rfl, rfl⟩ := List.map_eq_cons_iff.1 h
  refine ⟨by simp [names, leave, hscopes], sc.values, ?_, by simp⟩
  simp [values, bindings, leave, hscopes]

/-- A new variable of the innermost block is on top. -/
lemma declare_local {inner : List Text} {outer : List (List Text)} (h : σ.names = inner :: outer)
    (name : Text) (d callee : Datum) : (σ.declare name d).names = (name :: inner) :: outer ∧
      (σ.declare name d).values callee = σ.values callee ++ [d] ∧
      (σ.declare name d).globals = σ.globals ∧ (σ.declare name d).printed = σ.printed := by
  obtain ⟨sc, rest, hscopes, rfl, rfl⟩ := List.map_eq_cons_iff.1 h
  unfold declare
  rw [hscopes]
  exact ⟨rfl, by simp [values, bindings, hscopes], rfl, rfl⟩

lemma declare_global (h : σ.names = []) (name : Text) (d : Datum) :
    σ.declare name d = σ.defineGlobal name d := by
  have hscopes : σ.scopes = [] := List.map_eq_nil_iff.1 h
  unfold declare
  rw [hscopes]

end Store

namespace Stmt

/-- The variables, block by block, after a statement in given blocks. -/
def namesAfter : Stmt → List (List Text) → List (List Text)
  | .seq first rest, names => rest.namesAfter (first.namesAfter names)
  | .declareVar name _, inner :: outer => (name :: inner) :: outer
  | _, names => names

lemma IsStatement.namesAfter_eq {s : Stmt} (h : s.IsStatement) (names : List (List Text)) :
    s.namesAfter names = names := by
  cases s with
  | seq | declareVar | declareFun => exact h.elim
  | _ => rfl

/-- A statement declares variables in the innermost block only. -/
lemma exists_namesAfter_eq_cons (s : Stmt) (inner : List Text) (outer : List (List Text)) :
    ∃ inner', s.namesAfter (inner :: outer) = inner' :: outer := by
  induction s generalizing inner with
  | seq first rest ih ih' =>
    obtain ⟨inner₁, h₁⟩ := ih inner
    obtain ⟨inner₂, h₂⟩ := ih' inner₁
    exact ⟨inner₂, by rw [namesAfter, h₁, h₂]⟩
  | declareVar name e => exact ⟨name :: inner, rfl⟩
  | _ => exact ⟨inner, rfl⟩

end Stmt

/-! ## Contexts -/

namespace Compiler.Context

variable {g g' : Context} {names : List (List Text)} {name : Text}

/-- The locals that can be read are those of these blocks, and there is no function around. -/
structure Sees (g : Context) (names : List (List Text)) : Prop where
  enclosing : g.enclosing = []
  locals : ∃ pending, g.scope.locals = pending ++ localsOf names ∧ ∀ l ∈ pending, l.depth = none

/-- A sound context between statements with the locals of these blocks. -/
structure Models (g : Context) (names : List (List Text)) : Prop where
  sound : g.Sound
  enclosing : g.enclosing = []
  locals : g.scope.locals = localsOf names
  depth : g.scope.depth = names.length

lemma models_script : Context.script.Models [] where
  sound := sound_script
  enclosing := rfl
  locals := rfl
  depth := rfl

lemma Models.sees (h : g.Models names) : g.Sees names :=
  ⟨h.enclosing, [], h.locals, by simp⟩

/-- Locals that cannot be read yet are no hindrance to finding the others. -/
lemma findLocal_pending {pending ls : List Local} (hpending : ∀ l ∈ pending, l.depth = none)
    {found : Option (Nat × Local)} (hfind : findLocal name (pending ++ ls) = found)
    (hread : ∀ slot l, found = some (slot, l) → l.depth.isSome) : findLocal name ls = found := by
  induction pending with
  | nil => exact hfind
  | cons l pending ih =>
    rw [List.cons_append, findLocal] at hfind
    split at hfind
    · have hsome := hread _ _ hfind.symm
      rw [hpending l List.mem_cons_self] at hsome
      cases hsome
    · exact ih (fun l' hl' => hpending l' (List.mem_cons_of_mem _ hl')) hfind

/-- How a variable is reached where there is no function around. -/
lemma Sees.resolves {a : Access} (h : g.Sees names) (hr : g.Resolves name a g') :
    (∃ slot l, findLocal name (localsOf names) = some (slot, l) ∧
      a = { read := .getLocal, write := .setLocal, operand := slot } ∧ g' = g) ∨
    (findLocal name (localsOf names) = none ∧ (g.addString name).1 ≤ Chunk.maxShort ∧
      a = { read := .getGlobal, write := .setGlobal, operand := (g.addString name).1 } ∧
      g' = (g.addString name).2) := by
  obtain ⟨henclosing, pending, hlocals, hpending⟩ := h
  cases hr with
  | @ofLocal slot l hfind hsome =>
    rw [hlocals] at hfind
    have hread : ∀ slot' l', some (slot, l) = some (slot', l') → l'.depth.isSome := by
      intro slot' l' heq
      cases heq
      exact hsome
    exact .inl ⟨slot, l, findLocal_pending hpending hfind hread, rfl, rfl⟩
  | ofCapture _ hcapture =>
    rw [henclosing] at hcapture
    cases hcapture
  | ofGlobal hfind _ hmax =>
    rw [hlocals] at hfind
    exact .inr ⟨findLocal_pending hpending hfind (by simp), hmax, rfl, rfl⟩

lemma Resolves.same {a : Access} (hr : g.Resolves name a g') (h : g.enclosing = []) :
    g'.enclosing = [] ∧ g'.scope.locals = g.scope.locals := by
  cases hr with
  | ofLocal => exact ⟨h, rfl⟩
  | ofCapture _ hcapture =>
    rw [h] at hcapture
    cases hcapture
  | ofGlobal => exact ⟨h, rfl⟩

end Compiler.Context

/-- Where there is no function around, expressions leave the locals as they are. -/
lemma Expr.Emits.same {g g' : Context} {es : List Expr} {c : Code} (h : Emits g es c g')
    (hg : g.enclosing = []) : g'.enclosing = [] ∧ g'.scope.locals = g.scope.locals := by
  have htrans : ∀ {g₁ g₂ g₃ : Context},
      g₂.enclosing = [] ∧ g₂.scope.locals = g₁.scope.locals →
      (g₂.enclosing = [] → g₃.enclosing = [] ∧ g₃.scope.locals = g₂.scope.locals) →
      g₃.enclosing = [] ∧ g₃.scope.locals = g₁.scope.locals := by
    intro g₁ g₂ g₃ h₁ h₂
    exact ⟨(h₂ h₁.1).1, (h₂ h₁.1).2.trans h₁.2⟩
  induction h with
  | nil | literal | number | string => exact ⟨hg, rfl⟩
  | cons _ _ ih ih' | binary _ _ ih ih' | and _ _ _ ih ih' | or _ _ _ ih ih' =>
    exact htrans (ih hg) ih'
  | var hr => exact hr.same hg
  | assign hr _ ih => exact htrans (hr.same hg) ih
  | unary _ ih | call _ _ ih => exact ih hg

namespace Compiler.Context

variable {g g' : Context} {names : List (List Text)} {name : Text}

lemma Sees.expr (h : g.Sees names) {es : List Expr} {c : Code} (he : Expr.Emits g es c g') :
    g'.Sees names := by
  obtain ⟨henclosing, hlocals⟩ := he.same h.enclosing
  obtain ⟨pending, hpending⟩ := h.locals
  exact ⟨henclosing, pending, hlocals ▸ hpending⟩

lemma Sees.of_resolves (h : g.Sees names) {a : Access} (hr : g.Resolves name a g') :
    g'.Sees names := by
  obtain ⟨henclosing, hlocals⟩ := hr.same h.enclosing
  obtain ⟨pending, hpending⟩ := h.locals
  exact ⟨henclosing, pending, hlocals ▸ hpending⟩

lemma Models.expr (h : g.Models names) {es : List Expr} {c : Code} (he : Expr.Emits g es c g') :
    g'.Models names := by
  obtain ⟨henclosing, hlocals⟩ := he.same h.enclosing
  exact ⟨he.sound h.sound, henclosing, hlocals.trans h.locals, he.grows.scope.depth.trans h.depth⟩

lemma Models.condition (h : g.Models names) {e : Option Expr} {n : Nat} {c : Code}
    (he : Expr.EmitsCondition g e n c g') : g'.Models names := by
  cases he with
  | none => exact h
  | some he _ => exact h.expr he

lemma Models.increment (h : g.Models names) {e : Option Expr} {n back : Nat} {c : Code}
    (he : Expr.EmitsIncrement g e n c g' back) : g'.Models names := by
  cases he with
  | none => exact h
  | some he _ _ => exact h.expr he

/-- Every local can be read, and belongs to a block that is open. -/
lemma exists_depth_of_mem_localsOf {l : Local} (hl : l ∈ localsOf names) :
    ∃ d ≤ names.length, l.depth = some d := by
  induction names with
  | nil =>
    cases List.mem_singleton.1 hl
    exact ⟨0, Nat.le_refl _, rfl⟩
  | cons inner outer ih =>
    rw [localsOf, List.mem_append, List.mem_map] at hl
    rcases hl with ⟨name, -, rfl⟩ | hl
    · exact ⟨outer.length + 1, Nat.le_refl _, rfl⟩
    · obtain ⟨d, hd, hdepth⟩ := ih hl
      exact ⟨d, Nat.le_succ_of_le hd, hdepth⟩

lemma Models.beginScope (h : g.Models names) : g.beginScope.Models ([] :: names) where
  sound := h.sound.beginScope
  enclosing := h.enclosing
  locals := h.locals
  depth := congrArg (· + 1) h.depth

/-- The locals of the innermost block leave with it. -/
lemma Models.span {inner : List Text} {outer : List (List Text)} (h : g.Models (inner :: outer)) :
    g.scope.locals.span (Local.inBlock g.scope.depth) =
      (inner.map (⟨·, some (outer.length + 1), false⟩), localsOf outer) := by
  have hin : ∀ l ∈ inner.map (⟨·, some (outer.length + 1), false⟩ : Text → Local),
      Local.inBlock g.scope.depth l = true := by
    intro l hl
    obtain ⟨name, -, rfl⟩ := List.mem_map.1 hl
    simp [Local.inBlock, h.depth]
  have hout : ∀ l ∈ localsOf outer, Local.inBlock g.scope.depth l = false := by
    intro l hl
    obtain ⟨d, hd, hdepth⟩ := exists_depth_of_mem_localsOf hl
    simp only [Local.inBlock, hdepth, h.depth, List.length_cons]
    simp
    omega
  rw [List.span_eq_takeWhile_dropWhile, h.locals, localsOf, List.takeWhile_append_of_pos hin,
    List.dropWhile_append_of_pos hin]
  cases hlocals : localsOf outer with
  | nil => simp
  | cons l older =>
    have hl := hout l (hlocals ▸ List.mem_cons_self)
    rw [List.takeWhile_cons_of_neg (by simp [hl]), List.dropWhile_cons_of_neg (by simp [hl]),
      List.append_nil]

lemma Models.endScope {inner : List Text} {outer : List (List Text)}
    (h : g.Models (inner :: outer)) : g.endScope.Models outer where
  sound := h.sound.endScope
  enclosing := h.enclosing
  locals := by
    unfold Context.endScope
    rw [h.span]
  depth := by
    change g.scope.depth - 1 = outer.length
    rw [h.depth, List.length_cons, Nat.add_sub_cancel]

/-- A variable is declared: in a block it is seen from the end of its initializer on. -/
lemma Models.declare {global? : Option Nat} {g₁ g₂ : Context} {e : Expr} {c : Code}
    (h : g.Models names) (hnames : g.Names name global? g₁) (he : Expr.Emits g₁ [e] c g₂) :
    g₁.Sound ∧ g₁.Sees names ∧ g₂.complete.Models ((Stmt.declareVar name e).namesAfter names) := by
  have hsound := hnames.sound h.sound
  refine ⟨hsound, ?_⟩
  cases hnames with
  | ofLocal hpos hadmits =>
    rw [h.depth] at hpos
    obtain ⟨inner, outer, rfl⟩ := List.exists_cons_of_length_pos hpos
    have hsees : (g.declare name).Sees (inner :: outer) :=
      ⟨h.enclosing, [⟨name, none, false⟩], congrArg _ h.locals, by simp⟩
    obtain ⟨henclosing, hlocals⟩ := he.same h.enclosing
    have hdepth : g₂.scope.depth = (inner :: outer).length :=
      he.grows.scope.depth.trans h.depth
    refine ⟨hsees, (he.sound hsound).complete, ?_, ?_, ?_⟩
    · rw [enclosing_complete, henclosing]
    · rw [complete_locals (hdepth ▸ hpos) (hlocals.trans rfl), h.locals, hdepth]
      rfl
    · exact (widens_complete g₂).depth.trans hdepth
  | ofGlobal hzero hmax =>
    rw [h.depth] at hzero
    cases List.length_eq_zero_iff.1 hzero
    have hmodels : (g.addString name).2.Models [] := ⟨hsound, h.enclosing, h.locals, h.depth⟩
    refine ⟨hmodels.sees, ?_⟩
    rw [complete_of_depth_zero (he.grows.scope.depth.trans h.depth)]
    exact hmodels.expr he

end Compiler.Context

/-- Without functions, it is known which locals there are after a statement. -/
theorem Stmt.Emits.models {g g' : Context} {s : Stmt} {c : Code} {names : List (List Text)}
    (h : Emits g s c g') (hg : g.Models names) (hs : s.Structured) (hfree : s.isFunctionFree) :
    g'.Models (s.namesAfter names) := by
  induction h generalizing names with
  | skip => exact hg
  | seq _ _ ih ih' =>
    simp only [isFunctionFree, Bool.and_eq_true] at hfree
    exact ih' (ih hg hs.1 hfree.1) hs.2 hfree.2
  | declareVar hnames he => exact (hg.declare hnames he).2.2
  | declareFun | ret => cases hfree
  | print he | discard he | echo he => exact hg.expr he
  | branch he _ _ _ _ ih ih' =>
    simp only [isFunctionFree, Bool.and_eq_true] at hfree
    have hyes := ih (hg.expr he) hs.2.1 hfree.1.2
    rw [hs.1.namesAfter_eq] at hyes
    have hno := ih' hyes hs.2.2.2 hfree.2
    rwa [hs.2.2.1.namesAfter_eq] at hno
  | whileLoop he _ _ _ ih =>
    simp only [isFunctionFree, Bool.and_eq_true] at hfree
    have hbody := ih (hg.expr he) hs.2 hfree.2
    rwa [hs.1.namesAfter_eq] at hbody
  | forLoop _ hcond hinc _ _ ih ih' =>
    simp only [isFunctionFree, Bool.and_eq_true] at hfree
    have hinit := ih hg.beginScope hs.1 hfree.1.1.1
    have hbody := ih' ((hinit.condition hcond).increment hinc) hs.2.2 hfree.2
    rw [hs.2.1.namesAfter_eq] at hbody
    obtain ⟨inner, hinner⟩ := exists_namesAfter_eq_cons _ [] names
    rw [hinner] at hbody
    exact hbody.endScope
  | block _ ih =>
    have hbody := ih hg.beginScope hs hfree
    obtain ⟨inner, hinner⟩ := exists_namesAfter_eq_cons _ [] names
    rw [hinner] at hbody
    exact hbody.endScope

end Lox
