import Lox.Proofs.Bytecode.Verification
import Lox.Proofs.Compiler.Growth

/-!
# Captures are linked

A function lists how a closure of it obtains each captured variable: from a slot of the function
around it, or from a variable which that function has captured in turn.  `FunctionScope.Links`
says that every entry of the list leads somewhere: the slot exists there and is marked as
captured, or the captured variable exists there.  It holds of each function being compiled and
the one around it, all the way out, and capturing one more variable keeps it
(`capture?_linked`).

`Context.Sound` collects this and the other facts that hold at every point of a compilation and
that the verification of the code rests on: limits are kept, pools are indexed, and the functions
that were finished are verified.  Expressions keep it (`Expr.Emits.sound`).
-/

namespace Lox

namespace Compiler

open FunctionScope

/-! ## Slots -/

lemma findLocal_eq_some {name : Text} {ls : List Local} {slot : Nat} {l : Local}
    (h : findLocal name ls = some (slot, l)) : ls.reverse[slot]? = some l := by
  induction ls with
  | nil => simp [findLocal] at h
  | cons l' older ih =>
    rw [findLocal] at h
    split at h
    · simp only [Option.some.injEq, Prod.mk.injEq] at h
      obtain ⟨rfl, rfl⟩ := h
      simp
    · have hold := ih h
      obtain ⟨hlt, -⟩ := List.getElem?_eq_some_iff.1 hold
      rw [List.reverse_cons, List.getElem?_append_left hlt]
      exact hold

lemma slot_lt {ls : List Local} {slot : Nat} {l : Local} (h : ls.reverse[slot]? = some l) :
    slot < ls.length := by
  obtain ⟨hlt, -⟩ := List.getElem?_eq_some_iff.1 h
  simpa using hlt

/-- The slot that is marked is captured from then on. -/
lemma markCaptured_slot {ls : List Local} {slot : Nat} (h : slot < ls.length) :
    ∃ l, (markCaptured slot ls).reverse[slot]? = some l ∧ l.captured := by
  induction ls with
  | nil => simp at h
  | cons l older ih =>
    rw [markCaptured]
    split
    · rename_i heq
      subst heq
      exact ⟨{ l with captured := true }, by simp, rfl⟩
    · rename_i hne
      have hlt : slot < older.length := by
        rw [List.length_cons] at h
        omega
      obtain ⟨l', hl', hcaptured⟩ := ih hlt
      refine ⟨l', ?_, hcaptured⟩
      rw [List.reverse_cons, List.getElem?_append_left]
      · exact hl'
      · exact (List.getElem?_eq_some_iff.1 hl').1

/-- A local that was captured stays captured in its slot. -/
lemma captured_grows {ls ls' : List Local} (h : List.Forall₂ Local.Grows ls ls') {slot : Nat}
    {l : Local} (hl : ls.reverse[slot]? = some l) (hcaptured : l.captured) :
    ∃ l', ls'.reverse[slot]? = some l' ∧ l'.captured := by
  have hrev : List.Forall₂ Local.Grows ls.reverse ls'.reverse := List.rel_reverse h
  obtain ⟨hlt, rfl⟩ := List.getElem?_eq_some_iff.1 hl
  have hlt' : slot < ls'.reverse.length := hrev.length_eq ▸ hlt
  refine ⟨ls'.reverse[slot], List.getElem?_eq_getElem hlt', ?_⟩
  exact (hrev.get hlt hlt').captured hcaptured

/-! ## Links -/

/-- Every capture of the first function leads somewhere in the second, which is around it. -/
def FunctionScope.Links (f outer : FunctionScope) : Prop :=
  ∀ c ∈ f.captures, if c.isLocal then ∃ l, outer.locals.reverse[c.index]? = some l ∧ l.captured
    else c.index < outer.captures.size

lemma FunctionScope.Links.grows {f outer outer' : FunctionScope} (h : f.Links outer)
    (hgrows : outer.Grows outer') : f.Links outer' := by
  intro c hc
  have hlink := h c hc
  split at hlink <;> rename_i hlocal
  · obtain ⟨l, hl, hcaptured⟩ := hlink
    rw [if_pos hlocal]
    exact captured_grows hgrows.locals hl hcaptured
  · rw [if_neg hlocal]
    exact Nat.lt_of_lt_of_le hlink (by simpa using hgrows.captures.length_le)

/-- A capture that was given a place without complaint is there, and no other is new. -/
lemma addCapture_spec {f f' : FunctionScope} {c : Capture} {i : Nat}
    (h : f.addCapture c = (i, f', [])) :
    i < f'.captures.size ∧ (∀ c' ∈ f'.captures, c' ∈ f.captures ∨ c' = c) ∧
      (f.captures.size ≤ maxCaptures → f'.captures.size ≤ maxCaptures) := by
  rw [addCapture] at h
  split at h
  · rename_i j hj
    simp only [Prod.mk.injEq, and_true] at h
    obtain ⟨rfl, rfl⟩ := h
    refine ⟨?_, fun c' hc' => .inl hc', id⟩
    rw [Array.idxOf?_eq_map_finIdxOf?_val, Option.map_eq_some_iff] at hj
    obtain ⟨j', -, rfl⟩ := hj
    exact j'.2
  · split at h
    · simp at h
    · rename_i hroom
      simp only [Prod.mk.injEq, and_true] at h
      obtain ⟨rfl, rfl⟩ := h
      refine ⟨by simp, fun c' hc' => by simpa using hc', fun _ => ?_⟩
      rw [Array.size_push]
      omega

/-- Capturing a variable keeps the functions linked, and gives a place that exists. -/
theorem capture?_linked {name : Text} {f f' : FunctionScope} {outer outer' : List FunctionScope}
    {i : Nat} (h : f.capture? name outer = some (i, f', outer', []))
    (hlinked : (f :: outer).IsChain Links)
    (hroom : ∀ g ∈ f :: outer, g.captures.size ≤ maxCaptures) :
    (f' :: outer').IsChain Links ∧ (∀ g ∈ f' :: outer', g.captures.size ≤ maxCaptures) ∧
      i < f'.captures.size := by
  induction outer generalizing f f' outer' i with
  | nil => simp [capture?] at h
  | cons o rest ih =>
    obtain ⟨hlink, hrest⟩ := List.isChain_cons_cons.1 hlinked
    have hroomf : f.captures.size ≤ maxCaptures := hroom f List.mem_cons_self
    have hroomo : ∀ g ∈ o :: rest, g.captures.size ≤ maxCaptures :=
      fun g hg => hroom g (List.mem_cons_of_mem _ hg)
    rw [capture?] at h
    split at h
    · -- The variable is a local of the next function.
      rename_i slot l hfind
      simp only [Option.some.injEq, Prod.mk.injEq, List.append_eq_nil_iff] at h
      obtain ⟨rfl, rfl, rfl, -, hnil⟩ := h
      obtain ⟨hi, hmem, hsize⟩ := addCapture_spec (f := f) (Prod.ext rfl (Prod.ext rfl hnil))
      have hgrows := (captures_markCaptured o slot).toGrows
      refine ⟨List.isChain_cons_cons.2 ⟨?_, ?_⟩, ?_, hi⟩
      · intro c hc
        rcases hmem c hc with hc | rfl
        · exact hlink.grows hgrows c hc
        · exact markCaptured_slot (slot_lt (findLocal_eq_some hfind))
      · cases rest with
        | nil => exact .singleton _
        | cons o' rest =>
          obtain ⟨hlink', hrest'⟩ := List.isChain_cons_cons.1 hrest
          exact List.isChain_cons_cons.2 ⟨hlink', hrest'⟩
      · intro g hg
        rcases List.mem_cons.1 hg with rfl | hg
        · exact hsize hroomf
        · rcases List.mem_cons.1 hg with rfl | hg
          · exact hroomo o List.mem_cons_self
          · exact hroomo g (List.mem_cons_of_mem _ hg)
    · split at h
      · cases h
      · -- The next function captures it in turn.
        rename_i j o' rest' before hrec
        simp only [Option.some.injEq, Prod.mk.injEq, List.append_eq_nil_iff] at h
        obtain ⟨rfl, rfl, rfl, rfl, hnil⟩ := h
        obtain ⟨hi, hmem, hsize⟩ := addCapture_spec (f := f) (Prod.ext rfl (Prod.ext rfl hnil))
        obtain ⟨hchain, hroom', hj⟩ := ih hrec hrest hroomo
        obtain ⟨hcaptures, -⟩ := List.forall₂_cons.1 (capture?_captures hrec)
        refine ⟨List.isChain_cons_cons.2 ⟨?_, hchain⟩, ?_, hi⟩
        · intro c hc
          rcases hmem c hc with hc | rfl
          · exact hlink.grows hcaptures.toGrows c hc
          · exact hj
        · intro g hg
          rcases List.mem_cons.1 hg with rfl | hg
          · exact hsize hroomf
          · exact hroom' g hg

/-- The outermost function has none to capture from. -/
lemma capture?_outermost {name : Text} {f f' : FunctionScope} {outer outer' : List FunctionScope}
    {i : Nat} {errors : List CompileError.Cause}
    (h : f.capture? name outer = some (i, f', outer', errors))
    (hlast : ∀ g ∈ (f :: outer).getLast?, g.captures = #[]) :
    ∀ g ∈ (f' :: outer').getLast?, g.captures = #[] := by
  induction outer generalizing f f' outer' i errors with
  | nil => simp [capture?] at h
  | cons o rest ih =>
    rw [List.getLast?_cons_cons] at hlast
    rw [capture?] at h
    split at h
    · -- Marking a local leaves the captures of its function alone.
      simp only [Option.some.injEq, Prod.mk.injEq] at h
      obtain ⟨-, -, rfl, -⟩ := h
      rw [List.getLast?_cons_cons]
      cases rest with
      | nil =>
        intro g hg
        cases hg
        exact hlast o rfl
      | cons o' rest => simpa only [List.getLast?_cons_cons] using hlast
    · split at h
      · cases h
      · rename_i j o' rest' before hrec
        simp only [Option.some.injEq, Prod.mk.injEq] at h
        obtain ⟨-, -, rfl, -⟩ := h
        rw [List.getLast?_cons_cons]
        exact ih hrec hlast

/-! ## Sound contexts -/

/-- What is known of every function being compiled. -/
structure FunctionScope.Sound (f : FunctionScope) : Prop where
  locals : f.locals.length ≤ maxLocals
  captures : f.captures.size ≤ maxCaptures
  code : f.chunk.code = #[]
  constants : f.chunk.constants.Indexed
  strings : f.chunk.strings.Indexed
  functions : ∀ p ∈ f.chunk.functions, p.Verified

lemma FunctionScope.sound_new (kind : FunctionKind) (name : Text) :
    (FunctionScope.new kind name).Sound where
  locals := by simp [FunctionScope.new, maxLocals]
  captures := by simp [FunctionScope.new]
  code := rfl
  constants := Pool.indexed_empty
  strings := Pool.indexed_empty
  functions := by simp [FunctionScope.new, Chunk.empty]

lemma FunctionScope.Captures.sound {f f' : FunctionScope} (h : f.Captures f') (hf : f.Sound)
    (hroom : f'.captures.size ≤ maxCaptures) : f'.Sound where
  locals := h.locals.length_eq ▸ hf.locals
  captures := hroom
  code := h.chunk ▸ hf.code
  constants := h.chunk ▸ hf.constants
  strings := h.chunk ▸ hf.strings
  functions := h.chunk ▸ hf.functions

/-- Only the number of locals matters. -/
lemma FunctionScope.Sound.of_eq {f f' : FunctionScope} (h : f.Sound) (hchunk : f'.chunk = f.chunk)
    (hcaptures : f'.captures = f.captures) (hlocals : f'.locals.length ≤ maxLocals) :
    f'.Sound where
  locals := hlocals
  captures := hcaptures ▸ h.captures
  code := hchunk ▸ h.code
  constants := hchunk ▸ h.constants
  strings := hchunk ▸ h.strings
  functions := hchunk ▸ h.functions

namespace Context

/-- What is known at every point of a compilation. -/
structure Sound (g : Context) : Prop where
  linked : (g.scope :: g.enclosing).IsChain Links
  outermost : ∀ f ∈ (g.scope :: g.enclosing).getLast?, f.captures = #[]
  functions : ∀ f ∈ g.scope :: g.enclosing, f.Sound

lemma Sound.scope {g : Context} (h : g.Sound) : g.scope.Sound :=
  h.functions g.scope List.mem_cons_self

/-- The innermost function may change as long as its captures stay. -/
lemma Sound.of_scope {g : Context} (h : g.Sound) {f : FunctionScope} (hf : f.Sound)
    (hcaptures : f.captures = g.scope.captures) : Sound ⟨f, g.enclosing⟩ where
  linked := by
    have hlinked := h.linked
    cases henclosing : g.enclosing with
    | nil => exact .singleton _
    | cons o rest =>
      rw [henclosing] at hlinked
      obtain ⟨hlink, hrest⟩ := List.isChain_cons_cons.1 hlinked
      refine List.isChain_cons_cons.2 ⟨?_, hrest⟩
      intro c hc
      exact hlink c (hcaptures ▸ hc)
  outermost := by
    have hlast := h.outermost
    cases henclosing : g.enclosing with
    | nil =>
      rw [henclosing] at hlast
      intro f' hf'
      cases hf'
      exact hcaptures.trans (hlast g.scope rfl)
    | cons o rest =>
      rw [henclosing] at hlast
      simpa only [List.getLast?_cons_cons] using hlast
  functions := by
    intro f' hf'
    rcases List.mem_cons.1 hf' with rfl | hf'
    · exact hf
    · exact h.functions f' (List.mem_cons_of_mem _ hf')

lemma Sound.addConstant {g : Context} (h : g.Sound) (bits : UInt64) :
    (g.addConstant bits).2.Sound :=
  h.of_scope { h.scope with constants := h.scope.constants.add bits } rfl

lemma Sound.addString {g : Context} (h : g.Sound) (t : Text) : (g.addString t).2.Sound :=
  h.of_scope { h.scope with strings := h.scope.strings.add t } rfl

lemma Sound.addFunction {g : Context} (h : g.Sound) {p : Prototype} (hp : p.Verified) :
    (g.addFunction p).2.Sound := by
  refine h.of_scope { h.scope with functions := ?_ } rfl
  intro q hq
  simp only [Chunk.addFunction, Array.mem_push] at hq
  rcases hq with hq | rfl
  · exact h.scope.functions q hq
  · exact hp

lemma Resolves.sound {g g' : Context} {name : Text} {a : Access} (h : g.Resolves name a g')
    (hg : g.Sound) : g'.Sound := by
  cases h with
  | ofLocal => exact hg
  | ofCapture _ hcapture =>
    have hroom : ∀ f ∈ g.scope :: g.enclosing, f.captures.size ≤ maxCaptures :=
      fun f hf => (hg.functions f hf).captures
    obtain ⟨hlinked, hroom', -⟩ := capture?_linked hcapture hg.linked hroom
    refine ⟨hlinked, capture?_outermost hcapture hg.outermost, fun f' hf' => ?_⟩
    obtain ⟨f, hf, hcaptures⟩ := exists_of_mem_forall₂ (capture?_captures hcapture) hf'
    exact hcaptures.sound (hg.functions f hf) (hroom' f' hf')
  | ofGlobal => exact hg.addString name

end Context

end Compiler

open Compiler

/-- Compiling expressions keeps the context sound. -/
theorem Expr.Emits.sound {g g' : Context} {es : List Expr} {c : Code} (h : Emits g es c g')
    (hg : g.Sound) : g'.Sound := by
  induction h with
  | nil | literal => exact hg
  | cons _ _ ih ih' => exact ih' (ih hg)
  | number => exact hg.addConstant _
  | string => exact hg.addString _
  | var h => exact h.sound hg
  | assign h _ ih => exact ih (h.sound hg)
  | unary _ ih => exact ih hg
  | binary _ _ ih ih' => exact ih' (ih hg)
  | and _ _ _ ih ih' => exact ih' (ih hg)
  | or _ _ _ ih ih' => exact ih' (ih hg)
  | call _ _ ih => exact ih hg

lemma Expr.EmitsCondition.sound {g g' : Context} {e : Option Expr} {n : Nat} {c : Code}
    (h : EmitsCondition g e n c g') (hg : g.Sound) : g'.Sound := by
  cases h with
  | none => exact hg
  | some h => exact h.sound hg

lemma Expr.EmitsIncrement.sound {g g' : Context} {e : Option Expr} {n back : Nat} {c : Code}
    (h : EmitsIncrement g e n c g' back) (hg : g.Sound) : g'.Sound := by
  cases h with
  | none => exact hg
  | some h => exact h.sound hg

end Lox
