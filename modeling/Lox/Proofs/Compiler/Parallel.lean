import Lox.Proofs.Compiler.Prospect
import Lox.Proofs.Compiler.Reading
import Lox.Proofs.Compiler.Stranding
import Lox.Proofs.Lexer.Extension

/-!
# A source and its beginning

A source is compiled without an error, and so is a beginning of it.  Both compilations look at the
same tokens until the beginning ends (`InStep`).  Where an expression or a conditional may end, the
second compilation ends it there, whatever the first one goes on with; it has not written more code
then (`Trails`), so that no limit is exceeded that was not exceeded by the first.  Anywhere else
something is missing, and the second compilation is stranded.

`Parallels` says of a step that one of the three is the case after it.  This file has the vocabulary
and the expressions.
-/

namespace Lox.Compiler

open FunctionScope

/-! ## Two compilations -/

/-- The beginning of the source has not ended yet. -/
structure Inside (s u : State) : Prop where
  current : u.current = s.current
  more : s.current.kind ≠ .eof
  rest : ∃ ts after last, s.rest = ts ++ after ∧ u.rest = ts ++ last ∧ BreaksOff last ∧
    ∀ t ∈ ts, t.kind ≠ .eof

/-- The compilation `u` of the beginning has done the same as the compilation `s` of the whole. -/
structure InStep (s u : State) : Prop where
  same : u = s.facing u.prospect
  clean : s.errors.toList = []
  calm : s.panicking = false
  place : Inside s u ∨ u.current.kind = .eof ∧ u.rest = []

/-- The beginning has ended where `s` may have gone on, and not more code was written for it. -/
structure Trails (s u : State) : Prop where
  current : u.current.kind = .eof
  rest : u.rest = []
  clean : u.errors.toList = []
  calm : u.panicking = false
  codeSize : u.scope.chunk.code.size ≤ s.scope.chunk.code.size

section Parallels

variable {α β : Type} {s t u v : State} {may may' : Prop}

lemma Sane.calm (hs : Sane s) (hclean : s.errors.toList = []) : s.panicking = false :=
  Bool.eq_false_iff.2 fun hpanicking => hs.reported (.inl hpanicking) hclean

lemma InStep.with_scope (h : InStep s u) (scope : FunctionScope) (enclosing : List FunctionScope) :
    InStep { s with scope, enclosing } { u with scope, enclosing } :=
  ⟨congrArg (fun u : State => { u with scope, enclosing }) h.same, h.clean, h.calm,
    h.place.imp_left fun hin => ⟨hin.current, hin.more, hin.rest⟩⟩

lemma InStep.enclosing (h : InStep s u) : u.enclosing = s.enclosing := by
  rw [h.same]
  rfl

/-- The tokens for the second compilation end with the end token as well. -/
lemma InStep.sane (h : InStep s u) (hs : Sane s) : Sane u := by
  refine ⟨?_, ?_⟩
  · rw [h.same]
    exact hs.reported
  · rcases h.place with hin | ⟨hcurrent, hrest⟩
    · obtain ⟨ts, after, last, -, hrest, hstops, -⟩ := hin.rest
      cases hstops with
      | last he => simpa [State.Fed, hrest] using he
      | unterminated _ he => simpa [State.Fed, hrest] using he
    · simpa [State.Fed, hrest] using hcurrent

lemma InStep.trails (h : InStep s u) (hend : u.current.kind = .eof ∧ u.rest = []) : Trails s u := by
  have hsame := h.same
  refine ⟨hend.1, hend.2, ?_, ?_, Nat.le_of_eq ?_⟩ <;> rw [hsame]
  · exact h.clean
  · exact h.calm
  · rfl

lemma InStep.previous (h : InStep s u) : u.previous = s.previous := by
  rw [h.same]
  rfl

lemma InStep.scope (h : InStep s u) : u.scope = s.scope := by
  rw [h.same]
  rfl

lemma InStep.panicking (h : InStep s u) : u.panicking = false := by
  rw [h.same]
  exact h.calm

lemma InStep.nesting (h : InStep s u) : u.nesting = s.nesting := by
  rw [h.same]
  rfl

lemma InStep.mendable (h : InStep s u) : u.Mendable := by
  have herrors : u.errors = s.errors := by
    rw [h.same]
    rfl
  intro e he
  simp [herrors, h.clean] at he

lemma InStep.with_nesting (h : InStep s u) {n m : Nat} (hm : m = n) :
    InStep { s with nesting := n } { u with nesting := m } := by
  subst hm
  exact ⟨congrArg (fun u : State => { u with nesting := m }) h.same, h.clean, h.calm,
    h.place.imp_left fun hin => ⟨hin.current, hin.more, hin.rest⟩⟩

lemma Trails.exhausted (h : Trails s u) : Exhausted u :=
  ⟨h.current, h.rest, fun e he => by simp [h.clean] at he⟩

/-- What the second compilation does besides looking at tokens makes no difference here. -/
structure Wrote (n : Nat) (u v : State) : Prop where
  current : v.current = u.current
  rest : v.rest = u.rest
  errors : v.errors = u.errors
  panicking : v.panicking = u.panicking
  codeSize : v.scope.chunk.code.size = u.scope.chunk.code.size + n

lemma Trails.of_wrote {n : Nat} (h : Trails s u) (hv : Wrote n u v)
    (ht : s.scope.chunk.code.size + n ≤ t.scope.chunk.code.size) : Trails t v where
  current := hv.current ▸ h.current
  rest := hv.rest ▸ h.rest
  clean := hv.errors ▸ h.clean
  calm := hv.panicking ▸ h.calm
  codeSize := by
    rw [hv.codeSize]
    exact Nat.le_trans (Nat.add_le_add_right h.codeSize n) ht

/-- If the first compilation completes the step `f` without an error, then the second one completes
`f'` in step with it, or it is stranded; if it `may`, it can also have ended what both compile. -/
def Parallels (may : Prop) (f f' : CompileM α) (s u : State) : Prop :=
  Yields f s fun a t => Lands f' u fun b v => (b = a ∧ InStep t v) ∨ (may ∧ Trails t v) ∨ Stranded v

/-- The same once the beginning has ended. -/
def Lags (may : Prop) (f f' : CompileM α) (s u : State) : Prop :=
  Yields f s fun _ t => Lands f' u fun _ v => (may ∧ Trails t v) ∨ Stranded v

variable {f f' : CompileM α} {g g' : α → CompileM β} {a : α}

namespace Lags

lemma of_strands (hf' : Strands f') (h : Trails s u) : Lags may f f' s u :=
  fun _ _ _ _ _ => (hf' u h.exhausted).mono fun _ _ => .inr

/-- The second compilation writes code that does not exceed a limit if the first one, which writes
as much at least, does not. -/
lemma write {n : Nat} {P : Prop} (h : Trails s u)
    (hf : Yields f s fun _ t => P ∧ s.scope.chunk.code.size + n ≤ t.scope.chunk.code.size)
    (hf' : P → Lands f' u fun _ v => Wrote n u v) : Lags True f f' s u :=
  hf.mono fun _ _ ⟨hP, ht⟩ => (hf' hP).mono fun _ _ hv => .inl ⟨trivial, h.of_wrote hv ht⟩

/-- The second compilation writes nothing, whatever the first one does. -/
lemma still [hsteady : Steady f] (h : Trails s u) (hf' : Lands f' u fun _ v => Wrote 0 u v) :
    Lags True f f' s u :=
  write h (fun _ _ _ hft _ => ⟨trivial, (hsteady.advances hft).codeSize⟩) fun _ => hf'

lemma idle [Steady f] (h : Trails s u) (hf' : Lands f' u fun _ v => v = u) : Lags True f f' s u :=
  still h (hf'.mono fun _ _ hv => hv ▸ ⟨rfl, rfl, rfl, rfl, rfl⟩)

/-- A step that the first compilation cannot complete without an error. -/
lemma absurd (h : Yields f s fun _ _ => False) : Lags may f f' s u :=
  h.mono fun _ _ h => h.elim

lemma bind [Steady f] [∀ a, Steady (g a)] [∀ b, Numb (g' b)] (h : Lags may f f' s u)
    (h' : may → ∀ a t b v, f' u = .ok b v → Trails t v → Lags may' (g a) (g' b) t v) :
    Lags may' (f >>= g) (f' >>= g') s u := by
  refine Yields.bind h fun a t _ hlands => ?_
  cases hrun : f' u with
  | error e v => exact fun _ _ _ _ _ => hlands.abort hrun
  | ok b v =>
    have hrest : Lags may' (g a) (g' b) t v := by
      rcases hlands.ok hrun with ⟨hmay, htrails⟩ | hstranded
      · exact h' hmay a t b v hrun htrails
      · exact fun _ _ _ _ _ => (Numb.spec v hstranded).mono fun _ _ => .inr
    exact hrest.mono fun _ _ => .step hrun

end Lags

namespace Parallels

lemma of_lags (h : Lags may f f' s u) : Parallels may f f' s u :=
  h.mono fun _ _ h => h.mono fun _ _ => .inr

/-- A step that the first compilation cannot complete without an error. -/
lemma absurd (h : Yields f s fun _ _ => False) : Parallels may f f' s u :=
  h.mono fun _ _ h => h.elim

/-- The first compilation is in a state that is sane. -/
lemma of_sane (h : Sane s → Parallels may f f' s u) : Parallels may f f' s u := fun hs => h hs hs

/-- A step of the second compilation that is a fault. -/
lemma of_fault {fault : Fault} (h : f' u = .error (.fault fault) v) : Parallels may f f' s u :=
  fun _ _ _ _ _ => .of_fault h

lemma heedless [Heedless f] [hsteady : Steady f] (h : InStep s u) : Parallels may f f s u := by
  intro hsane a t hft ht
  have hprospect := Heedless.prospect_eq hft
  have hcurrent : t.current = s.current := congrArg Prospect.current hprospect
  have hrest : t.rest = s.rest := congrArg Prospect.rest hprospect
  have hrun := Heedless.apply hft u.prospect
  rw [← h.same] at hrun
  refine .of_ok hrun (.inl ⟨rfl, rfl, ht, (hsane.of_advances (hsteady.advances hft)).calm ht, ?_⟩)
  refine h.place.imp_left fun hin => ⟨?_, hcurrent ▸ hin.more, hrest ▸ hin.rest⟩
  exact hin.current.trans hcurrent.symm

/-- The sequence of two steps, where something is known of the first one. -/
lemma bind_of {P : α → State → Prop} [Steady f] [∀ a, Steady (g a)] [∀ b, Numb (g' b)]
    (h : Parallels may f f' s u) (hP : Yields f s P)
    (hstep : ∀ a t v, P a t → InStep t v → Parallels may' (g a) (g' a) t v)
    (htrails : may → ∀ a t b v, P a t → f' u = .ok b v → Trails t v →
      Lags may' (g a) (g' b) t v) : Parallels may' (f >>= g) (f' >>= g') s u := by
  have hboth : Yields f s fun a t => P a t ∧ Lands f' u fun b v =>
      (b = a ∧ InStep t v) ∨ (may ∧ Trails t v) ∨ Stranded v :=
    fun hs a t hft ht => ⟨hP hs a t hft ht, h hs a t hft ht⟩
  refine Yields.bind hboth fun a t _ ⟨hPt, hlands⟩ => ?_
  cases hrun : f' u with
  | error e v => exact fun _ _ _ _ _ => hlands.abort hrun
  | ok b v =>
    have hrest : Parallels may' (g a) (g' b) t v := by
      rcases hlands.ok hrun with ⟨rfl, hin⟩ | ⟨hmay, hend⟩ | hstranded
      · exact hstep b t v hPt hin
      · exact .of_lags (htrails hmay a t b v hPt hrun hend)
      · exact fun _ _ _ _ _ => (Numb.spec v hstranded).mono fun _ _ h => .inr (.inr h)
    exact hrest.mono fun _ _ => .step hrun

lemma bind [Steady f] [∀ a, Steady (g a)] [∀ b, Numb (g' b)] (h : Parallels may f f' s u)
    (hstep : ∀ a t v, InStep t v → Parallels may' (g a) (g' a) t v)
    (htrails : may → ∀ a t b v, f' u = .ok b v → Trails t v → Lags may' (g a) (g' b) t v) :
    Parallels may' (f >>= g) (f' >>= g') s u :=
  h.bind_of (P := fun _ _ => True) (fun _ _ _ _ _ => trivial) (fun a t v _ => hstep a t v)
    fun hmay a t b v _ => htrails hmay a t b v

/-- After a step that does not end what is compiled. -/
lemma after_of {P : α → State → Prop} [Steady f] [∀ a, Steady (g a)] [∀ b, Numb (g' b)]
    (h : Parallels False f f' s u) (hP : Yields f s P)
    (hstep : ∀ a t v, P a t → InStep t v → Parallels may (g a) (g' a) t v) :
    Parallels may (f >>= g) (f' >>= g') s u :=
  h.bind_of hP hstep False.elim

lemma after [Steady f] [∀ a, Steady (g a)] [∀ b, Numb (g' b)] (h : Parallels False f f' s u)
    (hstep : ∀ a t v, InStep t v → Parallels may (g a) (g' a) t v) :
    Parallels may (f >>= g) (f' >>= g') s u :=
  h.bind hstep False.elim

/-- A step after which something has to follow. -/
lemma before [Steady f] [∀ a, Steady (g a)] [∀ b, Numb (g' b)] (h : Parallels may f f' s u)
    (hstep : ∀ a t v, InStep t v → Parallels may' (g a) (g' a) t v) (hg : ∀ b, Strands (g' b)) :
    Parallels may' (f >>= g) (f' >>= g') s u :=
  h.bind hstep fun _ _ _ b _ _ => .of_strands (hg b)

/-- A heedless first step. -/
lemma heed [Heedless f] [Steady f] [∀ a, Steady (g a)] [∀ b, Numb (g' b)] (h : InStep s u)
    (hstep : ∀ a t v, InStep t v → Parallels may (g a) (g' a) t v) :
    Parallels may (f >>= g) (f >>= g') s u :=
  after (heedless h) hstep

/-- The same with a step whose result is known. -/
lemma emit [Heedless f] [Steady f] [∀ a, Steady (g a)] [∀ b, Numb (g' b)] (h : InStep s u)
    (hf : f s = .ok a t) (hstep : ∀ v, InStep t v → Parallels may (g a) (g' a) t v) :
    Parallels may (f >>= g) (f >>= g') s u := by
  refine after_of (P := fun b t' => b = a ∧ t' = t) (heedless h) (.of_ok hf ⟨rfl, rfl⟩) ?_
  rintro _ _ v ⟨rfl, rfl⟩ hv
  exact hstep v hv

/-- A look at the state. -/
lemma look {b : α} (hf : f s = .ok a s) (hf' : f' u = .ok b u) (h : Parallels may (g a) (g' b) s u) :
    Parallels may (f >>= g) (f' >>= g') s u := by
  intro hs c t hrun ht
  rw [bind_apply, hf] at hrun
  exact .step hf' (h hs c t hrun ht)

lemma ite {c : Prop} [Decidable c] {f₁ f₂ f₁' f₂' : CompileM α} (h₁ : c → Parallels may f₁ f₁' s u)
    (h₂ : ¬ c → Parallels may f₂ f₂' s u) :
    Parallels may (if c then f₁ else f₂) (if c then f₁' else f₂') s u := by
  split
  · exact h₁ ‹_›
  · exact h₂ ‹_›

lemma nested {f f' : CompileM Unit} (hu : InStep s u)
    (h : InStep { s with nesting := s.nesting + 1 } { u with nesting := u.nesting + 1 } →
      Parallels may f f' { s with nesting := s.nesting + 1 } { u with nesting := u.nesting + 1 }) :
    Parallels may (nested f) (nested f') s u := by
  refine Yields.nested fun _ => ?_
  have hdeeper := hu.with_nesting (congrArg (· + 1) hu.nesting)
  refine Yields.mono (h hdeeper) fun a t hlands => .nested hu.mendable (hlands.mono fun b v hv => ?_)
  rcases hv with ⟨hb, hin⟩ | ⟨hmay, hend⟩ | hstranded
  · exact .inl ⟨hb, hin.with_nesting (congrArg (· - 1) hin.nesting)⟩
  · exact .inr (.inl ⟨hmay, hend.current, hend.rest, hend.clean, hend.calm, hend.codeSize⟩)
  · exact .inr (.inr ⟨⟨hstranded.exhausted.current, hstranded.exhausted.rest,
      hstranded.exhausted.mendable⟩, hstranded.panicking⟩)

end Parallels

/-! ## Tokens -/

/-- An unclosed string is reported where it begins, and then there is nothing left. -/
lemma stranded_advance {t e : Token} (hu : u.errors.toList = []) (hcalm : u.panicking = false)
    (hrest : u.rest = [t, e]) (ht : t.kind = .error .unterminatedString) (he : e.kind = .eof) :
    Stranded u.advance := by
  have hshift : u.advance = { ({ u with previous := u.current, current := t } : State).report t
      (.lexical .unterminatedString) with current := e, rest := [] } := by
    rw [State.advance, hrest, State.shift]
    simp only [ht]
    rw [State.shift]
    simp only [he]
  rw [hshift, State.report, if_neg (by simp [hcalm])]
  refine ⟨⟨he, rfl, fun e he => ?_⟩, rfl⟩
  rw [Array.toList_push, hu, List.nil_append, List.mem_singleton] at he
  rw [he]
  exact .inr rfl

/-- Both compilations consume the same token. -/
lemma parallels_advance_facing {p : Prospect} {ts after last : List Token}
    (hclean : s.errors.toList = []) (hcalm : s.panicking = false) (hcurrent : p.current = s.current)
    (hrest : s.rest = ts ++ after) (hrest' : p.rest = ts ++ last) (hstops : BreaksOff last)
    (hmore : ∀ t ∈ ts, t.kind ≠ .eof) : Parallels may advance advance s (s.facing p) := by
  intro hsane _ t hrun ht
  cases hrun
  have hcalm' := (hsane.of_advances (advances_advance s)).calm ht
  refine .of_ok (advance_apply _) ?_
  cases ts with
  | cons t ts =>
    -- Both compilations come to the same token.
    have hkind : ∀ why, t.kind ≠ .error why := fun why hwhy =>
      shift_error_ne_nil hsane hrest hwhy ht
    have hleft := advance_of_rest hrest hkind
    have hright := advance_of_rest (s := s.facing p) hrest' hkind
    refine .inl ⟨rfl, ?_, ht, hcalm', .inl ⟨?_, ?_, ts, after, last, ?_, ?_, hstops, ?_⟩⟩
    · rw [hleft, hright]
      exact congrArg (fun c => { s.facing p with previous := c, current := t, rest := ts ++ last })
        hcurrent
    · rw [hleft, hright]
    · rw [hleft]
      exact hmore t List.mem_cons_self
    · rw [hleft]
      rfl
    · rw [hright]
      rfl
    · exact fun t ht => hmore t (List.mem_cons_of_mem _ ht)
  | nil =>
    cases hstops with
    | @last e he =>
      have hright := advance_of_rest (s := s.facing p) hrest' (by simp [he])
      have herrors : s.advance.errors = s.errors := Array.toList_inj.1 (ht.trans hclean.symm)
      have hleft := (shifts_shift s.rest { s with previous := s.current }).frame
      change s.advance = { s with
        previous := s.current
        current := s.advance.current
        rest := s.advance.rest
        panicking := s.advance.panicking
        errors := s.advance.errors } at hleft
      rw [herrors, hcalm', ← hcalm] at hleft
      refine .inl ⟨rfl, ?_, ht, hcalm', .inr ⟨?_, ?_⟩⟩
      · rw [hleft, hright]
        exact congrArg (fun c => { s.facing p with previous := c, current := e, rest := [] }) hcurrent
      · rw [hright]
        exact he
      · rw [hright]
    | unterminated hkind he =>
      exact .inr (.inr (stranded_advance hclean hcalm hrest' hkind he))

lemma parallels_advance (h : InStep s u) (hin : Inside s u) : Parallels may advance advance s u := by
  obtain ⟨ts, after, last, hrest, hrest', hstops, hmore⟩ := hin.rest
  rw [h.same]
  exact parallels_advance_facing h.clean h.calm hin.current hrest hrest' hstops hmore

lemma parallels_consume {k : Token.Kind} (hk : k ≠ .eof) (w : Expected) (h : InStep s u) :
    Parallels may (consume k w) (consume k w) s u := by
  rcases h.place with hin | hend
  · intro hsane a t hrun ht
    rw [consume_apply] at hrun
    split at hrun
    · rename_i hkind
      cases hrun
      refine .congr ?_ (parallels_advance h hin hsane () _ rfl ht)
      rw [consume_apply, if_pos (hin.current ▸ hkind)]
      rfl
    · cases hrun
      exact absurd ht (hsane.report_errors_ne_nil _ _)
  · exact .of_lags (.of_strands (strands_consume hk w) (h.trails hend))

namespace Parallels

/-- A token that has to be there. -/
lemma consume {k : Token.Kind} (hk : k ≠ .eof) (w : Expected) {g g' : Unit → CompileM β}
    [∀ a, Steady (g a)] [∀ b, Numb (g' b)] (h : InStep s u)
    (hstep : ∀ t v, t.context = s.context → InStep t v → Parallels may (g ()) (g' ()) t v) :
    Parallels may (consume k w >>= g) (consume k w >>= g') s u :=
  after_of (P := fun _ t => t.context = s.context) (parallels_consume hk w h)
    ((yields_consume hk w s).mono fun _ _ ht => ht.2.context) fun _ => hstep

/-- A look at the next token.  The second compilation finds nothing at the end. -/
lemma check {k : Token.Kind} (hk : k ≠ .eof) {g g' : Bool → CompileM β} (h : InStep s u)
    (hin : ∀ b, b = decide (s.current.kind = k) → Inside s u → Parallels may (g b) (g' b) s u)
    (hend : Trails s u → Lags may (g (decide (s.current.kind = k))) (g' false) s u) :
    Parallels may (check k >>= g) (check k >>= g') s u := by
  intro hsane a t hrun ht
  have hrun' : g (decide (s.current.kind = k)) s = .ok a t := hrun
  refine .step (check_apply k u) ?_
  rcases h.place with hinside | hover
  · rw [hinside.current]
    exact hin _ rfl hinside hsane a t hrun' ht
  · have hno : decide (u.current.kind = k) = false := by
      rw [hover.1]
      exact decide_eq_false hk.symm
    rw [hno]
    exact of_lags (hend (h.trails hover)) hsane a t hrun' ht

/-- A token at which the first compilation would fail. -/
lemma decline {k : Token.Kind} {g g' : Bool → CompileM β} (hin : Inside s u)
    (htrue : s.current.kind = k → Yields (Compiler.accept k >>= g) s fun _ _ => False)
    (hfalse : Parallels may (g false) (g' false) s u) :
    Parallels may (Compiler.accept k >>= g) (Compiler.accept k >>= g') s u := by
  by_cases hkind : s.current.kind = k
  · exact .absurd (htrue hkind)
  · have hfirst : Compiler.accept k s = .ok false s := by rw [accept_apply, if_neg hkind]
    intro hsane a t hrun ht
    rw [bind_apply, hfirst] at hrun
    refine .step ?_ (hfalse hsane a t hrun ht)
    rw [accept_apply, if_neg (hin.current ▸ hkind)]

/-- A token that may be there, where the beginning has not ended. -/
lemma accept_inside {k : Token.Kind} {g g' : Bool → CompileM β} [∀ b, Steady (g b)] [Numb (g' true)]
    (h : InStep s u) (hin : Inside s u)
    (htrue : ∀ t v, t.context = s.context → InStep t v → Parallels may (g true) (g' true) t v)
    (hfalse : Parallels may (g false) (g' false) s u) :
    Parallels may (Compiler.accept k >>= g) (Compiler.accept k >>= g') s u := by
  by_cases hkind : s.current.kind = k
  · intro hsane a t hrun ht
    have hrest : Parallels may (advance >>= fun _ => g true) (advance >>= fun _ => g' true) s u :=
      after_of (P := fun _ t => t.context = s.context) (parallels_advance h hin)
        ((yields_advance s).mono fun _ t ht => (ht.2 hin.more).context) fun _ => htrue
    have hfirst : Compiler.accept k s = .ok true s.advance := by rw [accept_apply, if_pos hkind]
    have hfirst' : Compiler.accept k u = .ok true u.advance := by
      rw [accept_apply, if_pos (hin.current ▸ hkind)]
    rw [bind_apply, hfirst] at hrun
    refine .congr ?_ (hrest hsane a t hrun ht)
    rw [bind_apply, hfirst']
    rfl
  · exact decline hin (fun h => (hkind h).elim) hfalse

/-- A token that may be there. -/
lemma accept {k : Token.Kind} (hk : k ≠ .eof) {g g' : Bool → CompileM β} [∀ b, Steady (g b)]
    [Numb (g' true)] (h : InStep s u)
    (htrue : ∀ t v, t.context = s.context → InStep t v → Parallels may (g true) (g' true) t v)
    (hfalse : Inside s u → Parallels may (g false) (g' false) s u)
    (hend : Trails s u → Lags may (Compiler.accept k >>= g) (g' false) s u) :
    Parallels may (Compiler.accept k >>= g) (Compiler.accept k >>= g') s u := by
  rcases h.place with hin | hover
  · exact accept_inside h hin htrue (hfalse hin)
  · exact of_lags ((hend (h.trails hover)).mono fun _ _ => .step (accept_of_end hk hover.1))

end Parallels

/-! ## Code -/

lemma Wrote.trans {n m : Nat} {w : State} (h : Wrote n u v) (h' : Wrote m v w) : Wrote (n + m) u w :=
  ⟨h'.current.trans h.current, h'.rest.trans h.rest, h'.errors.trans h.errors,
    h'.panicking.trans h.panicking, by rw [h'.codeSize, h.codeSize, Nat.add_assoc]⟩

lemma wrote_mapChunk {f : Chunk → Chunk} {n : Nat}
    (h : (f u.scope.chunk).code.size = u.scope.chunk.code.size + n) : Wrote n u (u.mapChunk f) :=
  ⟨rfl, rfl, rfl, rfl, h⟩

lemma exists_emitOpAt (op : Opcode) (line : UInt32) (u : State) :
    ∃ v, emitOpAt op line u = .ok () v ∧ Wrote 1 u v ∧ v.context = u.context :=
  ⟨_, modifyChunk_apply _ u, wrote_mapChunk (by simp [Chunk.writeOp, Chunk.write]), rfl⟩

lemma exists_emitOp (op : Opcode) (u : State) :
    ∃ v, emitOp op u = .ok () v ∧ Wrote 1 u v ∧ v.context = u.context :=
  exists_emitOpAt op u.previous.line u

lemma exists_emitShort (n : Nat) (u : State) :
    ∃ v, emitShort n u = .ok () v ∧ Wrote 2 u v ∧ v.context = u.context := by
  have hbyte : ∀ (b : UInt8) (u : State), ∃ v, emitByte b u = .ok () v ∧ Wrote 1 u v ∧
      v.context = u.context := fun b u =>
    ⟨_, emitByte_apply b u, wrote_mapChunk (by simp [Chunk.write]), rfl⟩
  obtain ⟨v, hv, hw, hcontext⟩ := hbyte (Chunk.highByte n) u
  obtain ⟨v', hv', hw', hcontext'⟩ := hbyte (Chunk.lowByte n) v
  refine ⟨v', ?_, hw.trans hw', hcontext'.trans hcontext⟩
  rw [emitShort, bind_apply, hv]
  exact hv'

lemma exists_emitOpShort (op : Opcode) (n : Nat) (u : State) :
    ∃ v, emitOpShort op n u = .ok () v ∧ Wrote 3 u v ∧ v.context = u.context := by
  obtain ⟨v, hv, hw, hcontext⟩ := exists_emitOp op u
  obtain ⟨v', hv', hw', hcontext'⟩ := exists_emitShort n v
  refine ⟨v', ?_, hw.trans hw', hcontext'.trans hcontext⟩
  rw [emitOpShort, bind_apply, hv]
  exact hv'

lemma exists_emitJump (op : Opcode) (hop : op.operandWidth = 2) (u : State) :
    ∃ v, emitJump op u = .ok (u.scope.chunk.code.size + 1) v ∧ Wrote 3 u v ∧
      v.context = u.context :=
  ⟨_, emitJump_apply op u hop, wrote_mapChunk (by simp [Instruction.size, Opcode.size, hop]), rfl⟩

/-- One instruction for each local that leaves the block. -/
lemma exists_endScope (u : State) :
    ∃ v, endScope u = .ok () v ∧ Wrote u.context.leaving.length u v := by
  have hdrops : ∀ (ls : List Local) (u : State), ∃ v, emitDrops ls u = .ok () v ∧
      Wrote ls.length u v := by
    intro ls
    induction ls with
    | nil => exact fun u => ⟨u, rfl, rfl, rfl, rfl, rfl, rfl⟩
    | cons l ls ih =>
      intro u
      obtain ⟨v, hv, hw, -⟩ := exists_emitOp (if l.captured then .closeUpvalue else .pop) u
      obtain ⟨w, hw', hrest⟩ := ih v
      refine ⟨w, ?_, ?_⟩
      · rw [emitDrops, bind_apply, hv]
        exact hw'
      · rw [List.length_cons, Nat.add_comm]
        exact hw.trans hrest
  obtain ⟨v, hv, hw⟩ := hdrops (u.scope.locals.span (Local.inBlock u.scope.depth)).1 { u with
    scope := { u.scope with
      depth := u.scope.depth - 1
      locals := (u.scope.locals.span (Local.inBlock u.scope.depth)).2 } }
  exact ⟨v, (endScope_apply u).trans hv, hw.current, hw.rest, hw.errors, hw.panicking, hw.codeSize⟩

lemma yields_patchJump_fits (offset : Nat) (s : State) :
    Yields (patchJump offset) s fun _ t =>
      s.scope.chunk.code.size - offset - 2 ≤ Chunk.maxShort ∧ Wrote 0 s t ∧ t.context = s.context := by
  intro hsane a t h ht
  rw [patchJump_apply, Chunk.jumpDistance] at h
  by_cases houtside : s.scope.chunk.code.size < offset + 2
  · rw [if_pos houtside] at h
    cases h
  · rw [if_neg houtside] at h
    by_cases hfar : Chunk.maxShort < s.scope.chunk.code.size - offset - 2
    · simp only [hfar, if_true] at h
      cases h
      exact absurd ht (hsane.report_errors_ne_nil _ _)
    · simp only [hfar, if_false] at h
      cases h
      exact ⟨Nat.le_of_not_lt hfar, wrote_mapChunk (by simp [Chunk.setShort]), rfl⟩

lemma codeSize_of_patchJump {offset : Nat} (h : patchJump offset u = .ok () v) :
    v.scope.chunk.code.size = u.scope.chunk.code.size := by
  rw [patchJump_apply] at h
  split at h
  · cases h
  · cases h
    rw [State.report]
    split <;> rfl
  · cases h
    simp [State.mapChunk, Chunk.setShort]

lemma lands_patchJump {offset : Nat} (h : u.scope.chunk.code.size - offset - 2 ≤ Chunk.maxShort) :
    Lands (patchJump offset) u fun _ v => Wrote 0 u v ∧ v.context = u.context := by
  have hrun := patchJump_apply offset u
  rw [Chunk.jumpDistance] at hrun
  by_cases houtside : u.scope.chunk.code.size < offset + 2
  · rw [if_pos houtside] at hrun
    exact .of_fault hrun
  · rw [if_neg houtside] at hrun
    simp only [Nat.not_lt.2 h, if_false] at hrun
    exact .of_ok hrun ⟨wrote_mapChunk (by simp [Chunk.setShort]), rfl⟩

lemma yields_emitLoop_fits (start : Nat) (s : State) :
    Yields (emitLoop start) s fun _ t => s.scope.chunk.code.size + 1 - start + 2 ≤ Chunk.maxShort ∧
      Wrote 3 s t ∧ t.context = s.context := by
  obtain ⟨t, hop, hw, hcontext⟩ := exists_emitOp .loop s
  refine .step hop fun _ => .step (codeSize_apply t) fun _ => ?_
  rw [hw.codeSize]
  dsimp only
  split
  · exact .error_bind _
  · obtain ⟨v, hshort, hw', hcontext'⟩ :=
      exists_emitShort (s.scope.chunk.code.size + 1 - start + 2) t
    exact .of_ok hshort ⟨Nat.le_of_not_lt ‹_›, hw.trans hw', hcontext'.trans hcontext⟩

lemma lands_emitLoop {start : Nat}
    (h : u.scope.chunk.code.size + 1 - start + 2 ≤ Chunk.maxShort) :
    Lands (emitLoop start) u fun _ v => Wrote 3 u v ∧ v.context = u.context := by
  obtain ⟨v, hop, hw, hcontext⟩ := exists_emitOp .loop u
  refine .step hop (.step (codeSize_apply v) ?_)
  rw [hw.codeSize]
  dsimp only
  rw [if_neg (Nat.not_lt.2 h)]
  obtain ⟨w, hshort, hw', hcontext'⟩ :=
    exists_emitShort (u.scope.chunk.code.size + 1 - start + 2) v
  exact .of_ok hshort ⟨hw.trans hw', hcontext'.trans hcontext⟩

namespace Trails

/-- Both compilations write code of the same size. -/
lemma lags_wrote {n : Nat} {a b : α} {P Q : State → Prop} (h : Trails s u)
    (hf : ∃ t, f s = .ok a t ∧ Wrote n s t ∧ P t) (hf' : ∃ v, f' u = .ok b v ∧ Wrote n u v ∧ Q v) :
    Lags True f f' s u := by
  obtain ⟨t, hft, ht, -⟩ := hf
  obtain ⟨v, hfv, hv, -⟩ := hf'
  exact .write h (P := True) (.of_ok hft ⟨trivial, Nat.le_of_eq ht.codeSize.symm⟩) fun _ =>
    .of_ok hfv hv

lemma lags_patchJump (h : Trails s u) (offset : Nat) :
    Lags True (patchJump offset) (patchJump offset) s u := by
  refine .write h ((yields_patchJump_fits offset s).mono fun _ t ⟨hfits, hw, _⟩ =>
    ⟨hfits, Nat.le_of_eq hw.codeSize.symm⟩) fun hfits => ?_
  have hsize := h.codeSize
  exact (lands_patchJump (by omega)).mono fun _ _ => And.left

lemma lags_emitLoop (h : Trails s u) (start : Nat) :
    Lags True (emitLoop start) (emitLoop start) s u := by
  refine .write h ((yields_emitLoop_fits start s).mono fun _ t ⟨hfits, hw, _⟩ =>
    ⟨hfits, Nat.le_of_eq hw.codeSize.symm⟩) fun hfits => ?_
  have hsize := h.codeSize
  exact (lands_emitLoop (by omega)).mono fun _ _ => And.left

end Trails

end Parallels

/-! ## Expressions -/

section Expressions

variable {s u : State} {may : Prop} {fuel fuel' bound' : Nat}

/-- The expressions inside are compiled alike, but the second compilation may end one before the
first does. -/
def ParallelsExprs (fuel fuel' : Nat) : Prop :=
  ∀ p s u, InStep s u →
    Parallels True (parse fuel (.expression p)) (parse fuel' (.expression p)) s u

variable (hparse : ParallelsExprs fuel fuel')

include hparse

lemma parallels_expression (h : InStep s u) :
    Parallels True (expression (parse fuel)) (expression (parse fuel')) s u :=
  hparse .assignment s u h

lemma parallels_compileVariable (canAssign : Bool) (h : InStep s u) :
    Parallels True (compileVariable (parse fuel) canAssign) (compileVariable (parse fuel') canAssign)
      s u := by
  refine .look (get_apply s) (get_apply u) ?_
  rw [h.previous]
  refine .heed h fun a t v hv => .check (by simp) hv (fun b _ hin => ?_) fun hend => ?_
  · refine .ite (fun _ => .after (parallels_advance hv hin) fun _ t v hv => ?_) fun _ => .heedless hv
    exact (parallels_expression hparse hv).bind (fun _ _ _ hv => .heedless hv) fun _ _ t _ v _ hend =>
      hend.lags_wrote (exists_emitOpShort _ _ t) (exists_emitOpShort _ _ v)
  · -- The variable is read at the end, and may be assigned where the source goes on.
    simp only [Bool.and_false, Bool.false_eq_true, if_false]
    obtain ⟨w, hw, hwrote, -⟩ := exists_emitOpShort a.read a.operand v
    refine .write (n := 3) (P := True) hend ?_ fun _ => .of_ok hw hwrote
    split
    · refine .skip fun _ t₁ h₁ => .skip fun _ t₂ h₂ => ?_
      obtain ⟨t₃, ht₃, h₃, -⟩ := exists_emitOpShort a.write a.operand t₂
      refine .of_ok ht₃ ⟨trivial, ?_⟩
      rw [h₃.codeSize]
      exact Nat.add_le_add_right (h₁.trans h₂).codeSize 3
    · obtain ⟨t₁, ht₁, h₁, -⟩ := exists_emitOpShort a.read a.operand t
      exact .of_ok ht₁ ⟨trivial, Nat.le_of_eq h₁.codeSize.symm⟩

lemma parallels_compileOpening (canAssign : Bool) (o : Opening) (h : InStep s u) :
    Parallels True (compileOpening (parse fuel) canAssign o) (compileOpening (parse fuel') canAssign o)
      s u := by
  cases o with
  | grouping =>
    exact (parallels_expression hparse h).before (fun _ _ _ hv => parallels_consume (by simp) _ hv)
      fun _ => strands_consume (by simp) _
  | unary op =>
    refine .heed h fun line t v hv => (hparse _ t v hv).bind (fun _ _ _ hv => .heedless hv) ?_
    exact fun _ _ t _ v _ hend => hend.lags_wrote (exists_emitOpAt _ _ t) (exists_emitOpAt _ _ v)
  | «variable» => exact parallels_compileVariable hparse canAssign h
  | string => exact .heedless (f := compileString) h
  | number => exact .heedless (f := compileNumber) h
  | literal op => exact .heedless (f := emitOp op) h
  | unsupported what => exact .absurd (.error _ _)

/-- The arguments of a call from the `count`-th on. -/
lemma parallels_compileArguments (bound bound' count : Nat) (h : InStep s u) :
    Parallels True (compileArguments (parse fuel) bound count)
      (compileArguments (parse fuel') bound' count) s u := by
  induction bound generalizing bound' count s u with
  | zero => exact .absurd fun _ _ _ h => nomatch h
  | succ bound ih =>
    cases bound' with
    | zero => exact .of_fault rfl
    | succ bound' =>
      simp only [compileArguments]
      refine (parallels_expression hparse h).bind (fun _ t v hv => ?_) fun _ _ t _ v _ hend => ?_
      · refine .ite (fun _ => .absurd (.error_bind _)) fun _ => ?_
        refine .accept (by simp) hv (fun t v _ hv => ih bound' (count + 1) hv)
          (fun _ => .heedless (f := pure (count + 1)) hv) fun hend => ?_
        exact .idle hend (.of_ok (pure_apply (count + 1) v) rfl)
      · by_cases hfull : count = maxArguments
        · simp only [hfull, if_true]
          exact .absurd (.error_bind _)
        · simp only [hfull, if_false]
          exact .idle hend (.step (accept_of_end (by simp) hend.current)
            (.of_ok (pure_apply (count + 1) v) rfl))

lemma parallels_compileCall (bound bound' : Nat) (h : InStep s u) :
    Parallels may (compileCall bound (parse fuel)) (compileCall bound' (parse fuel')) s u := by
  have hend : ∀ (line : UInt32) (count : Nat) (t v : State), InStep t v → Parallels may
      (consume .rightParen .parenAfterArguments >>= fun _ => emitOpAt .call line >>= fun _ =>
        emitByte (min count maxArguments).toUInt8)
      (consume .rightParen .parenAfterArguments >>= fun _ => emitOpAt .call line >>= fun _ =>
        emitByte (min count maxArguments).toUInt8) t v := fun line count t v hv =>
    .after (parallels_consume (by simp) _ hv) fun _ _ _ hv => .heedless hv
  simp only [compileCall]
  refine .heed h fun line t v hv => .check (by simp) hv (fun b _ _ => ?_) fun hover => ?_
  · refine .ite (fun _ => hend line 0 t v hv) fun _ => ?_
    exact (parallels_compileArguments hparse bound bound' 0 hv).before (fun n _ _ hv => hend line n _ _ hv)
      fun n => .bind (strands_consume (by simp) _)
  · exact .of_strands (.bind (strands_compileArguments fuel' bound' 0)) hover

lemma parallels_compileContinuation (bound bound' : Nat) (c : Continuation) (h : InStep s u) :
    Parallels True (compileContinuation bound (parse fuel) c)
      (compileContinuation bound' (parse fuel') c) s u := by
  cases c with
  | binary op p =>
    refine .heed h fun line t v hv => (hparse _ t v hv).bind (fun _ _ _ hv => .heedless hv) ?_
    exact fun _ _ t _ v _ hend => hend.lags_wrote (exists_emitOpAt _ _ t) (exists_emitOpAt _ _ v)
  | and =>
    refine .heed h fun end_ t v hv => .heed hv fun _ t v hv => ?_
    exact (hparse _ t v hv).bind (fun _ _ _ hv => .heedless hv) fun _ _ _ _ _ _ hend =>
      hend.lags_patchJump end_
  | or =>
    refine .heed h fun else_ t v hv => .heed hv fun end_ t v hv => .heed hv fun _ t v hv =>
      .heed hv fun _ t v hv => ?_
    exact (hparse _ t v hv).bind (fun _ _ _ hv => .heedless hv) fun _ _ _ _ _ _ hend =>
      hend.lags_patchJump end_
  | call => exact parallels_compileCall hparse bound bound' h
  | unsupported what => exact .absurd (.error _ _)

lemma parallels_continueExpression (bound bound' : Nat) (p : Precedence) (h : InStep s u)
    (hin : Inside s u) :
    Parallels True (continueExpression bound (parse fuel) p) (continueExpression bound' (parse fuel') p)
      s u := by
  refine .look (currentKind_apply s) (currentKind_apply u) ?_
  rw [hin.current]
  cases s.current.kind.continuation? with
  | none => exact .heedless (f := pure false) h
  | some c =>
    refine .ite (fun _ => ?_) fun _ => .heedless (f := pure false) h
    refine .after (parallels_advance h hin) fun _ t v hv => ?_
    refine (parallels_compileContinuation hparse bound bound' c hv).bind (fun _ _ _ hv => .heedless hv) ?_
    exact fun _ _ t _ v _ hend => .idle hend (.of_ok (pure_apply true v) rfl)

omit hparse in
/-- The end of the source does not continue an expression. -/
lemma lands_loop_continueExpression (bound : Nat) (p : Precedence) (hu : u.current.kind = .eof) :
    Lands (loop bound (continueExpression bound' (parse fuel') p)) u fun _ v => v = u := by
  cases bound with
  | zero => exact .of_fault rfl
  | succ bound =>
    refine .step (a := false) (t := u) ?_ (.of_ok (pure_apply () u) rfl)
    rw [continueExpression, bind_apply, currentKind_apply, hu]
    rfl

lemma parallels_loop_continueExpression (bound bound' rounds rounds' : Nat) (p : Precedence)
    (h : InStep s u) :
    Parallels True (loop rounds (continueExpression bound (parse fuel) p))
      (loop rounds' (continueExpression bound' (parse fuel') p)) s u := by
  induction rounds generalizing rounds' s u with
  | zero => exact .absurd fun _ _ _ h => nomatch h
  | succ rounds ih =>
    rcases h.place with hin | hover
    · cases rounds' with
      | zero => exact .of_fault rfl
      | succ rounds' =>
        refine (parallels_continueExpression hparse bound bound' p h hin).bind (fun b t v hv => ?_) ?_
        · exact .ite (fun _ => ih rounds' hv) fun _ => .heedless hv
        · refine fun _ b t b' v _ hend => .idle hend ?_
          split
          · exact lands_loop_continueExpression rounds' p hend.current
          · exact .of_ok (pure_apply () v) rfl
    · exact .of_lags (.idle (h.trails hover) (lands_loop_continueExpression rounds' p hover.1))

lemma parallels_compileExpression (bound bound' : Nat) (p : Precedence) (h : InStep s u) :
    Parallels True (compileExpression bound (parse fuel) p) (compileExpression bound' (parse fuel') p)
      s u := by
  rcases h.place with hin | hover
  swap
  · exact .of_lags (.of_strands (strands_compileExpression bound' (parse fuel') p) (h.trails hover))
  have hsteady := steady_opened fuel bound p
  have hnumb : ∀ s, Numb _ := maintains_opened bound' (parse fuel') p
  refine .nested h fun hdeeper =>
    .after (parallels_advance hdeeper ⟨hin.current, hin.more, hin.rest⟩) fun _ t v hv => ?_
  refine .look (get_apply t) (get_apply v) ?_
  rw [hv.previous]
  cases t.previous.kind.opening? with
  | none => exact .absurd (.error _ _)
  | some opening =>
    -- When an operand has ended the source, nothing is left to do.
    have htarget : ∀ v : State, v.current.kind = .eof → Lands (if p = .assignment then do
        if ← accept .equal then
          error .invalidAssignmentTarget
      else pure ()) v fun _ v' => v' = v := by
      intro v hv
      split
      · exact .step (accept_of_end (by simp) hv) (.of_ok (pure_apply () v) rfl)
      · exact .of_ok (pure_apply () v) rfl
    refine (parallels_compileOpening hparse _ opening hv).bind (fun _ t v hv => ?_) fun _ _ t _ v _ hv =>
      .idle hv ((lands_loop_continueExpression bound' p hv.current).bind fun _ w _ hw =>
        hw ▸ htarget v hv.current)
    refine (parallels_loop_continueExpression hparse bound bound' bound bound' p hv).bind
      (fun _ t v hv => ?_) fun _ _ t _ v _ hv => .idle hv (htarget v hv.current)
    refine .ite (fun _ => ?_) fun _ => .heedless hv
    exact .accept (by simp) hv (fun _ _ _ _ => .absurd (.error _ _))
      (fun _ => .heedless (f := pure ()) hv) fun hend => .idle hend (.of_ok (pure_apply () v) rfl)

omit hparse in
/-- Every expression is compiled alike, but the second compilation may end it earlier. -/
theorem parallelsExprs (fuel fuel' : Nat) : ParallelsExprs fuel fuel' := by
  induction fuel generalizing fuel' with
  | zero => exact fun _ _ _ _ => .absurd fun _ _ _ h => nomatch h
  | succ fuel ih =>
    cases fuel' with
    | zero => exact fun _ _ _ _ => .of_fault rfl
    | succ fuel' => exact fun p s u h => parallels_compileExpression (ih fuel') fuel fuel' p h

end Expressions

end Lox.Compiler
