import Lox.Proofs.Compiler.Charts
import Lox.Proofs.Compiler.Relocation
import Lox.Proofs.Grammar.Unambiguity
import Lox.Proofs.Lexer.Extension

/-!
# The script of a concatenation

A source that is accepted can be followed by a line feed and another one.  If the whole is accepted,
its tree is the one tree followed by the other (`eq_followedBy`), and its code is the code of the one
followed by the code of the other, each of them the same as when it is compiled alone
(`compile_followed`).

That the second source begins at another position shows in its tokens, but not in their kinds and
spellings (`Cursor.Lexes.bare`), on which the tree depends alone.  And what the first source leaves
behind in the compiler is nothing but pools, since at the top level there are no locals.
-/

namespace Lox

/-! ## Tokens at another position -/

/-- A token without its position. -/
def Token.bare (t : Token) : Token :=
  { t with line := 0, column := 0, start := 0, stop := 0 }

lemma Token.kind_eq_of_bare {t u : Token} (h : t.bare = u.bare) : t.kind = u.kind :=
  (Token.mk.injEq .. ▸ h).1

namespace Cursor

lemma rest_skipTriviaFrom (inComment : Bool) (t : Text) (p q : Position) :
    (skipTriviaFrom inComment t p).rest = (skipTriviaFrom inComment t q).rest := by
  induction t generalizing inComment p q with
  | nil => cases inComment <;> rfl
  | cons b bs ih =>
    cases inComment with
    | true => exact ih _ _ _
    | false =>
      rw [skipTriviaFrom, skipTriviaFrom]
      split
      · exact ih _ _ _
      · split
        · exact ih _ _ _
        · rfl

/-- Where a cursor is does not matter for the token and for what is left. -/
lemma next_bare {c d : Cursor} (h : d.rest = c.rest) :
    d.next.1.bare = c.next.1.bare ∧ d.next.2.rest = c.next.2.rest := by
  have hskip : d.skipTrivia.rest = c.skipTrivia.rest := by
    rw [skipTrivia, skipTrivia, h]
    exact rest_skipTriviaFrom _ _ _ _
  cases hrest : c.skipTrivia.rest with
  | nil =>
    rw [(next_of_nil hrest).2, (next_of_nil (hskip.trans hrest)).2]
    refine ⟨?_, hskip⟩
    rw [next, next]
    dsimp only
    rw [hskip, hrest]
    rfl
  | cons b bs =>
    rw [next_of_cons hrest, next_of_cons (hskip.trans hrest)]
    exact ⟨rfl, rfl⟩

lemma Lexes.bare {c d : Cursor} {ts us : List Token} (h : c.Lexes ts) (h' : d.Lexes us)
    (hrest : d.rest = c.rest) : us.map Token.bare = ts.map Token.bare := by
  induction h generalizing d us with
  | @last c hend =>
    obtain ⟨hnext, -⟩ := next_bare hrest
    have hkind := Token.kind_eq_of_bare hnext
    cases h' with
    | last => exact congrArg (fun t => [t]) hnext
    | cons hmore => exact absurd (hkind.trans hend) hmore
  | @cons c ts hmore _ ih =>
    obtain ⟨hnext, hrest'⟩ := next_bare hrest
    have hkind := Token.kind_eq_of_bare hnext
    cases h' with
    | last hend => exact absurd (hkind.symm.trans hend) hmore
    | cons _ hus =>
      rw [List.map_cons, List.map_cons, hnext, ih hus hrest']

end Cursor

/-- The tokens of a source that goes on after a line feed are those of its two parts. -/
lemma tokenize_concatenation {source more : Text} {body body' whole : List Token} {last last' end_ : Token}
    (h : tokenize source = body ++ [last]) (h' : tokenize more = body' ++ [last'])
    (hwhole : tokenize (source ++ Text.newline :: more) = whole ++ [end_])
    (hbody : ∀ t ∈ body, t.kind ≠ .error .unterminatedString) :
    whole.map Token.bare = body.map Token.bare ++ body'.map Token.bare := by
  obtain ⟨p, hfollowed⟩ := tokenize_followed h hbody
  obtain ⟨us, -, hus⟩ := Cursor.exists_lexes _ ⟨more, p⟩ [] (Nat.le_refl _)
  have hmore := Cursor.Lexes.bare (lexes_tokenize more) hus rfl
  rw [h'] at hmore
  have hsame := congrArg (List.map Token.bare) (hwhole.symm.trans (hfollowed more us hus))
  rw [List.map_append, List.map_append, hmore, List.map_append, ← List.append_assoc] at hsame
  exact (List.append_inj' hsame rfl).1

/-! ## Trees -/

open Token (bare)

lemma Expr.Derives.map_bare {nt : Nonterminal} {es : List Expr} {ts : List Token}
    (h : Derives nt es ts) : Derives nt es (ts.map bare) := by
  induction h with
  | tighter _ ih => exact .tighter ih
  | @assign name equal e ts hname hequal _ ih =>
    exact @Expr.Derives.assign name.bare equal.bare _ _ hname hequal ih
  | @or op l r ts us hop _ _ ih ih' =>
    rw [List.map_append]
    exact @Expr.Derives.or op.bare _ _ _ _ hop ih ih'
  | @and op l r ts us hop _ _ ih ih' =>
    rw [List.map_append]
    exact @Expr.Derives.and op.bare _ _ _ _ hop ih ih'
  | @binary b op l r ts us hop _ _ ih ih' =>
    rw [List.map_append]
    exact @Expr.Derives.binary _ op.bare _ _ _ _ hop ih ih'
  | @unary u op e ts hop _ ih => exact @Expr.Derives.unary _ op.bare _ _ hop ih
  | @call left right f args ts us hleft hright _ _ ih ih' =>
    rw [List.map_append, List.map_append]
    exact @Expr.Derives.call left.bare right.bare _ _ _ _ hleft hright ih ih'
  | @literal l t ht => exact @Expr.Derives.literal _ t.bare ht
  | @number t ht => exact @Expr.Derives.number t.bare ht
  | @string t ht => exact @Expr.Derives.string t.bare ht
  | @var t ht => exact @Expr.Derives.var t.bare ht
  | @grouping left right e ts hleft hright _ ih =>
    rw [List.map_append]
    exact @Expr.Derives.grouping left.bare right.bare _ _ hleft hright ih
  | noArgument => exact .noArgument
  | lastArgument _ ih => exact .lastArgument ih
  | @argument comma e e' es ts us hcomma _ _ ih ih' =>
    rw [List.map_append]
    exact @Expr.Derives.argument comma.bare _ _ _ _ _ hcomma ih ih'

lemma Expr.Optional.map_bare {e? : Option Expr} {ts : List Token} (h : Optional e? ts) :
    Optional e? (ts.map bare) := by
  cases h with
  | none => exact .none
  | some h => exact .some h.map_bare

lemma Parameters.map_bare {ps : List Text} {ts : List Token} (h : Parameters ps ts) :
    Parameters ps (ts.map bare) := by
  induction h with
  | none => exact .none
  | @last name hname => exact @Parameters.last name.bare hname
  | @cons name comma p ps ts hname hcomma _ ih =>
    exact @Parameters.cons name.bare comma.bare _ _ _ hname hcomma ih

namespace Stmt

variable {i : Bool} {nt : Nonterminal} {s s' : Stmt} {ts us : List Token}

/-- The tree depends on kinds and spellings of tokens only. -/
lemma Derives.map_bare (h : Derives i nt s ts) : Derives i nt s (ts.map bare) := by
  induction h with
  | done => exact .done
  | next _ _ ih ih' =>
    rw [List.map_append]
    exact .next ih ih'
  | @declareFun word name left right open_ close ps body ts us hword hname hleft hright hopen hclose hps
      _ ih =>
    simp only [List.map_append, List.map_cons]
    exact @Derives.declareFun _ word.bare name.bare left.bare right.bare open_.bare close.bare _ _
      _ _ hword hname hleft hright hopen hclose hps.map_bare ih
  | @declareVar nt word name equal semicolon e ts hnt hword hname hequal hsemicolon he =>
    simp only [List.map_append, List.map_cons]
    exact @Derives.declareVar _ _ word.bare name.bare equal.bare semicolon.bare _ _ hnt hword hname
      hequal hsemicolon he.map_bare
  | @declareNil nt word name semicolon hnt hword hname hsemicolon =>
    exact @Derives.declareNil _ _ word.bare name.bare semicolon.bare hnt hword
      hname hsemicolon
  | ofStatement _ ih => exact .ofStatement ih
  | @print word semicolon e ts hword hsemicolon he =>
    simp only [List.map_append, List.map_cons]
    exact @Derives.print _ word.bare semicolon.bare _ _ hword hsemicolon he.map_bare
  | @discard nt semicolon e ts hnt hsemicolon he =>
    simp only [List.map_append, List.map_cons]
    exact @Derives.discard _ _ semicolon.bare _ _ hnt hsemicolon he.map_bare
  | echo hi he => exact .echo hi he.map_bare
  | @branch word left right e yes ts us hword hleft hright he _ ih =>
    simp only [List.map_append, List.map_cons]
    exact @Derives.branch _ word.bare left.bare right.bare _ _ _ _ hword hleft hright
      he.map_bare ih
  | @branchElse word left right else_ e yes no ts us vs hword hleft hright helse he _ _ ih ih' =>
    simp only [List.map_append, List.map_cons]
    exact @Derives.branchElse _ word.bare left.bare right.bare else_.bare _ _ _ _ _ _ hword hleft
      hright helse he.map_bare ih ih'
  | @whileLoop word left right e body ts us hword hleft hright he _ ih =>
    simp only [List.map_append, List.map_cons]
    exact @Derives.whileLoop _ word.bare left.bare right.bare _ _ _ _ hword hleft hright
      he.map_bare ih
  | @forLoop word left semicolon right init body condition increment ts us vs ws hword hleft hsemicolon
      hright _ hcondition hincrement _ ih ih' =>
    simp only [List.map_append, List.map_cons]
    exact @Derives.forLoop _ word.bare left.bare semicolon.bare right.bare _ _ _ _ _ _ _ _ hword
      hleft hsemicolon hright ih hcondition.map_bare hincrement.map_bare ih'
  | @noInitializer semicolon hsemicolon => exact @Derives.noInitializer _ semicolon.bare hsemicolon
  | @ret word semicolon e ts hword hsemicolon he =>
    simp only [List.map_append, List.map_cons]
    exact @Derives.ret _ word.bare semicolon.bare _ _ hword hsemicolon he.map_bare
  | @retNil word semicolon hword hsemicolon =>
    exact @Derives.retNil _ word.bare semicolon.bare hword hsemicolon
  | @block open_ close body ts hopen hclose _ ih =>
    simp only [List.map_append, List.map_cons]
    exact @Derives.block _ open_.bare close.bare _ _ hopen hclose ih

/-- The one sequence of declarations followed by the other. -/
def followedBy : Stmt → Stmt → Stmt
  | .seq s rest, s' => .seq s (rest.followedBy s')
  | _, s' => s'

lemma Derives.followedBy (h : Derives i .declarations s ts) (h' : Derives i .declarations s' us) :
    Derives i .declarations (s.followedBy s') (ts ++ us) := by
  generalize hnt : Nonterminal.declarations = nt at h
  induction h with
  | done => exact h'
  | next hfirst _ _ ih =>
    rw [List.append_assoc]
    exact .next hfirst (ih hnt)
  | declareVar hor | declareNil hor | discard hor =>
    subst hnt
    simp at hor
  | _ => cases hnt

lemma NearestElse.followedBy (h : s.NearestElse) (h' : s'.NearestElse) :
    (s.followedBy s').NearestElse := by
  induction s with
  | seq first rest _ ih => exact ⟨h.1, ih h.2⟩
  | _ => exact h'

/-- The tree of a source that goes on after a line feed is the tree of the source followed by that of
the rest. -/
lemma eq_followedBy {source more : Text} {s s' s'' : Stmt} {body body' whole : List Token}
    {last last' end_ : Token} (htokens : tokenize source = body ++ [last])
    (htokens' : tokenize more = body' ++ [last'])
    (hwhole : tokenize (source ++ Text.newline :: more) = whole ++ [end_])
    (h : Derives false .declarations s body) (h' : Derives false .declarations s' body')
    (h'' : Derives false .declarations s'' whole) (hs : s.NearestElse) (hs' : s'.NearestElse)
    (hs'' : s''.NearestElse) : s'' = s.followedBy s' := by
  have hplain : ∀ t ∈ body, t.kind ≠ .error .unterminatedString := by
    intro t ht herror
    have hplain := h.isPlain t ht
    rw [Token.IsPlain, herror] at hplain
    exact hplain _ rfl
  have hbare := h''.map_bare
  rw [tokenize_concatenation htokens htokens' hwhole hplain] at hbare
  exact hbare.unique hs'' (h.map_bare.followedBy h'.map_bare) (hs.followedBy hs')

end Stmt

/-! ## The code of the parts -/

open Compiler

/-- At the top level a declaration keeps the locals, because it declares a global. -/
lemma Stmt.Emits.keeps_of_depth_zero {g k : Context} {s : Stmt} {c : Code} (h : Emits g s c k)
    (hset : g.Settled) (hs : s.Structured) (hzero : g.scope.depth = 0) : g.Keeps k := by
  induction s generalizing g c k with
  | seq first rest ih ih' =>
    cases h with
    | seq hfirst hrest =>
      have hkeeps := ih hfirst hset hs.1 hzero
      exact hkeeps.trans (ih' hrest hkeeps.settled hs.2 (hfirst.widens.depth.trans hzero))
  | declareVar name e =>
    cases h with
    | declareVar hnames he =>
      cases hnames with
      | ofLocal hpos => exact absurd hzero (Nat.ne_of_gt hpos)
      | ofGlobal =>
        have hgrows := (Context.grows_addString _ _).trans he.grows
        rw [Context.complete_of_depth_zero (hgrows.scope.depth.trans hzero)]
        exact .of_grows hset hgrows
  | declareFun name ps body =>
    cases h with
    | declareFun hnames htakes hbody houter =>
      cases hnames with
      | ofLocal hpos => exact absurd hzero (Nat.ne_of_gt hpos)
      | ofGlobal =>
        have hdepth : (g.addString name).2.scope.depth = 0 := hzero
        rw [Context.complete_of_depth_zero hdepth] at htakes
        have hgrows : ∀ p, g.Grows (Context.addFunction ⟨_, _⟩ p).2 := fun p =>
          (Context.grows_addString _ _).trans (hbody.grows_outer htakes houter p)
        rw [Context.complete_of_depth_zero ((hgrows _).scope.depth.trans hzero)]
        exact .of_grows hset (hgrows _)
  | _ => exact (h.extends hset hs).2 trivial

/-- The code of one sequence of declarations followed by another. -/
lemma Stmt.Emits.of_followedBy {i : Bool} {ts : List Token} {g k : Context} {s s' : Stmt} {c : Code}
    (hs : Derives i .declarations s ts) (h : Emits g (s.followedBy s') c k) :
    ∃ k₁ c₁ c₂, Emits g s c₁ k₁ ∧ Emits k₁ s' c₂ k ∧ c = c₁ ++ c₂ := by
  generalize hnt : Nonterminal.declarations = nt at hs
  induction hs generalizing g c with
  | done => exact ⟨g, [], c, .skip, h, rfl⟩
  | next _ _ _ ih =>
    cases h with
    | seq hfirst hrest =>
      obtain ⟨k₁, c₁, c₂, h₁, h₂, rfl⟩ := ih hrest hnt
      exact ⟨k₁, _, c₂, .seq hfirst h₁, h₂, by rw [List.append_assoc]⟩
  | declareVar hor | declareNil hor | discard hor =>
    subst hnt
    simp at hor
  | _ => cases hnt

/-! ## Code without a return -/

/-- Nothing in the code returns. -/
def Code.Returnless (c : Code) : Prop :=
  ∀ x ∈ c, x.1.opcode ≠ .ret

namespace Code

lemma returnless_nil : Returnless [] := by
  simp [Returnless]

lemma Returnless.append {c d : Code} (hc : c.Returnless) (hd : d.Returnless) : Returnless (c ++ d) :=
  List.forall_mem_append.2 ⟨hc, hd⟩

lemma Returnless.cons {c : Code} {x : Instruction × UInt32} (hc : c.Returnless) (hx : x.1.opcode ≠ .ret) :
    Returnless (x :: c) :=
  List.forall_mem_cons.2 ⟨hx, hc⟩

lemma returnless_singleton {x : Instruction × UInt32} (hx : x.1.opcode ≠ .ret) : Returnless [x] :=
  returnless_nil.cons hx

lemma Returnless.places {a : Chart} (ha : Returnless a.code) (o : Nat) :
    ∀ q ∈ a.places o, q.instruction.opcode ≠ .ret := by
  induction a generalizing o with
  | nil => simp
  | cons x a ih =>
    obtain ⟨⟨i, line⟩, h⟩ := x
    rw [Chart.places_cons, List.forall_mem_cons]
    exact ⟨ha _ List.mem_cons_self, ih (fun y hy => ha y (List.mem_cons_of_mem _ hy)) _⟩

lemma returnless_defineCode (global? : Option Nat) (line : UInt32) : Returnless (defineCode global? line) := by
  cases global? with
  | none => exact returnless_nil
  | some i => exact returnless_singleton (by simp)

lemma returnless_exitCode (condition : Option Expr) (line : UInt32) :
    Returnless (exitCode condition line) := by
  cases condition with
  | none => exact returnless_nil
  | some e => exact returnless_singleton (by simp)

lemma returnless_dropCode (ls : List Local) (line : UInt32) : Returnless (dropCode ls line) := by
  induction ls with
  | nil => exact returnless_nil
  | cons l ls ih => exact ih.cons (by dsimp only; split <;> simp)

end Code

lemma Expr.Emits.returnless {g k : Context} {es : List Expr} {c : Code} (h : Emits g es c k) :
    c.Returnless := by
  induction h with
  | nil => exact Code.returnless_nil
  | cons _ _ ih ih' => exact ih.append ih'
  | @literal _ l => exact Code.returnless_singleton (by cases l <;> simp [Literal.opcode])
  | number | string => exact Code.returnless_singleton (by simp)
  | var h => exact Code.returnless_singleton (by cases h <;> simp)
  | assign h _ ih => exact ih.append (Code.returnless_singleton (by cases h <;> simp))
  | @unary _ _ u _ _ _ _ ih =>
    exact ih.append (Code.returnless_singleton (by cases u <;> simp [UnaryOperator.opcode]))
  | @binary _ _ _ b _ _ _ _ _ _ _ ih ih' =>
    refine (ih.append ih').append (Code.returnless_singleton ?_)
    cases b <;> simp [BinaryOperator.opcode]
  | and _ _ _ ih ih' => exact ih.append ((ih'.cons (by simp)).cons (by simp))
  | or _ _ _ ih ih' => exact ih.append (((ih'.cons (by simp)).cons (by simp)).cons (by simp))
  | call _ _ ih => exact ih.append (Code.returnless_singleton (by simp))

lemma Expr.EmitsCondition.returnless {g k : Context} {condition : Option Expr} {after : Nat} {c : Code}
    (h : EmitsCondition g condition after c k) : c.Returnless := by
  cases h with
  | none => exact Code.returnless_nil
  | some he => exact he.returnless.append ((Code.returnless_singleton (by simp)).cons (by simp))

lemma Expr.EmitsIncrement.returnless {g k : Context} {increment : Option Expr} {before back : Nat}
    {c : Code} (h : EmitsIncrement g increment before c k back) : c.Returnless := by
  cases h with
  | none => exact Code.returnless_nil
  | some he =>
    exact (he.returnless.cons (by simp)).append ((Code.returnless_singleton (by simp)).cons (by simp))

/-- A script returns at its end only. -/
lemma Stmt.Emits.returnless {g k : Context} {s : Stmt} {c : Code} (h : Emits g s c k)
    (hkind : g.scope.kind = .script) : c.Returnless := by
  induction h with
  | skip => exact Code.returnless_nil
  | seq hfirst _ ih ih' => exact (ih hkind).append (ih' (hfirst.widens.scope.kind.trans hkind))
  | declareVar _ he => exact he.returnless.append (Code.returnless_defineCode _ _)
  | declareFun => exact (Code.returnless_defineCode _ _).cons (by simp)
  | print he | discard he | echo he => exact he.returnless.append (Code.returnless_singleton (by simp))
  | branch he hyes _ _ _ ih ih' =>
    have hkind₁ := he.grows.scope.kind.trans hkind
    have hno := ih' (hyes.widens.scope.kind.trans hkind₁)
    exact (he.returnless.append (((ih hkind₁).cons (by simp)).cons (by simp))).append
      ((hno.cons (by simp)).cons (by simp))
  | whileLoop he _ _ _ ih =>
    have hbody := ih (he.grows.scope.kind.trans hkind)
    exact (he.returnless.append ((hbody.cons (by simp)).cons (by simp))).append
      ((Code.returnless_singleton (by simp)).cons (by simp))
  | forLoop hinit hcond hinc _ _ ih ih' =>
    have hbody := ih' (hinc.grows.scope.kind.trans (hcond.grows.scope.kind.trans
      (hinit.widens.scope.kind.trans hkind)))
    exact ((((ih hkind).append hcond.returnless).append hinc.returnless).append hbody).append
      ((Code.returnless_exitCode _ _).cons (by simp)) |>.append (Code.returnless_dropCode _ _)
  | ret hfunction => exact absurd (hfunction.symm.trans hkind) (by simp)
  | block _ ih => exact (ih hkind).append (Code.returnless_dropCode _ _)

/-! ## Between declarations -/

namespace Compiler.Context

/-- What is known between the declarations of a script. -/
structure AtTop (g : Context) : Prop where
  sound : g.Sound
  tidy : g.Tidy
  widens : script.Widens g
  keeps : script.Keeps g

lemma atTop_script : script.AtTop where
  sound := sound_script
  tidy := fun _ hf => List.mem_singleton.1 hf ▸ FunctionScope.tidy_new .script []
  widens := .refl _
  keeps := .of_grows settled_script (.refl _)

variable {g k : Context} {s : Stmt} {c : Code}

namespace AtTop

lemma enclosing (h : g.AtTop) : g.enclosing = [] :=
  List.forall₂_nil_left_iff.1 h.widens.enclosing

lemma captures (h : g.AtTop) : g.scope.captures = #[] := by
  have hlast := h.sound.outermost
  rw [h.enclosing] at hlast
  exact hlast g.scope rfl

lemma length_locals (h : g.AtTop) : g.scope.locals.length = 1 :=
  h.keeps.locals.length_eq.symm

/-- At the top level there are no locals, so that a script is compiled further as if it began. -/
lemma alike_script (h : g.AtTop) : script.Alike g where
  scope := by
    refine ⟨h.widens.scope.kind, h.widens.scope.name, h.widens.arity, ?_, h.captures, h.widens.depth,
      nofun, ⟨Pool.indexed_empty, h.sound.scope.constants⟩, ⟨Pool.indexed_empty, h.sound.scope.strings⟩⟩
    obtain ⟨l, older, hgrows, holder, hlocals⟩ := List.forall₂_cons_left_iff.1 h.keeps.locals
    rw [hlocals, List.forall₂_nil_left_iff.1 holder]
    exact .cons ⟨hgrows.name, hgrows.depth, fun h => absurd rfl h⟩ .nil
  enclosing := by
    rw [h.enclosing]
    exact .nil

/-- Declarations lead from one such place to another, on a stack that holds the callee alone. -/
lemma emits (hg : g.AtTop) (h : Stmt.Emits g s c k) (hs : s.Structured)
    (hnamed : s.AllExprs Expr.Named) :
    k.AtTop ∧ ∀ {w : Chunk}, k.scope.Fits w 0 → Carries w 0 0 Instruction.Plain 1 c Instruction.Plain 1 := by
  have hkeeps := h.keeps_of_depth_zero hg.keeps.settled hs hg.widens.depth
  have harity : g.scope.arity = 0 := hg.widens.arity
  have hlength := hg.length_locals
  obtain ⟨htidy, hcarries⟩ := h.charted hg.keeps.settled hs hnamed hg.sound hg.tidy
    (by rw [harity, hlength])
  have hk : k.AtTop :=
    ⟨(h.verified hg.keeps.settled hs hg.sound).1, htidy, hg.widens.trans h.widens, hg.keeps.trans hkeeps⟩
  refine ⟨hk, fun hfits => ?_⟩
  have hall := hcarries hfits
  rwa [harity, hlength, hk.length_locals] at hall

/-- The finished script has the pools of its context. -/
lemma fits (h : g.AtTop) (c : Code) : g.scope.Fits (g.scope.chunk.append c) 0 := by
  have hfits := g.scope.fits_append c
  rwa [h.captures] at hfits

end AtTop

end Compiler.Context

/-! ## Stretches in common -/

lemma carries_returnCode {w : Chunk} {upvalues arity h : Nat} (hfloor : arity + 1 ≤ h) (after : Nat) (line : UInt32) :
    Carries w upvalues arity Instruction.Plain h (returnCode line) Instruction.Plain after := by
  refine (Literal.nil.carries hfloor).append
    ⟨[((⟨.ret, 0⟩, line), h + 1)], rfl, fun o B hB _ => ?_⟩
  simp only [Chart.places_cons, Chart.places_nil, List.forall_mem_singleton] at hB ⊢
  exact ⟨⟨_, trivial, hB⟩, rfl, trivial, Nat.succ_le_succ hfloor, by simp, by simp,
    by simp [Instruction.successors]⟩

/-- Two charts of the same instructions, at different offsets. -/
lemma exists_matching {f f' : FunctionScope} {w w' : Chunk} {a a' : Chart} {o d : Nat}
    (halike : Code.AlikeIn f f' a.code a'.code)
    (hmatches : ∀ i i', Instruction.AlikeIn f f' i i' → i.Matches Chunk.Alike w w' i')
    (hdecode : ∀ q ∈ a'.places (d + o), w'.decode q.offset = .ok q.instruction) :
    ∀ q ∈ a.places o, ∃ i', w'.decode (d + q.offset) = .ok i' ∧
      q.instruction.Matches Chunk.Alike w w' i' := by
  induction a generalizing a' o with
  | nil => simp
  | cons x a ih =>
    obtain ⟨⟨i, line⟩, h⟩ := x
    cases a' with
    | nil => nomatch halike
    | cons x' a' =>
      obtain ⟨⟨i', line'⟩, h'⟩ := x'
      obtain ⟨hi, hrest⟩ := List.forall₂_cons.1 halike
      rw [Chart.places_cons, List.forall_mem_cons] at hdecode ⊢
      have hmatching := hmatches i i' hi
      refine ⟨⟨i', hdecode.1, hmatching⟩, ih hrest ?_⟩
      rw [← Nat.add_assoc, ← hmatching.size_eq]
      exact hdecode.2

/-- A phrase that was compiled in two scripts is a stretch that they have in common. -/
lemma exists_shares {f f' : FunctionScope} {w w' : Chunk} {u u' d h h' : Nat} {c c' : Code}
    (hkind : f.kind = .script) (hfits : f.Fits w u) (hfits' : f'.Fits w' u')
    (hcarries : Carries w 0 0 Instruction.Plain 1 c Instruction.Plain h)
    (hcarries' : Carries w' 0 0 Instruction.Plain 1 c' Instruction.Plain h')
    (halike : Code.AlikeIn f f' c c') (hcode : w.Holds 0 c) (hcode' : w'.Holds d c') :
    ∃ a : Chart, a.code = c ∧ w.Shares w' d a := by
  obtain ⟨a, rfl, ha⟩ := hcarries
  obtain ⟨a', rfl, ha'⟩ := hcarries'
  obtain ⟨-, hleads⟩ := ha 0 (fun p => a.Marks p.offset) (fun q hq => .inr ⟨q, hq, rfl⟩)
    ⟨⟨.pop, 0⟩, nofun, .inl (Nat.zero_add _)⟩
  obtain ⟨-, hleads'⟩ := ha' d (fun _ => True) (fun _ _ => trivial) ⟨⟨.pop, 0⟩, nofun, trivial⟩
  refine ⟨a, rfl, hcode, hleads, exists_matching halike
    (fun i i' hi => hi.script hkind hfits hfits') ?_⟩
  exact Chart.decode_places hcode' fun q hq => (hleads' q hq).encodable

/-- The stretch `a` of a script that is followed by a return, and the stretch `b`, which is the whole of
another script, follow one another in a third one. -/
structure Chunk.Joins (w₁ w₂ w : Chunk) (a b : Chart) : Prop where
  first : w₁.Shares w 0 a
  second : w₂.Shares w a.code.size b
  returnless : a.code.Returnless
  returns : ∃ line, w₁.Holds a.code.size (returnCode line)
  /-- At the end of the first stretch there is the callee alone on the stack. -/
  height : ∃ height, w₁.Balanced 0 height ∧ height a.code.size = 1
  whole : b.code.size = w₂.code.size

/-- Sources that are accepted, and their concatenation if it is accepted. -/
theorem compile_joins {source more : Text} {p q r : Prototype} (hp : compile false source = .script p)
    (hq : compile false more = .script q)
    (hr : compile false (source ++ Text.newline :: more) = .script r) :
    ∃ w₁ w₂ w a b, p.chunk = some w₁ ∧ q.chunk = some w₂ ∧ r.chunk = some w ∧ w₁.Joins w₂ w a b := by
  obtain ⟨body, last, s, c, g, line, htokens, -, hs, hnear, -, hemits, rfl⟩ := compile_eq_script hp
  obtain ⟨body', last', s', d, k, line', htokens', -, hs', hnear', -, hemits', rfl⟩ :=
    compile_eq_script hq
  obtain ⟨whole, end_, s'', e, k', line'', hwhole, -, hs'', hnear'', -, hemits'', rfl⟩ :=
    compile_eq_script hr
  obtain rfl := Stmt.eq_followedBy htokens htokens' hwhole hs hs' hs'' hnear hnear' hnear''
  obtain ⟨g', c', d', hfirst, hsecond, rfl⟩ := hemits''.of_followedBy hs
  have hstructured := hs.structured.1
  have hstructured' := hs'.structured.1
  have hnamed := hs.named_of_tokenize htokens
  have hnamed' := hs'.named_of_tokenize htokens'
  obtain ⟨hg, hcarries⟩ := Context.atTop_script.emits hemits hstructured hnamed
  obtain ⟨hg', hcarries'⟩ := Context.atTop_script.emits hfirst hstructured hnamed
  obtain ⟨hk, hcarries₂⟩ := Context.atTop_script.emits hemits' hstructured' hnamed'
  obtain ⟨hk', hcarries₂'⟩ := hg'.emits hsecond hstructured' hnamed'
  obtain ⟨-, halike⟩ := hemits.alike hfirst Context.atTop_script.alike_script
  obtain ⟨-, halike₂⟩ := hemits'.alike hsecond hg'.alike_script
  have hfits := hg.fits (c ++ returnCode line)
  have hfits₂ := hk.fits (d ++ returnCode line')
  have hfits₂' := hk'.fits (c' ++ d' ++ returnCode line'')
  have hfits' := hsecond.widens.scope.fits hfits₂'
  obtain ⟨hcode, hreturn⟩ := Chunk.holds_append.1 (hg.sound.scope.holds_append (c ++ returnCode line))
  obtain ⟨hcode', hreturn'⟩ := Chunk.holds_append.1
    (hk'.sound.scope.holds_append (c' ++ d' ++ returnCode line''))
  obtain ⟨hcode₁', hcode₂'⟩ := Chunk.holds_append.1 hcode'
  -- The return belongs to the second stretch, and is charted with it.
  have hreturnCode : ∀ {f f' : FunctionScope}, Code.AlikeIn f f' (returnCode line') (returnCode line'') :=
    alikeIn_cons (alikeIn_plain rfl) (alikeIn_singleton (alikeIn_plain rfl))
  obtain ⟨a, rfl, hshares⟩ := exists_shares hg.widens.scope.kind hfits hfits' (hcarries hfits)
    (hcarries' hfits') halike hcode hcode₁'
  obtain ⟨b, hb, hshares₂⟩ := exists_shares hk.widens.scope.kind hfits₂ hfits₂'
    ((hcarries₂ hfits₂).append (carries_returnCode (Nat.le_refl _) 0 line'))
    ((hcarries₂' hfits₂').append (carries_returnCode (Nat.le_refl _) 0 line''))
    (halike₂.append hreturnCode) (hk.sound.scope.holds_append _)
    (Chunk.holds_append.2 ⟨hcode₂', by
      rw [Code.size_append, ← Nat.add_assoc] at hreturn'
      exact hreturn'⟩)
  obtain ⟨e, he, hleads, hstart, hend⟩ := exists_chart_return (hcarries hfits) (Nat.le_refl _) line
  rw [Nat.zero_add, halike.size_eq] at hshares₂
  refine ⟨_, _, _, a, b, rfl, rfl, rfl, hshares, hshares₂, hemits.returnless rfl, ⟨line, ?_⟩,
    ⟨e.heightAt, ?_, Chart.heightAt_eq hend⟩, ?_⟩
  · rwa [Nat.zero_add] at hreturn
  · exact Chart.balanced (by rw [he, code_prototypeOf hg.sound]) hleads hstart
  · rw [hb, ← Code.length_bytes, ← code_prototypeOf hk.sound, Array.length_toList]

end Lox
