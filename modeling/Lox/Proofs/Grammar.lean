import Lox.Proofs.Syntax

/-!
# The grammar

Which token sequences are programs.  Expressions are stratified: there is a nonterminal for each
level of precedence, a level contains the next tighter one, and an operator of a level takes its
left operand from the level itself and its right operand from the next tighter one.  The
operators `and` and `or` associate to the right, and so does assignment, whose left side is a
name and nothing else.

`Expr.Derives` and `Stmt.Derives` relate a token sequence to the tree it stands for.  Arguments
are a list of expressions, so the relation for expressions speaks of lists throughout; a single
expression is a list of one.

A conditional without `else` makes the statement grammar ambiguous.  `Stmt.Derives.exists_nearest`
says that every derivable sequence has a derivation in which each `else` belongs to the nearest
conditional.
-/

namespace Lox

/-! ## Expressions -/

/-- The nonterminals of the expression grammar. -/
inductive Expr.Nonterminal where
  /-- An expression of a level of precedence. -/
  | level (p : Precedence)
  /-- Expressions with commas between them. -/
  | arguments
  deriving DecidableEq, Repr

open Expr.Nonterminal in
/-- The tokens are derivable from a nonterminal, with the given trees. -/
inductive Expr.Derives : Expr.Nonterminal → List Expr → List Token → Prop
  | tighter {p : Precedence} {e : Expr} {ts : List Token} :
      Derives (level p.tighter) [e] ts → Derives (level p) [e] ts
  | assign {name equal : Token} {e : Expr} {ts : List Token} :
      name.kind = .identifier → equal.kind = .equal → Derives (level .assignment) [e] ts →
      Derives (level .assignment) [.assign name.lexeme e] (name :: equal :: ts)
  | or {op : Token} {l r : Expr} {ts us : List Token} :
      op.kind = .orWord → Derives (level .and) [l] ts → Derives (level .or) [r] us →
      Derives (level .or) [.or l r] (ts ++ op :: us)
  | and {op : Token} {l r : Expr} {ts us : List Token} :
      op.kind = .andWord → Derives (level .equality) [l] ts → Derives (level .and) [r] us →
      Derives (level .and) [.and l r] (ts ++ op :: us)
  | binary {b : BinaryOperator} {op : Token} {l r : Expr} {ts us : List Token} :
      BinaryOperator.ofKind? op.kind = some b → Derives (level b.precedence) [l] ts →
      Derives (level b.precedence.tighter) [r] us →
      Derives (level b.precedence) [.binary b l r] (ts ++ op :: us)
  | unary {u : UnaryOperator} {op : Token} {e : Expr} {ts : List Token} :
      UnaryOperator.ofKind? op.kind = some u → Derives (level .unary) [e] ts →
      Derives (level .unary) [.unary u e] (op :: ts)
  | call {left right : Token} {f : Expr} {args : List Expr} {ts us : List Token} :
      left.kind = .leftParen → right.kind = .rightParen → Derives (level .call) [f] ts →
      Derives arguments args us →
      Derives (level .call) [.call f args] (ts ++ left :: us ++ [right])
  | literal {l : Literal} {t : Token} :
      Literal.ofKind? t.kind = some l → Derives (level .primary) [.literal l] [t]
  | number {t : Token} :
      t.kind = .number → Derives (level .primary) [.number t.lexeme] [t]
  | string {t : Token} :
      t.kind = .string → Derives (level .primary) [.string (t.lexeme.drop 1).dropLast] [t]
  | var {t : Token} :
      t.kind = .identifier → Derives (level .primary) [.var t.lexeme] [t]
  | grouping {left right : Token} {e : Expr} {ts : List Token} :
      left.kind = .leftParen → right.kind = .rightParen → Derives (level .assignment) [e] ts →
      Derives (level .primary) [e] (left :: ts ++ [right])
  | noArgument : Derives arguments [] []
  | lastArgument {e : Expr} {ts : List Token} :
      Derives (level .assignment) [e] ts → Derives arguments [e] ts
  | argument {comma : Token} {e e' : Expr} {es : List Expr} {ts us : List Token} :
      comma.kind = .comma → Derives (level .assignment) [e] ts → Derives arguments (e' :: es) us →
      Derives arguments (e :: e' :: es) (ts ++ comma :: us)

lemma Precedence.rank_le (p : Precedence) : p.rank ≤ Precedence.primary.rank := by
  cases p <;> decide

lemma Precedence.rank_tighter {p : Precedence} (h : p.rank < Precedence.primary.rank) :
    p.tighter.rank = p.rank + 1 := by
  cases p with
  | primary => exact absurd h (Nat.lt_irrefl _)
  | _ => rfl

lemma Precedence.rank_injective {p q : Precedence} (h : p.rank = q.rank) : p = q := by
  revert h
  cases p <;> cases q <;> decide

/-- An expression of a level is one of every looser level. -/
lemma Expr.Derives.loosen {p q : Precedence} {e : Expr} {ts : List Token} (hpq : p.rank ≤ q.rank)
    (h : Derives (.level q) [e] ts) : Derives (.level p) [e] ts := by
  obtain ⟨n, hn⟩ := Nat.exists_eq_add_of_le hpq
  induction n generalizing p with
  | zero =>
    have hsame : q = p := Precedence.rank_injective hn
    exact hsame ▸ h
  | succ n ih =>
    have hq := q.rank_le
    have hnext := Precedence.rank_tighter (p := p) (by omega)
    exact .tighter (ih (by omega) (by omega))

/-- An expression that may be missing. -/
inductive Expr.Optional : Option Expr → List Token → Prop
  | none : Optional none []
  | some {e : Expr} {ts : List Token} : Derives (.level .assignment) [e] ts → Optional (some e) ts

/-! ## Statements -/

/-- Names with commas between them. -/
inductive Parameters : List Text → List Token → Prop
  | none : Parameters [] []
  | last {name : Token} : name.kind = .identifier → Parameters [name.lexeme] [name]
  | cons {name comma : Token} {p : Text} {ps : List Text} {ts : List Token} :
      name.kind = .identifier → comma.kind = .comma → Parameters (p :: ps) ts →
      Parameters (name.lexeme :: p :: ps) (name :: comma :: ts)

/-- The nonterminals of the statement grammar. -/
inductive Stmt.Nonterminal where
  /-- Any number of declarations. -/
  | declarations
  | declaration
  | statement
  /-- The first clause of a for loop. -/
  | initializer
  deriving DecidableEq, Repr

open Stmt.Nonterminal in
/-- The tokens are derivable from a nonterminal, with the given tree.  In an interactive source
an expression may also stand without a semicolon. -/
inductive Stmt.Derives (interactive : Bool) : Stmt.Nonterminal → Stmt → List Token → Prop
  | done : Derives interactive declarations .skip []
  | next {s rest : Stmt} {ts us : List Token} :
      Derives interactive declaration s ts → Derives interactive declarations rest us →
      Derives interactive declarations (.seq s rest) (ts ++ us)
  | declareFun {word name left right open_ close : Token} {ps : List Text} {body : Stmt}
      {ts us : List Token} :
      word.kind = .funWord → name.kind = .identifier → left.kind = .leftParen →
      right.kind = .rightParen → open_.kind = .leftBrace → close.kind = .rightBrace →
      Parameters ps ts → Derives interactive declarations body us →
      Derives interactive declaration (.declareFun name.lexeme ps body)
        (word :: name :: left :: ts ++ right :: open_ :: us ++ [close])
  | declareVar {nt : Nonterminal} {word name equal semicolon : Token} {e : Expr}
      {ts : List Token} :
      nt = declaration ∨ nt = initializer → word.kind = .varWord → name.kind = .identifier →
      equal.kind = .equal → semicolon.kind = .semicolon → Expr.Derives (.level .assignment) [e] ts →
      Derives interactive nt (.declareVar name.lexeme e)
        (word :: name :: equal :: ts ++ [semicolon])
  | declareNil {nt : Nonterminal} {word name semicolon : Token} :
      nt = declaration ∨ nt = initializer → word.kind = .varWord → name.kind = .identifier →
      semicolon.kind = .semicolon →
      Derives interactive nt (.declareVar name.lexeme (.literal .nil)) [word, name, semicolon]
  | ofStatement {s : Stmt} {ts : List Token} :
      Derives interactive statement s ts → Derives interactive declaration s ts
  | print {word semicolon : Token} {e : Expr} {ts : List Token} :
      word.kind = .printWord → semicolon.kind = .semicolon →
      Expr.Derives (.level .assignment) [e] ts →
      Derives interactive statement (.print e) (word :: ts ++ [semicolon])
  | discard {nt : Nonterminal} {semicolon : Token} {e : Expr} {ts : List Token} :
      nt = statement ∨ nt = initializer → semicolon.kind = .semicolon →
      Expr.Derives (.level .assignment) [e] ts →
      Derives interactive nt (.discard e) (ts ++ [semicolon])
  | echo {e : Expr} {ts : List Token} :
      interactive = true → Expr.Derives (.level .assignment) [e] ts →
      Derives interactive statement (.echo e) ts
  | branch {word left right : Token} {e : Expr} {yes : Stmt} {ts us : List Token} :
      word.kind = .ifWord → left.kind = .leftParen → right.kind = .rightParen →
      Expr.Derives (.level .assignment) [e] ts → Derives interactive statement yes us →
      Derives interactive statement (.branch e yes .skip) (word :: left :: ts ++ right :: us)
  | branchElse {word left right else_ : Token} {e : Expr} {yes no : Stmt} {ts us vs : List Token} :
      word.kind = .ifWord → left.kind = .leftParen → right.kind = .rightParen →
      else_.kind = .elseWord → Expr.Derives (.level .assignment) [e] ts →
      Derives interactive statement yes us → Derives interactive statement no vs →
      Derives interactive statement (.branch e yes no)
        (word :: left :: ts ++ right :: us ++ else_ :: vs)
  | whileLoop {word left right : Token} {e : Expr} {body : Stmt} {ts us : List Token} :
      word.kind = .whileWord → left.kind = .leftParen → right.kind = .rightParen →
      Expr.Derives (.level .assignment) [e] ts → Derives interactive statement body us →
      Derives interactive statement (.whileLoop e body) (word :: left :: ts ++ right :: us)
  | forLoop {word left semicolon right : Token} {init body : Stmt}
      {condition increment : Option Expr}
      {ts us vs ws : List Token} :
      word.kind = .forWord → left.kind = .leftParen → semicolon.kind = .semicolon →
      right.kind = .rightParen → Derives interactive initializer init ts →
      Expr.Optional condition us → Expr.Optional increment vs →
      Derives interactive statement body ws →
      Derives interactive statement (.forLoop init condition increment body)
        (word :: left :: ts ++ us ++ semicolon :: vs ++ right :: ws)
  | noInitializer {semicolon : Token} :
      semicolon.kind = .semicolon → Derives interactive initializer .skip [semicolon]
  | ret {word semicolon : Token} {e : Expr} {ts : List Token} :
      word.kind = .returnWord → semicolon.kind = .semicolon →
      Expr.Derives (.level .assignment) [e] ts →
      Derives interactive statement (.ret e) (word :: ts ++ [semicolon])
  | retNil {word semicolon : Token} :
      word.kind = .returnWord → semicolon.kind = .semicolon →
      Derives interactive statement (.ret (.literal .nil)) [word, semicolon]
  | block {open_ close : Token} {body : Stmt} {ts : List Token} :
      open_.kind = .leftBrace → close.kind = .rightBrace →
      Derives interactive declarations body ts →
      Derives interactive statement (.block body) (open_ :: ts ++ [close])

/-- The grammar lets declarations stand only where they may. -/
lemma Stmt.Derives.structured {i : Bool} {nt : Nonterminal} {s : Stmt} {ts : List Token}
    (h : Derives i nt s ts) : s.Structured ∧ (nt = .statement → s.IsStatement) := by
  induction h with
  | done => exact ⟨trivial, by simp⟩
  | next _ _ ih ih' => exact ⟨⟨ih.1, ih'.1⟩, by simp⟩
  | declareFun _ _ _ _ _ _ _ _ ih => exact ⟨ih.1, by simp⟩
  | declareVar hnt | declareNil hnt => exact ⟨trivial, fun h => by simp [h] at hnt⟩
  | ofStatement _ ih => exact ⟨ih.1, by simp⟩
  | print | discard | echo | noInitializer | ret | retNil => exact ⟨trivial, fun _ => trivial⟩
  | branch _ _ _ _ _ ih => exact ⟨⟨ih.2 rfl, ih.1, trivial, trivial⟩, fun _ => trivial⟩
  | branchElse _ _ _ _ _ _ _ ih ih' =>
    exact ⟨⟨ih.2 rfl, ih.1, ih'.2 rfl, ih'.1⟩, fun _ => trivial⟩
  | whileLoop _ _ _ _ _ ih => exact ⟨⟨ih.2 rfl, ih.1⟩, fun _ => trivial⟩
  | forLoop _ _ _ _ _ _ _ _ ih ih' => exact ⟨⟨ih.1, ih'.2 rfl, ih'.1⟩, fun _ => trivial⟩
  | block _ _ _ ih => exact ⟨ih.1, fun _ => trivial⟩

/-- A token sequence without the end token is a program. -/
def Derivable (ts : List Token) : Prop :=
  ∃ tree, Stmt.Derives false .declarations tree ts

/-! ## Tokens of derivable sequences -/

/-- The tokens that an expression can begin with. -/
def Token.Kind.BeginsExpr (k : Token.Kind) : Prop :=
  ∃ o, k.opening? = some o ∧ ∀ what, o ≠ .unsupported what

/-- An expression begins with a token that can begin one. -/
lemma Expr.Derives.exists_cons {nt : Nonterminal} {es : List Expr} {ts : List Token}
    (h : Derives nt es ts) (hes : es ≠ []) : ∃ t us, ts = t :: us ∧ t.kind.BeginsExpr := by
  induction h with
  | tighter _ ih | lastArgument _ ih => exact ih hes
  | @assign name equal e ts hname _ _ _ =>
    exact ⟨name, _, rfl, .variable, by rw [hname]; rfl, by simp⟩
  | or _ _ _ ih _ | and _ _ _ ih _ | binary _ _ _ ih _ | argument _ _ _ ih _ =>
    obtain ⟨t, us, rfl, ht⟩ := ih (by simp)
    exact ⟨t, _, rfl, ht⟩
  | @unary u op e ts hu _ _ =>
    refine ⟨op, ts, rfl, ?_⟩
    cases hk : op.kind <;> rw [hk] at hu <;> cases hu <;> exact ⟨_, rfl, by simp⟩
  | call _ _ _ _ ih _ =>
    obtain ⟨t, us, rfl, ht⟩ := ih (by simp)
    exact ⟨t, _, rfl, ht⟩
  | @literal l t hl =>
    refine ⟨t, [], rfl, ?_⟩
    cases hk : t.kind <;> rw [hk] at hl <;> cases hl <;> exact ⟨_, rfl, by simp⟩
  | @number t ht => exact ⟨t, [], rfl, .number, by rw [ht]; rfl, by simp⟩
  | @string t ht => exact ⟨t, [], rfl, .string, by rw [ht]; rfl, by simp⟩
  | @var t ht => exact ⟨t, [], rfl, .variable, by rw [ht]; rfl, by simp⟩
  | @grouping left right e ts hleft _ _ _ =>
    exact ⟨left, _, rfl, .grouping, by rw [hleft]; rfl, by simp⟩
  | noArgument => exact absurd rfl hes

/-- The token was read from the source without a lexical error. -/
def Token.IsPlain (t : Token) : Prop :=
  ∀ why, t.kind ≠ .error why

lemma Token.IsPlain.of_kind {t : Token} {k : Token.Kind} (h : t.kind = k)
    (hk : ∀ why, k ≠ .error why) : t.IsPlain :=
  fun why => h ▸ hk why

/-- The kinds of the tokens that expressions and parameters are spelled with. -/
def Expr.kinds : List Token.Kind :=
  [.identifier, .number, .string, .nilWord, .trueWord, .falseWord, .leftParen, .rightParen, .comma,
   .equal, .orWord, .andWord, .plus, .minus, .star, .slash, .equalEqual, .bangEqual, .less, .greater,
   .lessEqual, .greaterEqual, .bang, .typeofWord]

lemma Token.IsPlain.of_mem_kinds {t : Token} (h : t.kind ∈ Expr.kinds) : t.IsPlain := by
  intro why hwhy
  simp [hwhy, Expr.kinds] at h

lemma Expr.Derives.kinds {nt : Nonterminal} {es : List Expr} {ts : List Token}
    (h : Derives nt es ts) : ∀ t ∈ ts, t.kind ∈ Expr.kinds := by
  have hbinary : ∀ k b, BinaryOperator.ofKind? k = some b → k ∈ Expr.kinds := by
    intro k b hk
    cases k <;> cases hk <;> decide
  have hunary : ∀ k u, UnaryOperator.ofKind? k = some u → k ∈ Expr.kinds := by
    intro k u hk
    cases k <;> cases hk <;> decide
  have hliteral : ∀ k l, Literal.ofKind? k = some l → k ∈ Expr.kinds := by
    intro k l hk
    cases k <;> cases hk <;> decide
  induction h with
  | tighter _ ih | lastArgument _ ih => exact ih
  | assign hname hequal _ ih =>
    simp only [List.forall_mem_cons, hname, hequal]
    exact ⟨by decide, by decide, ih⟩
  | or hop _ _ ih ih' | and hop _ _ ih ih' | argument hop _ _ ih ih' =>
    simp only [List.forall_mem_append, List.forall_mem_cons, hop]
    exact ⟨ih, by decide, ih'⟩
  | binary hop _ _ ih ih' =>
    simp only [List.forall_mem_append, List.forall_mem_cons]
    exact ⟨ih, hbinary _ _ hop, ih'⟩
  | unary hop _ ih => exact List.forall_mem_cons.2 ⟨hunary _ _ hop, ih⟩
  | call hleft hright _ _ ih ih' =>
    simp only [List.forall_mem_append, List.forall_mem_cons, List.not_mem_nil, false_implies,
      implies_true, and_true, hleft, hright]
    exact ⟨⟨ih, by decide, ih'⟩, by decide⟩
  | literal hl => exact List.forall_mem_singleton.2 (hliteral _ _ hl)
  | number h | string h | var h =>
    rw [List.forall_mem_singleton, h]
    decide
  | grouping hleft hright _ ih =>
    simp only [List.forall_mem_append, List.forall_mem_cons, List.not_mem_nil, false_implies,
      implies_true, and_true, hleft, hright]
    exact ⟨⟨by decide, ih⟩, by decide⟩
  | noArgument => simp

lemma Expr.Optional.kinds {e? : Option Expr} {ts : List Token} (h : Optional e? ts) :
    ∀ t ∈ ts, t.kind ∈ Expr.kinds := by
  cases h with
  | none => simp
  | some h => exact h.kinds

lemma Parameters.kinds {ps : List Text} {ts : List Token} (h : Parameters ps ts) :
    ∀ t ∈ ts, t.kind ∈ Expr.kinds := by
  induction h with
  | none => simp
  | last hname =>
    rw [List.forall_mem_singleton, hname]
    decide
  | cons hname hcomma _ ih =>
    simp only [List.forall_mem_cons, hname, hcomma]
    exact ⟨by decide, by decide, ih⟩

lemma Expr.Derives.isPlain {nt : Nonterminal} {es : List Expr} {ts : List Token}
    (h : Derives nt es ts) : ∀ t ∈ ts, t.IsPlain :=
  fun t ht => .of_mem_kinds (h.kinds t ht)

lemma Expr.Optional.isPlain {e? : Option Expr} {ts : List Token} (h : Optional e? ts) :
    ∀ t ∈ ts, t.IsPlain :=
  fun t ht => .of_mem_kinds (h.kinds t ht)

lemma Parameters.isPlain {ps : List Text} {ts : List Token} (h : Parameters ps ts) :
    ∀ t ∈ ts, t.IsPlain :=
  fun t ht => .of_mem_kinds (h.kinds t ht)

/-- Programs have no tokens with lexical errors. -/
lemma Stmt.Derives.isPlain {i : Bool} {nt : Nonterminal} {s : Stmt} {ts : List Token}
    (h : Derives i nt s ts) : ∀ t ∈ ts, t.IsPlain := by
  have plain : ∀ {t : Token} {k : Token.Kind}, t.kind = k → (∀ why, k ≠ .error why) → t.IsPlain :=
    .of_kind
  induction h with
  | done => simp
  | next _ _ ih ih' =>
    rw [List.forall_mem_append]
    exact ⟨ih, ih'⟩
  | ofStatement _ ih => exact ih
  | echo _ he => exact he.isPlain
  | declareFun h₁ h₂ h₃ h₄ h₅ h₆ hps _ ih =>
    simp only [List.forall_mem_append, List.forall_mem_cons, List.not_mem_nil, false_implies,
      implies_true, and_true]
    exact ⟨⟨⟨plain h₁ (by simp), plain h₂ (by simp), plain h₃ (by simp), hps.isPlain⟩,
      plain h₄ (by simp), plain h₅ (by simp), ih⟩, plain h₆ (by simp)⟩
  | declareVar _ h₁ h₂ h₃ h₄ he =>
    simp only [List.forall_mem_append, List.forall_mem_cons, List.not_mem_nil, false_implies,
      implies_true, and_true]
    exact ⟨⟨plain h₁ (by simp), plain h₂ (by simp), plain h₃ (by simp), he.isPlain⟩,
      plain h₄ (by simp)⟩
  | declareNil _ h₁ h₂ h₃ =>
    simp only [List.forall_mem_cons, List.not_mem_nil, false_implies, implies_true, and_true]
    exact ⟨plain h₁ (by simp), plain h₂ (by simp), plain h₃ (by simp)⟩
  | print h₁ h₂ he | ret h₁ h₂ he =>
    simp only [List.forall_mem_append, List.forall_mem_cons, List.not_mem_nil, false_implies,
      implies_true, and_true]
    exact ⟨⟨plain h₁ (by simp), he.isPlain⟩, plain h₂ (by simp)⟩
  | discard _ h₁ he =>
    simp only [List.forall_mem_append, List.forall_mem_singleton]
    exact ⟨he.isPlain, plain h₁ (by simp)⟩
  | branch h₁ h₂ h₃ he _ ih | whileLoop h₁ h₂ h₃ he _ ih =>
    simp only [List.forall_mem_append, List.forall_mem_cons]
    exact ⟨⟨plain h₁ (by simp), plain h₂ (by simp), he.isPlain⟩, plain h₃ (by simp), ih⟩
  | branchElse h₁ h₂ h₃ h₄ he _ _ ih ih' =>
    simp only [List.forall_mem_append, List.forall_mem_cons]
    exact ⟨⟨⟨plain h₁ (by simp), plain h₂ (by simp), he.isPlain⟩, plain h₃ (by simp), ih⟩,
      plain h₄ (by simp), ih'⟩
  | forLoop h₁ h₂ h₃ h₄ _ hc hi _ ih ih' =>
    simp only [List.forall_mem_append, List.forall_mem_cons]
    exact ⟨⟨⟨⟨plain h₁ (by simp), plain h₂ (by simp), ih⟩, hc.isPlain⟩, plain h₃ (by simp),
      hi.isPlain⟩, plain h₄ (by simp), ih'⟩
  | noInitializer h₁ =>
    simp only [List.forall_mem_singleton]
    exact plain h₁ (by simp)
  | retNil h₁ h₂ =>
    simp only [List.forall_mem_cons, List.not_mem_nil, false_implies, implies_true, and_true]
    exact ⟨plain h₁ (by simp), plain h₂ (by simp)⟩
  | block h₁ h₂ _ ih =>
    simp only [List.forall_mem_append, List.forall_mem_cons, List.not_mem_nil, false_implies,
      implies_true, and_true]
    exact ⟨⟨plain h₁ (by simp), ih⟩, plain h₂ (by simp)⟩

/-! ## Names -/

/-- The variables of an expression are spelled by tokens. -/
lemma Expr.Derives.nil_notMem_names {nt : Nonterminal} {es : List Expr} {ts : List Token}
    (h : Derives nt es ts) (hts : ∀ t ∈ ts, t.kind = .identifier → t.lexeme ≠ []) :
    [] ∉ namesOfAll es := by
  induction h with
  | tighter _ ih | lastArgument _ ih => exact ih hts
  | assign hname _ _ ih =>
    simp only [List.forall_mem_cons] at hts
    simpa [namesOfAll, names, (hts.1 hname).symm] using ih hts.2.2
  | or _ _ _ ih ih' | and _ _ _ ih ih' | binary _ _ _ ih ih' | argument _ _ _ ih ih' =>
    simp only [List.forall_mem_append, List.forall_mem_cons] at hts
    have hleft := ih hts.1
    have hright := ih' hts.2.2
    simp only [namesOfAll, names, List.append_nil, List.mem_append, not_or] at hleft hright ⊢
    exact ⟨hleft, hright⟩
  | unary _ _ ih =>
    rw [List.forall_mem_cons] at hts
    simpa [namesOfAll, names] using ih hts.2
  | call _ _ _ _ ih ih' =>
    simp only [List.forall_mem_append, List.forall_mem_cons] at hts
    have hcallee := ih hts.1.1
    have hargs := ih' hts.1.2.2
    simp only [namesOfAll, names, List.append_nil, List.mem_append, not_or] at hcallee ⊢
    exact ⟨hcallee, hargs⟩
  | var hname =>
    rw [List.forall_mem_singleton] at hts
    simpa [namesOfAll, names] using (hts hname).symm
  | grouping _ _ _ ih =>
    simp only [List.forall_mem_append, List.forall_mem_cons] at hts
    exact ih hts.1.2
  | literal | number | string | noArgument => simp [namesOfAll, names]

lemma Expr.Derives.named {nt : Nonterminal} {e : Expr} {ts : List Token} (h : Derives nt [e] ts)
    (hts : ∀ t ∈ ts, t.kind = .identifier → t.lexeme ≠ []) : e.Named := by
  simpa [namesOfAll, Named] using h.nil_notMem_names hts

lemma Expr.Optional.named {e? : Option Expr} {ts : List Token} (h : Optional e? ts)
    (hts : ∀ t ∈ ts, t.kind = .identifier → t.lexeme ≠ []) : ∀ e ∈ e?, e.Named := by
  cases h with
  | none => simp
  | some h =>
    intro e he
    cases he
    exact h.named hts

/-- Every variable of a program has a name, if its tokens have. -/
lemma Stmt.Derives.named {i : Bool} {nt : Nonterminal} {s : Stmt} {ts : List Token}
    (h : Derives i nt s ts) (hts : ∀ t ∈ ts, t.kind = .identifier → t.lexeme ≠ []) :
    s.AllExprs Expr.Named := by
  induction h with
  | done | noInitializer => trivial
  | ofStatement _ ih => exact ih hts
  | echo _ he => exact he.named hts
  | declareNil | retNil => simp [AllExprs, Expr.Named, Expr.names]
  | next _ _ ih ih' =>
    rw [List.forall_mem_append] at hts
    exact ⟨ih hts.1, ih' hts.2⟩
  | declareFun _ _ _ _ _ _ _ _ ih =>
    simp only [List.forall_mem_append, List.forall_mem_cons] at hts
    exact ih hts.1.2.2.2
  | declareVar _ _ _ _ _ he =>
    simp only [List.forall_mem_append, List.forall_mem_cons] at hts
    exact he.named hts.1.2.2.2
  | print _ _ he | ret _ _ he =>
    simp only [List.forall_mem_append, List.forall_mem_cons] at hts
    exact he.named hts.1.2
  | discard _ _ he =>
    rw [List.forall_mem_append] at hts
    exact he.named hts.1
  | branch _ _ _ he _ ih =>
    simp only [List.forall_mem_append, List.forall_mem_cons] at hts
    exact ⟨he.named hts.1.2.2, ih hts.2.2, trivial⟩
  | branchElse _ _ _ _ he _ _ ih ih' =>
    simp only [List.forall_mem_append, List.forall_mem_cons] at hts
    exact ⟨he.named hts.1.1.2.2, ih hts.1.2.2, ih' hts.2.2⟩
  | whileLoop _ _ _ he _ ih =>
    simp only [List.forall_mem_append, List.forall_mem_cons] at hts
    exact ⟨he.named hts.1.2.2, ih hts.2.2⟩
  | forLoop _ _ _ _ _ hcond hinc _ ih ih' =>
    simp only [List.forall_mem_append, List.forall_mem_cons] at hts
    obtain ⟨⟨⟨⟨-, -, hinit⟩, hts₁⟩, -, hts₂⟩, -, hbody⟩ := hts
    exact ⟨ih hinit, hcond.named hts₁, hinc.named hts₂, ih' hbody⟩
  | block _ _ _ ih =>
    simp only [List.forall_mem_append, List.forall_mem_cons] at hts
    exact ih hts.1.2

/-! ## The nearest conditional -/

namespace Stmt.Derives

variable {i : Bool} {s no : Stmt} {ts us : List Token}

/-- A statement is not nothing. -/
lemma ne_skip (h : Derives i .statement s ts) : s ≠ .skip := by
  rintro rfl
  cases h

/-- An `else` goes to the nearest conditional at the end of a statement that leaves one open. -/
lemma attach {word : Token} (hword : word.kind = .elseWord) (hno : Derives i .statement no us)
    (hno' : no.NearestElse) {nt : Nonterminal} (h : Derives i nt s ts) (hnt : nt = .statement)
    (hnearest : s.NearestElse) (hopen : s.EndsOpen) :
    ∃ s', Derives i .statement s' (ts ++ word :: us) ∧ s'.NearestElse := by
  induction h with
  | @branch ifWord left right e yes ts ws h₁ h₂ h₃ he hyes ih =>
    by_cases hinner : yes.EndsOpen
    · obtain ⟨yes', hyes', hnearest'⟩ := ih rfl hnearest.1 hinner
      refine ⟨.branch e yes' .skip, ?_, hnearest', trivial, .inl rfl⟩
      have hderives := Derives.branch h₁ h₂ h₃ he hyes'
      simpa only [List.append_assoc, List.cons_append] using hderives
    · refine ⟨.branch e yes no, ?_, hnearest.1, hno', .inr hinner⟩
      have hderives := Derives.branchElse h₁ h₂ h₃ hword he hyes hno
      simpa only [List.append_assoc, List.cons_append] using hderives
  | @branchElse ifWord left right elseWord e yes no' ts ws xs h₁ h₂ h₃ h₄ he hyes hno₀ _ ih =>
    have hskip := hno₀.ne_skip
    have hopen' : no'.EndsOpen := by
      cases no' <;> first | exact absurd rfl hskip | exact hopen
    obtain ⟨no'', hno'', hnearest'⟩ := ih rfl hnearest.2.1 hopen'
    refine ⟨.branch e yes no'', ?_, hnearest.1, hnearest', .inr ?_⟩
    · have hderives := Derives.branchElse h₁ h₂ h₃ h₄ he hyes hno''
      simpa only [List.append_assoc, List.cons_append] using hderives
    · exact hnearest.2.2.resolve_left hskip
  | @whileLoop loopWord left right e body ts ws h₁ h₂ h₃ he hbody ih =>
    obtain ⟨body', hbody', hnearest'⟩ := ih rfl hnearest hopen
    refine ⟨.whileLoop e body', ?_, hnearest'⟩
    have hderives := Derives.whileLoop h₁ h₂ h₃ he hbody'
    simpa only [List.append_assoc, List.cons_append] using hderives
  | @forLoop loopWord left semicolon right init body condition increment ts vs ws xs
      h₁ h₂ h₃ h₄ hinit hc hi hbody _ ih =>
    obtain ⟨body', hbody', hnearest'⟩ := ih rfl hnearest.2 hopen
    refine ⟨.forLoop init condition increment body', ?_, hnearest.1, hnearest'⟩
    have hderives := Derives.forLoop h₁ h₂ h₃ h₄ hinit hc hi hbody'
    simpa only [List.append_assoc, List.cons_append] using hderives
  | print | discard | echo | ret | retNil | block => exact hopen.elim
  | done | next | declareFun | ofStatement | noInitializer => cases hnt
  | declareVar h | declareNil h => simp [hnt] at h

/-- Every derivable sequence has a derivation in which each `else` belongs to the nearest
conditional. -/
lemma exists_nearest {nt : Nonterminal} (h : Derives i nt s ts) :
    ∃ s', Derives i nt s' ts ∧ s'.NearestElse := by
  induction h with
  | done => exact ⟨.skip, .done, trivial⟩
  | next _ _ ih ih' =>
    obtain ⟨s, hs, hnearest⟩ := ih
    obtain ⟨rest, hrest, hnearest'⟩ := ih'
    exact ⟨.seq s rest, .next hs hrest, hnearest, hnearest'⟩
  | declareFun h₁ h₂ h₃ h₄ h₅ h₆ hps _ ih =>
    obtain ⟨body, hbody, hnearest⟩ := ih
    exact ⟨_, .declareFun h₁ h₂ h₃ h₄ h₅ h₆ hps hbody, hnearest⟩
  | declareVar hnt h₁ h₂ h₃ h₄ he => exact ⟨_, .declareVar hnt h₁ h₂ h₃ h₄ he, trivial⟩
  | declareNil hnt h₁ h₂ h₃ => exact ⟨_, .declareNil hnt h₁ h₂ h₃, trivial⟩
  | ofStatement _ ih =>
    obtain ⟨s, hs, hnearest⟩ := ih
    exact ⟨s, .ofStatement hs, hnearest⟩
  | print h₁ h₂ he => exact ⟨_, .print h₁ h₂ he, trivial⟩
  | discard hnt h₁ he => exact ⟨_, .discard hnt h₁ he, trivial⟩
  | echo hi he => exact ⟨_, .echo hi he, trivial⟩
  | branch h₁ h₂ h₃ he _ ih =>
    obtain ⟨yes, hyes, hnearest⟩ := ih
    exact ⟨_, .branch h₁ h₂ h₃ he hyes, hnearest, trivial, .inl rfl⟩
  | @branchElse ifWord left right elseWord e _ _ ts us vs h₁ h₂ h₃ h₄ he _ _ ih ih' =>
    obtain ⟨yes, hyes, hnearest⟩ := ih
    obtain ⟨no, hno, hnearest'⟩ := ih'
    by_cases hopen : yes.EndsOpen
    · -- The `else` belongs to a conditional inside the first branch.
      obtain ⟨yes', hyes', hnearest''⟩ := attach h₄ hno hnearest' hyes rfl hnearest hopen
      refine ⟨.branch e yes' .skip, ?_, hnearest'', trivial, .inl rfl⟩
      have hderives := Derives.branch h₁ h₂ h₃ he hyes'
      simpa only [List.append_assoc, List.cons_append] using hderives
    · exact ⟨_, .branchElse h₁ h₂ h₃ h₄ he hyes hno, hnearest, hnearest', .inr hopen⟩
  | whileLoop h₁ h₂ h₃ he _ ih =>
    obtain ⟨body, hbody, hnearest⟩ := ih
    exact ⟨_, .whileLoop h₁ h₂ h₃ he hbody, hnearest⟩
  | forLoop h₁ h₂ h₃ h₄ _ hc hi _ ih ih' =>
    obtain ⟨init, hinit, hnearest⟩ := ih
    obtain ⟨body, hbody, hnearest'⟩ := ih'
    exact ⟨_, .forLoop h₁ h₂ h₃ h₄ hinit hc hi hbody, hnearest, hnearest'⟩
  | noInitializer h₁ => exact ⟨_, .noInitializer h₁, trivial⟩
  | ret h₁ h₂ he => exact ⟨_, .ret h₁ h₂ he, trivial⟩
  | retNil h₁ h₂ => exact ⟨_, .retNil h₁ h₂, trivial⟩
  | block h₁ h₂ _ ih =>
    obtain ⟨body, hbody, hnearest⟩ := ih
    exact ⟨_, .block h₁ h₂ hbody, hnearest⟩

end Stmt.Derives

end Lox
