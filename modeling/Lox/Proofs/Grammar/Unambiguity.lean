import Mathlib.Order.Filter.AtTopBot.Basic
import Lox.Proofs.Compiler.Acceptance.Statement

/-!
# The grammar is unambiguous

A source has one tree in which each `else` belongs to the nearest conditional
(`Stmt.Derives.unique`).

The proof is by a reader of trees: a recursive descent with one token to look at, in the manner of
the compiler, but without its checks.  The reader goes wrong on sequences that are not derivable.
On a derivable one it finds the tree that was derived, whichever that was, so there is no other.

The reader is given a number of calls that it may nest.  What it finds with any sufficiently large
number is stated with `atTop`.
-/

namespace Lox

open Filter Compiler

/-! ## The reader -/

mutual

/-- An expression of a level: its first operand, and whatever extends it. -/
def readExpr? : Nat → Precedence → List Token → Option (Expr × List Token)
  | 0, _, _ => none
  | n + 1, p, ts => do
    let (l, us) ← readOperand? n ts
    extendExpr? n p l us

/-- What stands before the first operator that comes between operands. -/
def readOperand? : Nat → List Token → Option (Expr × List Token)
  | n + 1, t :: ts =>
    match t.kind with
    | .identifier =>
      if (ts.head?.map Token.kind) = some .equal then do
        let (e, us) ← readExpr? n .assignment ts.tail
        some (.assign t.lexeme e, us)
      else some (.var t.lexeme, ts)
    | .number => some (.number t.lexeme, ts)
    | .string => some (.string (t.lexeme.drop 1).dropLast, ts)
    | .leftParen => do
      let (e, us) ← readExpr? n .assignment ts
      some (e, us.tail)
    | k =>
      match UnaryOperator.ofKind? k with
      | some u => do
        let (e, us) ← readExpr? n .unary ts
        some (.unary u e, us)
      | none => do
        let l ← Literal.ofKind? k
        some (.literal l, ts)
  | _, _ => none

/-- An expression that begins with the operand `l`. -/
def extendExpr? : Nat → Precedence → Expr → List Token → Option (Expr × List Token)
  | n + 1, p, l, op :: ts =>
    match op.kind.continuation? with
    | none => some (l, op :: ts)
    | some k =>
      if p.rank ≤ k.precedence.rank then
        match k with
        | .or => do
          let (r, us) ← readExpr? n .or ts
          extendExpr? n p (.or l r) us
        | .and => do
          let (r, us) ← readExpr? n .and ts
          extendExpr? n p (.and l r) us
        | .binary _ q => do
          let b ← BinaryOperator.ofKind? op.kind
          let (r, us) ← readExpr? n q.tighter ts
          extendExpr? n p (.binary b l r) us
        | .call => do
          let (args, us) ← readArguments? n ts
          extendExpr? n p (.call l args) us.tail
        | .unsupported _ => none
      else some (l, op :: ts)
  | _, _, _, _ => none

/-- Arguments up to the closing parenthesis. -/
def readArguments? : Nat → List Token → Option (List Expr × List Token)
  | n + 1, ts =>
    if (ts.head?.map Token.kind) = some .rightParen then some ([], ts)
    else do
      let (e, us) ← readExpr? n .assignment ts
      if (us.head?.map Token.kind) = some .comma then
        let (es, vs) ← readArguments? n us.tail
        some (e :: es, vs)
      else some ([e], us)
  | 0, _ => none

end

/-- An expression and the token that ends it, or that token alone. -/
def readOptional? (n : Nat) (last : Token.Kind) (ts : List Token) :
    Option (Option Expr × List Token) :=
  if ts.head?.map Token.kind = some last then some (none, ts.tail)
  else do
    let (e, us) ← readExpr? n .assignment ts
    some (some e, us.tail)

/-- An expression with a semicolon. -/
def readDiscard? (n : Nat) (ts : List Token) : Option (Stmt × List Token) := do
  let (e, us) ← readExpr? n .assignment ts
  some (.discard e, us.tail)

/-- A declaration of a variable after its keyword. -/
def readVar? (n : Nat) : List Token → Option (Stmt × List Token)
  | [] => none
  | name :: ts =>
    if ts.head?.map Token.kind = some .equal then do
      let (e, us) ← readExpr? n .assignment ts.tail
      some (.declareVar name.lexeme e, us.tail)
    else some (.declareVar name.lexeme (.literal .nil), ts.tail)

/-- Parameters up to the closing parenthesis. -/
def readParameters : List Token → List Text × List Token
  | name :: next :: ts =>
    if name.kind = .identifier then
      if next.kind = .comma then
        let (ps, us) := readParameters ts
        (name.lexeme :: ps, us)
      else ([name.lexeme], next :: ts)
    else ([], name :: next :: ts)
  | ts => ([], ts)

/-- A statement, declaration or sequence of declarations. -/
def readStmt? : Nat → Stmt.Nonterminal → List Token → Option (Stmt × List Token)
  | n + 1, .declarations, ts =>
    if ts.head?.map Token.kind ∈ [some .eof, some .rightBrace] then some (.skip, ts)
    else do
      let (s, us) ← readStmt? n .declaration ts
      let (rest, vs) ← readStmt? n .declarations us
      some (.seq s rest, vs)
  | n + 1, .declaration, word :: ts =>
    match word.kind with
    | .funWord => do
      let name ← ts.head?
      let (ps, us) := readParameters (ts.drop 2)
      let (body, vs) ← readStmt? n .declarations (us.drop 2)
      some (.declareFun name.lexeme ps body, vs.tail)
    | .varWord => readVar? n ts
    | _ => readStmt? n .statement (word :: ts)
  | n + 1, .initializer, word :: ts =>
    match word.kind with
    | .semicolon => some (.skip, ts)
    | .varWord => readVar? n ts
    | _ => readDiscard? n (word :: ts)
  | n + 1, .statement, word :: ts =>
    match word.kind with
    | .printWord => do
      let (e, us) ← readExpr? n .assignment ts
      some (.print e, us.tail)
    | .ifWord => do
      let (e, us) ← readExpr? n .assignment ts.tail
      let (yes, vs) ← readStmt? n .statement us.tail
      if vs.head?.map Token.kind = some .elseWord then
        let (no, ws) ← readStmt? n .statement vs.tail
        some (.branch e yes no, ws)
      else some (.branch e yes .skip, vs)
    | .whileWord => do
      let (e, us) ← readExpr? n .assignment ts.tail
      let (body, vs) ← readStmt? n .statement us.tail
      some (.whileLoop e body, vs)
    | .forWord => do
      let (init, us) ← readStmt? n .initializer ts.tail
      let (condition, vs) ← readOptional? n .semicolon us
      let (increment, ws) ← readOptional? n .rightParen vs
      let (body, xs) ← readStmt? n .statement ws
      some (.forLoop init condition increment body, xs)
    | .returnWord => do
      let (e, us) ← readOptional? n .semicolon ts
      some (.ret (e.getD (.literal .nil)), us)
    | .leftBrace => do
      let (body, us) ← readStmt? n .declarations ts
      some (.block body, us.tail)
    | _ => readDiscard? n (word :: ts)
  | _, _, _ => none

attribute [local simp] readExpr? readOperand? extendExpr? readArguments? readStmt?

/-! ## Expressions -/

lemma eventually_of_succ {P : Nat → Prop} (h : ∀ᶠ n in atTop, P (n + 1)) : ∀ᶠ n in atTop, P n := by
  rw [eventually_atTop] at h ⊢
  obtain ⟨a, ha⟩ := h
  refine ⟨a + 1, fun n hn => ?_⟩
  obtain ⟨m, rfl⟩ := Nat.exists_eq_add_of_le' (Nat.le_of_add_left_le hn : 1 ≤ n)
  exact ha m (Nat.le_of_succ_le_succ hn)

/-- An expression ends where it cannot be extended. -/
lemma eventually_extendExpr?_of_stops {p : Precedence} {rest : List Token} (h : Stops p rest)
    (e : Expr) : ∀ᶠ n in atTop, extendExpr? n p e rest = some (e, rest) := by
  refine eventually_of_succ (.of_forall fun n => ?_)
  cases rest with
  | nil => exact h.elim
  | cons t ts =>
    rw [extendExpr?]
    cases hk : t.kind.continuation? with
    | none => rfl
    | some k =>
      dsimp only
      rw [if_neg (Nat.not_le_of_lt (h.2 k hk))]

/-- An operand is read first, and then what extends it. -/
lemma eventually_readExpr? {p : Precedence} {ts us : List Token} {l : Expr} {r : Expr × List Token}
    (hoperand : ∀ᶠ n in atTop, readOperand? n ts = some (l, us))
    (hextend : ∀ᶠ n in atTop, extendExpr? n p l us = some r) :
    ∀ᶠ n in atTop, readExpr? n p ts = some r := by
  refine eventually_of_succ ?_
  filter_upwards [hoperand, hextend] with n hn hn'
  rw [readExpr?, hn]
  exact hn'

namespace Expr

/-- The reader finds the trees on the tokens.  An expression is found together with what extends
it, because the derivation of a left-associative operator has its left operand as a part, while
the reader has read the left operand before it meets the operator. -/
def Finds : Nonterminal → List Expr → List Token → Prop
  | .level q, es, ts => ∀ e p rest r, es = [e] → p.rank ≤ q.rank → Follows q rest →
      (∀ᶠ n in atTop, extendExpr? n p e rest = some r) →
      ∀ᶠ n in atTop, readExpr? n p (ts ++ rest) = some r
  | .arguments, es, ts => ∀ right rest, right.kind = .rightParen →
      ∀ᶠ n in atTop, readArguments? n (ts ++ right :: rest) = some (es, right :: rest)

variable {p q : Precedence} {e l r : Expr} {ts us rest : List Token} {op t : Token}

/-- An expression that nothing extends. -/
lemma Finds.eventually (h : Finds (.level q) [e] ts) (hrest : Stops q rest) :
    ∀ᶠ n in atTop, readExpr? n q (ts ++ rest) = some (e, rest) :=
  h e q rest _ rfl (Nat.le_refl _) hrest.follows (eventually_extendExpr?_of_stops hrest e)

/-- An expression that begins with a token of its own. -/
lemma finds_operand (h : ∀ rest, Follows q rest →
    ∀ᶠ n in atTop, readOperand? n (ts ++ rest) = some (e, rest)) : Finds (.level q) [e] ts := by
  intro e' p rest r hes _ hrest hextend
  cases hes
  exact eventually_readExpr? (h rest hrest) hextend

/-- A token that is an expression by itself. -/
lemma finds_token (h : ∀ n rest, Follows q rest →
    readOperand? (n + 1) (t :: rest) = some (e, rest)) : Finds (.level q) [e] [t] :=
  finds_operand fun rest hrest => eventually_of_succ (.of_forall fun n => h n rest hrest)

lemma finds_var (ht : t.kind = .identifier) : Finds (.level .primary) [.var t.lexeme] [t] := by
  refine finds_token fun n rest hrest => ?_
  obtain ⟨next, us, rfl, hequal⟩ := hrest.exists_cons
  rw [readOperand?, ht]
  exact if_neg (by simpa using hequal)

lemma finds_assign {name equal : Token} (hname : name.kind = .identifier)
    (hequal : equal.kind = .equal) (he : Finds (.level .assignment) [e] ts) :
    Finds (.level .assignment) [.assign name.lexeme e] (name :: equal :: ts) := by
  refine finds_operand fun rest hrest => eventually_of_succ ?_
  filter_upwards [he.eventually (hrest.stops (.inl rfl))] with n hn
  have htest : ((equal :: (ts ++ rest)).head?.map Token.kind) = some .equal := by simp [hequal]
  rw [List.cons_append, List.cons_append, readOperand?, hname]
  dsimp only
  rw [if_pos htest, List.tail_cons, hn]
  rfl

lemma finds_unary {u : UnaryOperator} (hop : UnaryOperator.ofKind? op.kind = some u)
    (he : Finds (.level .unary) [e] ts) : Finds (.level .unary) [.unary u e] (op :: ts) := by
  refine finds_operand fun rest hrest => eventually_of_succ ?_
  filter_upwards [he.eventually (hrest.stops (.inr (.inr (.inr rfl))))] with n hn
  rw [List.cons_append, readOperand?]
  cases hk : op.kind <;> rw [hk] at hop <;> cases hop <;> dsimp only <;> rw [hn] <;> rfl

lemma finds_grouping {left right : Token} (hleft : left.kind = .leftParen)
    (hright : right.kind = .rightParen) (he : Finds (.level .assignment) [e] ts) :
    Finds (.level .primary) [e] (left :: ts ++ [right]) := by
  refine finds_operand fun rest _ => eventually_of_succ ?_
  have hstops : Stops .assignment (right :: rest) := stops_rightParen hright
  filter_upwards [he.eventually hstops] with n hn
  rw [List.append_assoc, List.cons_append, readOperand?, hleft]
  dsimp only
  rw [List.singleton_append, hn]
  rfl

/-- An operator between operands.  Its left operand is extended by all that stands behind. -/
lemma finds_extended {k : Continuation} (hk : op.kind.continuation? = some k)
    (hequal : op.kind ≠ .equal) (hle : k.precedence.rank ≤ k.left.rank)
    (hl : Finds (.level k.left) [l] ts)
    (hextend : ∀ p rest result, p.rank ≤ k.precedence.rank → Follows k.precedence rest →
      (∀ᶠ n in atTop, extendExpr? n p e rest = some result) →
      ∀ᶠ n in atTop, extendExpr? (n + 1) p l (op :: (us ++ rest)) = some result) :
    Finds (.level k.precedence) [e] (ts ++ op :: us) := by
  intro e' p rest result hes hp hrest h
  cases hes
  have hfollows : Follows k.left (op :: (us ++ rest)) := by
    refine ⟨hequal, fun k' hk' => ?_⟩
    rw [hk] at hk'
    cases hk'
    exact Nat.le_refl _
  rw [List.append_assoc, List.cons_append]
  exact hl l p _ result rfl (Nat.le_trans hp hle) hfollows
    (eventually_of_succ (hextend p rest result hp hrest h))

lemma finds_or (hop : op.kind = .orWord) (hl : Finds (.level .and) [l] ts)
    (hr : Finds (.level .or) [r] us) : Finds (.level .or) [.or l r] (ts ++ op :: us) := by
  have hk : op.kind.continuation? = some .or := by rw [hop]; rfl
  refine finds_extended (k := .or) hk (by simp [hop]) (by decide) hl fun p rest _ hp hrest h => ?_
  filter_upwards [hr.eventually (hrest.stops (.inr (.inl rfl))), h] with n hn hn'
  rw [extendExpr?, hk]
  dsimp only
  rw [if_pos hp, hn]
  exact hn'

lemma finds_and (hop : op.kind = .andWord) (hl : Finds (.level .equality) [l] ts)
    (hr : Finds (.level .and) [r] us) : Finds (.level .and) [.and l r] (ts ++ op :: us) := by
  have hk : op.kind.continuation? = some .and := by rw [hop]; rfl
  refine finds_extended (k := .and) hk (by simp [hop]) (by decide) hl fun p rest _ hp hrest h => ?_
  filter_upwards [hr.eventually (hrest.stops (.inr (.inr (.inl rfl)))), h] with n hn hn'
  rw [extendExpr?, hk]
  dsimp only
  rw [if_pos hp, hn]
  exact hn'

lemma finds_binary {b : BinaryOperator} (hop : BinaryOperator.ofKind? op.kind = some b)
    (hl : Finds (.level b.precedence) [l] ts) (hr : Finds (.level b.precedence.tighter) [r] us) :
    Finds (.level b.precedence) [.binary b l r] (ts ++ op :: us) := by
  have hk := continuation?_of_binary hop
  have hequal : op.kind ≠ .equal := by
    intro hequal
    rw [hequal] at hop
    cases hop
  refine finds_extended (k := .binary b.opcode b.precedence) hk hequal (Nat.le_refl _) hl
    fun p rest _ hp hrest h => ?_
  filter_upwards [hr.eventually hrest.stops_tighter, h] with n hn hn'
  rw [extendExpr?, hk]
  dsimp only
  rw [if_pos hp, hop, Option.bind_eq_bind, Option.bind_some, hn]
  exact hn'

lemma finds_call {left right : Token} {args : List Expr} (hleft : left.kind = .leftParen)
    (hright : right.kind = .rightParen) (hf : Finds (.level .call) [l] ts)
    (hargs : Finds .arguments args us) :
    Finds (.level .call) [.call l args] (ts ++ left :: us ++ [right]) := by
  have hk : left.kind.continuation? = some .call := by rw [hleft]; rfl
  rw [List.append_assoc, List.cons_append]
  refine finds_extended (k := .call) hk (by simp [hleft]) (Nat.le_refl _) hf
    fun p rest _ hp _ h => ?_
  filter_upwards [hargs right rest hright, h] with n hn hn'
  rw [extendExpr?, hk]
  dsimp only
  rw [if_pos hp, List.append_assoc, List.singleton_append, hn]
  exact hn'

/-- What an expression does not begin with. -/
lemma Derives.head?_ne {k : Token.Kind} (h : Derives (.level q) [e] ts)
    (hk : k ∈ [Token.Kind.funWord, .varWord, .printWord, .ifWord, .whileWord, .forWord, .returnWord,
      .leftBrace, .semicolon, .rightParen]) (rest : List Token) :
    (ts ++ rest).head?.map Token.kind ≠ some k := by
  obtain ⟨t, us, rfl, hbegins⟩ := h.exists_cons (by simp)
  simpa using hbegins.ne k hk

lemma finds_lastArgument (h : Derives (.level .assignment) [e] ts)
    (he : Finds (.level .assignment) [e] ts) : Finds .arguments [e] ts := by
  intro right rest hright
  refine eventually_of_succ ?_
  filter_upwards [he.eventually (stops_rightParen hright)] with n hn
  rw [readArguments?, if_neg (h.head?_ne (by simp) _), hn]
  exact if_neg (by simp [hright])

lemma finds_argument {comma : Token} {es : List Expr} (hcomma : comma.kind = .comma)
    (h : Derives (.level .assignment) [e] ts) (he : Finds (.level .assignment) [e] ts)
    (hes : Finds .arguments es us) : Finds .arguments (e :: es) (ts ++ comma :: us) := by
  intro right rest hright
  have hstops : Stops .assignment (comma :: (us ++ right :: rest)) := stops_of_kind hcomma (by simp) rfl
  refine eventually_of_succ ?_
  filter_upwards [he.eventually hstops, hes right rest hright] with n hn hn'
  rw [List.append_assoc, List.cons_append, readArguments?, if_neg (h.head?_ne (by simp) _), hn]
  rw [Option.bind_eq_bind, Option.bind_some]
  dsimp only
  rw [if_pos (by simp [hcomma]), List.tail_cons, hn']
  rfl

/-- The reader finds what was derived. -/
lemma Derives.finds {nt : Nonterminal} {es : List Expr} (h : Derives nt es ts) : Finds nt es ts := by
  induction h with
  | @tighter q e ts _ ih =>
    intro e' p rest r hes hp hrest hextend
    have hle : q.rank ≤ q.tighter.rank := by cases q <;> decide
    exact ih e' p rest r hes (Nat.le_trans hp hle) (hrest.mono hle) hextend
  | assign hname hequal _ ih => exact finds_assign hname hequal ih
  | or hop _ _ ih ih' => exact finds_or hop ih ih'
  | and hop _ _ ih ih' => exact finds_and hop ih ih'
  | binary hop _ _ ih ih' => exact finds_binary hop ih ih'
  | unary hop _ ih => exact finds_unary hop ih
  | call hleft hright _ _ ih ih' => exact finds_call hleft hright ih ih'
  | literal hl =>
    refine finds_token fun n rest _ => ?_
    rw [readOperand?]
    cases hk : Token.kind _ <;> rw [hk] at hl <;> cases hl <;> rfl
  | number ht => exact finds_token fun n rest _ => by rw [readOperand?, ht]
  | string ht => exact finds_token fun n rest _ => by rw [readOperand?, ht]
  | var ht => exact finds_var ht
  | grouping hleft hright _ ih => exact finds_grouping hleft hright ih
  | noArgument =>
    intro right rest hright
    refine eventually_of_succ (.of_forall fun n => ?_)
    rw [readArguments?]
    exact if_pos (by simp [hright])
  | lastArgument h ih => exact finds_lastArgument h ih
  | argument hcomma h _ ih ih' => exact finds_argument hcomma h ih ih'

lemma Derives.eventually (h : Derives (.level q) [e] ts) (hrest : Stops q rest) :
    ∀ᶠ n in atTop, readExpr? n q (ts ++ rest) = some (e, rest) :=
  h.finds.eventually hrest

end Expr

/-! ## Statements -/

lemma Expr.Optional.eventually {e? : Option Expr} {ts : List Token} {last : Token}
    (h : Optional e? ts) (hlast : last.kind = .semicolon ∨ last.kind = .rightParen)
    (rest : List Token) :
    ∀ᶠ n in atTop, readOptional? n last.kind (ts ++ last :: rest) = Option.some (e?, rest) := by
  cases h with
  | none => exact .of_forall fun n => if_pos rfl
  | some he =>
    have hstops : Stops .assignment (last :: rest) := by
      rcases hlast with hlast | hlast
      · exact stops_semicolon hlast
      · exact stops_rightParen hlast
    have hfirst : (ts ++ last :: rest).head?.map Token.kind ≠ Option.some last.kind := by
      rcases hlast with hlast | hlast <;> rw [hlast] <;> exact he.head?_ne (by simp) _
    filter_upwards [he.eventually hstops] with n hn
    rw [readOptional?, if_neg hfirst, hn]
    rfl

lemma Parameters.read {ps : List Text} {ts rest : List Token} {right : Token} (h : Parameters ps ts)
    (hright : right.kind = .rightParen) : readParameters (ts ++ right :: rest) = (ps, right :: rest) := by
  induction h with
  | none =>
    cases rest with
    | nil => rfl
    | cons t us =>
      rw [List.nil_append, readParameters, if_neg (by simp [hright])]
  | last hname =>
    rw [List.singleton_append, readParameters, if_pos hname, if_neg (by simp [hright])]
  | cons hname hcomma _ ih =>
    rw [List.cons_append, List.cons_append, readParameters, if_pos hname, if_pos hcomma, ih]

namespace Stmt

/-- What has to stand behind a statement for it to be read to its end. -/
def Ends (s : Stmt) (rest : List Token) : Nonterminal → Prop
  | .declarations => ∃ t us, rest = t :: us ∧ (t.kind = .eof ∨ t.kind = .rightBrace)
  | .declaration | .statement => s.Closes rest
  | .initializer => True

/-- The reader finds the tree on the tokens. -/
def Finds (nt : Nonterminal) (s : Stmt) (ts : List Token) : Prop :=
  ∀ rest, s.Ends rest nt → ∀ᶠ n in atTop, readStmt? n nt (ts ++ rest) = some (s, rest)

variable {e : Expr} {s rest' yes no body : Stmt} {ts us vs : List Token} {word left right semicolon : Token}

lemma finds_next (h : Derives false .declaration s ts) (h' : Derives false .declarations rest' us)
    (hs : Finds .declaration s ts) (hrest : Finds .declarations rest' us) :
    Finds .declarations (.seq s rest') (ts ++ us) := by
  intro rest hends
  have hcloses : s.Closes (us ++ rest) := by
    obtain ⟨t, ws, rfl, ht⟩ := hends
    refine h'.closes_append ?_
    rcases ht with ht | ht <;> simp [ht]
  obtain ⟨t, ts', rfl, hbegins⟩ := h.exists_cons (.inl rfl)
  have hfirst : ((t :: ts') ++ (us ++ rest)).head?.map Token.kind ∉ [some .eof, some .rightBrace] := by
    simp [hbegins.ne.2.1, hbegins.ne.2.2.1]
  refine eventually_of_succ ?_
  filter_upwards [hs _ hcloses, hrest rest hends] with n hn hn'
  rw [List.append_assoc, readStmt?, if_neg hfirst, hn]
  simp only [Option.bind_eq_bind, Option.bind_some, hn']

lemma finds_declareFun {name open_ close : Token} {ps : List Text} (hword : word.kind = .funWord)
    (hright : right.kind = .rightParen) (hclose : close.kind = .rightBrace) (hps : Parameters ps ts)
    (hbody : Finds .declarations body us) : Finds .declaration (.declareFun name.lexeme ps body)
      (word :: name :: left :: ts ++ right :: open_ :: us ++ [close]) := by
  intro rest _
  refine eventually_of_succ ?_
  filter_upwards [hbody (close :: rest) ⟨close, rest, rfl, .inr hclose⟩] with n hn
  simp only [List.append_assoc, List.cons_append, List.nil_append, readStmt?, hword, List.head?_cons,
    List.drop_succ_cons, List.drop_zero, hps.read hright, Option.bind_eq_bind, Option.bind_some, hn,
    List.tail_cons]

lemma eventually_readVar? {name equal : Token} (hequal : equal.kind = .equal)
    (hsemicolon : semicolon.kind = .semicolon) (he : Expr.Derives (.level .assignment) [e] ts)
    (rest : List Token) : ∀ᶠ n in atTop,
      readVar? n (name :: equal :: ts ++ semicolon :: rest) = some (.declareVar name.lexeme e, rest) := by
  have hstops : Stops .assignment (semicolon :: rest) := stops_semicolon hsemicolon
  filter_upwards [he.eventually hstops] with n hn
  simp only [List.cons_append, readVar?, List.head?_cons, Option.map_some, hequal, if_true,
    List.tail_cons, hn, Option.bind_eq_bind, Option.bind_some]

lemma readVar?_nil {name : Token} (hsemicolon : semicolon.kind = .semicolon) (n : Nat)
    (rest : List Token) : readVar? n (name :: semicolon :: rest) =
      some (.declareVar name.lexeme (.literal .nil), rest) :=
  if_neg (by simp [hsemicolon])

lemma eventually_readDiscard? (hsemicolon : semicolon.kind = .semicolon)
    (he : Expr.Derives (.level .assignment) [e] ts) (rest : List Token) :
    ∀ᶠ n in atTop, readDiscard? n (ts ++ semicolon :: rest) = some (.discard e, rest) := by
  filter_upwards [he.eventually (stops_semicolon hsemicolon)] with n hn
  rw [readDiscard?, hn]
  rfl

lemma finds_discard {nt : Nonterminal} (hnt : nt = .statement ∨ nt = .initializer)
    (hsemicolon : semicolon.kind = .semicolon) (he : Expr.Derives (.level .assignment) [e] ts) :
    Finds nt (.discard e) (ts ++ [semicolon]) := by
  intro rest _
  rw [List.append_assoc, List.singleton_append]
  have hread := eventually_readDiscard? hsemicolon he rest
  obtain ⟨t, us, rfl, hbegins⟩ := he.exists_cons (by simp)
  rw [List.cons_append] at hread ⊢
  refine eventually_of_succ ?_
  filter_upwards [hread] with n hn
  rcases hnt with rfl | rfl
  all_goals
    rw [readStmt?]
    split
    all_goals first | exact hn | exact absurd ‹t.kind = _› (hbegins.ne _ (by simp))

lemma finds_branch (hword : word.kind = .ifWord) (hright : right.kind = .rightParen)
    (he : Expr.Derives (.level .assignment) [e] ts) (hyes : Finds .statement yes us) :
    Finds .statement (.branch e yes .skip) (word :: left :: ts ++ right :: us) := by
  intro rest hends
  obtain ⟨t, ws, rfl⟩ := Closes.exists_cons hends
  have helse : t.kind ≠ .elseWord := hends trivial
  have hstops : Stops .assignment (right :: (us ++ t :: ws)) := stops_rightParen hright
  refine eventually_of_succ ?_
  have hcloses : yes.Closes (t :: ws) := closes_cons helse
  filter_upwards [he.eventually hstops, hyes (t :: ws) hcloses] with n hn hn'
  simp only [List.append_assoc, List.cons_append, readStmt?, hword, List.tail_cons, hn, hn',
    Option.bind_eq_bind, Option.bind_some, List.head?_cons, Option.map_some, Option.some.injEq,
    helse, if_false]

lemma finds_branchElse {else_ : Token} (hword : word.kind = .ifWord)
    (hright : right.kind = .rightParen) (helse : else_.kind = .elseWord)
    (he : Expr.Derives (.level .assignment) [e] ts) (hskip : no ≠ .skip) (hopen : ¬ yes.EndsOpen)
    (hyes : Finds .statement yes us) (hno : Finds .statement no vs) :
    Finds .statement (.branch e yes no) (word :: left :: ts ++ right :: us ++ else_ :: vs) := by
  intro rest hends
  have hstops : Stops .assignment (right :: (us ++ else_ :: (vs ++ rest))) := stops_rightParen hright
  have hcloses : yes.Closes (else_ :: (vs ++ rest)) := fun h => absurd h hopen
  have hcloses' : no.Closes rest := Closes.mono hends (endsOpen_branch hskip)
  refine eventually_of_succ ?_
  filter_upwards [he.eventually hstops, hyes (else_ :: (vs ++ rest)) hcloses,
    hno rest hcloses'] with n hn hn' hn''
  simp only [List.append_assoc, List.cons_append, readStmt?, hword, List.tail_cons, hn, hn', hn'',
    Option.bind_eq_bind, Option.bind_some, List.head?_cons, Option.map_some, helse, if_true]

lemma finds_whileLoop (hword : word.kind = .whileWord) (hright : right.kind = .rightParen)
    (he : Expr.Derives (.level .assignment) [e] ts) (hbody : Finds .statement body us) :
    Finds .statement (.whileLoop e body) (word :: left :: ts ++ right :: us) := by
  intro rest hends
  have hstops : Stops .assignment (right :: (us ++ rest)) := stops_rightParen hright
  refine eventually_of_succ ?_
  filter_upwards [he.eventually hstops, hbody rest hends] with n hn hn'
  simp only [List.append_assoc, List.cons_append, readStmt?, hword, List.tail_cons, hn, hn',
    Option.bind_eq_bind, Option.bind_some]

lemma finds_forLoop {init : Stmt} {condition increment : Option Expr} {ws : List Token}
    (hword : word.kind = .forWord) (hsemicolon : semicolon.kind = .semicolon)
    (hright : right.kind = .rightParen) (hinit : Finds .initializer init ts)
    (hcondition : Expr.Optional condition us) (hincrement : Expr.Optional increment vs)
    (hbody : Finds .statement body ws) : Finds .statement (.forLoop init condition increment body)
      (word :: left :: ts ++ us ++ semicolon :: vs ++ right :: ws) := by
  intro rest hends
  refine eventually_of_succ ?_
  filter_upwards [hinit (us ++ semicolon :: (vs ++ right :: (ws ++ rest))) trivial,
    hcondition.eventually (.inl hsemicolon) (vs ++ right :: (ws ++ rest)),
    hincrement.eventually (.inr hright) (ws ++ rest), hbody rest hends] with n hn₁ hn₂ hn₃ hn₄
  rw [hsemicolon] at hn₂
  rw [hright] at hn₃
  simp only [List.append_assoc, List.cons_append, readStmt?, hword, List.tail_cons, hn₁, hn₂, hn₃,
    hn₄, Option.bind_eq_bind, Option.bind_some]

lemma finds_ret {e? : Option Expr} (hword : word.kind = .returnWord)
    (hsemicolon : semicolon.kind = .semicolon) (he : Expr.Optional e? ts) :
    Finds .statement (.ret (e?.getD (.literal .nil))) (word :: ts ++ [semicolon]) := by
  intro rest _
  refine eventually_of_succ ?_
  filter_upwards [he.eventually (.inl hsemicolon) rest] with n hn
  rw [hsemicolon] at hn
  rw [List.append_assoc, List.cons_append, List.singleton_append, readStmt?, hword]
  dsimp only
  rw [hn]
  rfl

/-- The reader finds what was derived. -/
lemma Derives.finds {nt : Nonterminal} (h : Derives false nt s ts) (hs : s.NearestElse) :
    Finds nt s ts := by
  induction h with
  | done =>
    rintro _ ⟨t, us, rfl, ht⟩
    refine eventually_of_succ (.of_forall fun n => ?_)
    rw [List.nil_append, readStmt?]
    exact if_pos (by simpa using ht)
  | next h h' ih ih' => exact finds_next h h' (ih hs.1) (ih' hs.2)
  | declareFun hword _ _ hright _ hclose hps _ ih =>
    exact finds_declareFun hword hright hclose hps (ih hs)
  | @declareVar _ word name equal semicolon e ts hnt hword _ hequal hsemicolon he =>
    intro rest _
    refine eventually_of_succ ?_
    filter_upwards [eventually_readVar? hequal hsemicolon he rest] with n hn
    rcases hnt with rfl | rfl
    all_goals
      rw [List.append_assoc, List.cons_append, List.singleton_append, readStmt?, hword]
      exact hn
  | @declareNil _ word name semicolon hnt hword _ hsemicolon =>
    intro rest _
    refine eventually_of_succ (.of_forall fun n => ?_)
    rcases hnt with rfl | rfl
    all_goals
      rw [List.cons_append, readStmt?, hword]
      exact readVar?_nil hsemicolon n rest
  | ofStatement h ih =>
    intro rest hends
    have hread := ih hs rest hends
    obtain ⟨t, us, rfl, -, hfun, hvar⟩ := h.head_ne rfl
    refine eventually_of_succ ?_
    filter_upwards [hread] with n hn
    rw [List.cons_append, readStmt?]
    split
    · exact absurd ‹t.kind = _› hfun
    · exact absurd ‹t.kind = _› hvar
    · exact hn
  | @print word semicolon e ts hword hsemicolon he =>
    intro rest _
    have hstops : Stops .assignment (semicolon :: rest) := stops_semicolon hsemicolon
    refine eventually_of_succ ?_
    filter_upwards [he.eventually hstops] with n hn
    rw [List.append_assoc, List.cons_append, List.singleton_append, readStmt?, hword]
    dsimp only
    rw [hn]
    rfl
  | discard hnt hsemicolon he => exact finds_discard hnt hsemicolon he
  | echo hi => cases hi
  | branch hword _ hright he _ ih => exact finds_branch hword hright he (ih hs.1)
  | branchElse hword _ hright helse he _ hno ih ih' =>
    have hskip := hno.ne_skip
    exact finds_branchElse hword hright helse he hskip (hs.2.2.resolve_left hskip) (ih hs.1)
      (ih' hs.2.1)
  | whileLoop hword _ hright he _ ih => exact finds_whileLoop hword hright he (ih hs)
  | forLoop hword _ hsemicolon hright _ hcondition hincrement _ ih ih' =>
    exact finds_forLoop hword hsemicolon hright (ih hs.1) hcondition hincrement (ih' hs.2)
  | noInitializer hsemicolon =>
    intro rest _
    refine eventually_of_succ (.of_forall fun n => ?_)
    rw [List.singleton_append, readStmt?, hsemicolon]
  | @ret word semicolon e ts hword hsemicolon he =>
    exact finds_ret hword hsemicolon (.some he)
  | retNil hword hsemicolon => exact finds_ret hword hsemicolon .none
  | @block open_ close body ts hopen hclose _ ih =>
    intro rest _
    refine eventually_of_succ ?_
    filter_upwards [ih hs (close :: rest) ⟨close, rest, rfl, .inr hclose⟩] with n hn
    rw [List.append_assoc, List.cons_append, List.singleton_append, readStmt?, hopen]
    dsimp only
    rw [hn]
    rfl

/-- A program has one tree in which each `else` belongs to the nearest conditional. -/
lemma Derives.unique {s' : Stmt} (h : Derives false .declarations s ts) (hs : s.NearestElse)
    (h' : Derives false .declarations s' ts) (hs' : s'.NearestElse) : s = s' := by
  -- The reader needs a token to stop at.
  have hends : ∀ tree : Stmt, tree.Ends [Token.blank] .declarations :=
    fun _ => ⟨_, _, rfl, .inl rfl⟩
  obtain ⟨n, hn, hn'⟩ := ((h.finds hs _ (hends s)).and (h'.finds hs' _ (hends s'))).exists
  rw [hn] at hn'
  cases hn'
  rfl

end Stmt

end Lox
