import Lox.Proofs.Compiler.Limiting
import Lox.Proofs.Compiler.Termination
import Lox.Proofs.Semantics.Programs

/-!
# Nesting

A compilation is abandoned when declarations and expressions are nested too deeply.  So the
declarations of blocks and function bodies in an accepted source are nested no deeper than the limit,
and a source in which they are nested deeper is rejected.  If it is accepted with some other limit, so
that there is nothing else to report, then the error about the nesting is all that is reported
(`compile_nesting`).

How deep declarations are nested can be read off the tokens (`Token.levels`), and so it does not matter
which derivation of the tokens is looked at (`Stmt.Derives.nesting_eq`).

A statement that is itself a branch of a conditional or the body of a loop is not counted, and so
nothing bounds a chain of such statements except the length of the jumps in its code:
`compile_nestedLoops` says of loops around loops that they are accepted.
-/

namespace Lox

open Compiler

/-! ## How deep tokens are nested -/

/-- The greatest level of a declaration among the tokens, which are `depth` braces deep.  Whatever is no
closing brace is part of a declaration one level below the braces around it. -/
def Token.levels : (depth : Nat) → List Token → Nat
  | _, [] => 0
  | depth, t :: ts =>
    match t.kind with
    | .leftBrace => max (depth + 1) (levels (depth + 1) ts)
    | .rightBrace => levels (depth - 1) ts
    | _ => max (depth + 1) (levels depth ts)

/-- The level of what is derived, `depth` braces deep. -/
def Stmt.levelAt (depth : Nat) (s : Stmt) : Stmt.Nonterminal → Nat
  | .declarations => if s.nesting = 0 then 0 else depth + s.nesting
  | _ => depth + 1 + s.nesting

namespace Token

variable {t : Token} {ts : List Token}

/-- A token of an expression is on the level of its declaration. -/
lemma levels_cons_of_kinds (h : t.kind ∈ Expr.kinds) (depth : Nat) (ts : List Token) :
    levels depth (t :: ts) = max (depth + 1) (levels depth ts) := by
  rw [levels]
  split
  · rename_i hbrace
    simp [hbrace, Expr.kinds] at h
  · rename_i hbrace
    simp [hbrace, Expr.kinds] at h
  · rfl

lemma levels_append_of_kinds (h : ∀ t ∈ ts, t.kind ∈ Expr.kinds) (depth : Nat) (us : List Token) :
    max (depth + 1) (levels depth (ts ++ us)) = max (depth + 1) (levels depth us) := by
  induction ts with
  | nil => rfl
  | cons t ts ih =>
    obtain ⟨ht, hts⟩ := List.forall_mem_cons.1 h
    rw [List.cons_append, levels_cons_of_kinds ht, ← Nat.max_assoc, Nat.max_self, ih hts]

end Token

lemma Expr.Derives.levels {p : Precedence} {e : Expr} {ts : List Token}
    (h : Derives (.level p) [e] ts) (depth : Nat) (us : List Token) :
    Token.levels depth (ts ++ us) = max (depth + 1) (Token.levels depth us) := by
  obtain ⟨t, ts, rfl, -⟩ := h.exists_cons (List.cons_ne_nil _ _)
  obtain ⟨ht, hts⟩ := List.forall_mem_cons.1 h.kinds
  rw [List.cons_append, Token.levels_cons_of_kinds ht, Token.levels_append_of_kinds hts]

namespace Stmt

variable {i : Bool} {nt : Nonterminal} {s s' : Stmt} {ts : List Token}

lemma Derives.nesting_initializer (h : Derives i .initializer s ts) : s.nesting = 0 := by
  cases h <;> rfl

/-- The levels of the tokens are those of the tree. -/
lemma Derives.levels (h : Derives i nt s ts) (depth : Nat) (us : List Token) :
    Token.levels depth (ts ++ us) = max (s.levelAt depth nt) (Token.levels depth us) := by
  -- On the derivation; what is in a block or a body is one brace deeper, and what follows is not.
  induction h generalizing depth us with
  | done => simp [levelAt, nesting]
  | @next s rest ts ts' _ _ ih ih' =>
    have hseq : max (1 + s.nesting) rest.nesting ≠ 0 := by omega
    have hlevel : (Stmt.seq s rest).levelAt depth .declarations =
        depth + max (1 + s.nesting) rest.nesting := if_neg hseq
    rw [List.append_assoc, ih, ih', hlevel]
    simp only [levelAt]
    split <;> omega
  | ofStatement _ ih => exact ih depth us
  | @declareFun word name left right open_ close ps body ts ts' h₁ h₂ h₃ h₄ h₅ h₆ hps _ ih =>
    have hparameters := Token.levels_append_of_kinds hps.kinds depth
    simp only [List.append_assoc, List.cons_append, List.nil_append, Token.levels, h₁, h₂, h₃, h₄, h₅,
      h₆, hparameters, ih, levelAt, nesting, Nat.add_sub_cancel]
    split <;> omega
  | declareVar hnt h₁ h₂ h₃ h₄ he =>
    rcases hnt with rfl | rfl <;>
    · simp only [List.append_assoc, List.cons_append, List.nil_append, Token.levels, h₁, h₂, h₃, h₄,
        he.levels, levelAt, nesting]
      omega
  | declareNil hnt h₁ h₂ h₃ =>
    rcases hnt with rfl | rfl <;>
    · simp only [List.cons_append, List.nil_append, Token.levels, h₁, h₂, h₃, levelAt, nesting]
      omega
  | print h₁ h₂ he | ret h₁ h₂ he =>
    simp only [List.append_assoc, List.cons_append, List.nil_append, Token.levels, h₁, h₂, he.levels,
      levelAt, nesting]
    omega
  | retNil h₁ h₂ =>
    simp only [List.cons_append, List.nil_append, Token.levels, h₁, h₂, levelAt, nesting]
    omega
  | discard hnt h₁ he =>
    rcases hnt with rfl | rfl <;>
    · simp only [List.append_assoc, List.cons_append, List.nil_append, Token.levels, h₁, he.levels,
        levelAt, nesting]
      omega
  | echo _ he => simp only [he.levels, levelAt, nesting, Nat.add_zero]
  | branch h₁ h₂ h₃ he _ ih | whileLoop h₁ h₂ h₃ he _ ih =>
    simp only [List.append_assoc, List.cons_append, Token.levels, h₁, h₂, h₃, he.levels, ih, levelAt,
      nesting]
    omega
  | branchElse h₁ h₂ h₃ h₄ he _ _ ih ih' =>
    simp only [List.append_assoc, List.cons_append, Token.levels, h₁, h₂, h₃, h₄, he.levels, ih, ih',
      levelAt, nesting]
    omega
  | forLoop h₁ h₂ h₃ h₄ hinit hc hi _ ih ih' =>
    have hcondition := Token.levels_append_of_kinds hc.kinds depth
    have hincrement := Token.levels_append_of_kinds hi.kinds depth
    simp only [List.append_assoc, List.cons_append, Token.levels, h₁, h₂, h₃, h₄, hcondition,
      hincrement, ih, ih', levelAt, nesting, hinit.nesting_initializer]
    omega
  | noInitializer h₁ =>
    simp only [List.cons_append, List.nil_append, Token.levels, h₁, levelAt, nesting, Nat.add_zero]
  | block h₁ h₂ _ ih =>
    simp only [List.append_assoc, List.cons_append, List.nil_append, Token.levels, h₁, h₂, ih, levelAt,
      nesting, Nat.add_sub_cancel]
    split <;> omega

/-- However deep the declarations of a tree are nested, so deep they are in every tree of the same
tokens. -/
lemma Derives.nesting_eq (h : Derives i .declarations s ts) (h' : Derives i .declarations s' ts) :
    s.nesting = s'.nesting := by
  have hlevels := h.levels 0 []
  rw [h'.levels 0 []] at hlevels
  simp only [levelAt, Token.levels] at hlevels
  split at hlevels <;> split at hlevels <;> omega

end Stmt

/-! ## The limit -/

/-- What an accepted source was read as. -/
lemma exists_tree_of_script {interactive : Bool} {source : Text} {p : Prototype}
    (hp : compile interactive source = .script p) :
    ∃ body last tree, tokenize source = body ++ [last] ∧
      Stmt.Derives interactive .declarations tree body ∧ tree.NearestElse ∧
      tree.nesting ≤ maxNesting := by
  obtain ⟨body, last, tree, -, -, -, hnesting, htokens, -, hderives, hnearest, -⟩ :=
    compile_eq_script_of_nesting hp
  exact ⟨body, last, tree, htokens, hderives, hnearest, hnesting⟩

/-- Too deep a source is not accepted, whichever of its trees is the deep one. -/
lemma not_script_of_nesting {interactive : Bool} {source : Text} {tree : Stmt} {body : List Token}
    {last : Token} (htokens : tokenize source = body ++ [last])
    (hderives : Stmt.Derives interactive .declarations tree body) (hdeep : maxNesting < tree.nesting) :
    ¬ ∃ p, compile interactive source = .script p := by
  rintro ⟨p, hp⟩
  obtain ⟨body', last', tree', htokens', hderives', -, hnesting⟩ := exists_tree_of_script hp
  obtain ⟨rfl, -⟩ := List.append_inj' (htokens.symm.trans htokens') rfl
  rw [hderives.nesting_eq hderives'] at hdeep
  exact Nat.not_le.2 hdeep hnesting

/-- The declarations of an accepted source are nested no deeper than the limit.  A source in which they
are nested deeper is rejected, outside interactive mode never for its grammar, and with the error about
the nesting alone if it is accepted with some other limit. -/
theorem compile_nesting (interactive : Bool) (source : Text) :
    (∀ p, compile interactive source = .script p →
      ∃ body last tree, tokenize source = body ++ [last] ∧
        Stmt.Derives interactive .declarations tree body ∧ tree.NearestElse ∧
        tree.nesting ≤ maxNesting) ∧
      ∀ tree body last, tokenize source = body ++ [last] →
        Stmt.Derives interactive .declarations tree body → maxNesting < tree.nesting →
        (∃ e es, compile interactive source = .rejected (e :: es) ∧
          (interactive = false → e.cause.BeyondGrammar)) ∧
        ∀ limit, acceptedWithin limit interactive source →
          ∃ e, compile interactive source = .rejected [e] ∧
            e.cause.message = "Maximum nesting depth exceeded" := by
  refine ⟨fun _ => exists_tree_of_script, fun tree body last htokens hderives hdeep => ?_⟩
  have hrefused := not_script_of_nesting htokens hderives hdeep
  refine ⟨?_, fun limit hlimit => ?_⟩
  · cases interactive with
    | false =>
      obtain ⟨tree', hderives', hnearest⟩ := hderives.exists_nearest
      obtain ⟨e, es, hrejected, hcause⟩ :=
        (compile_of_derives htokens hderives' hnearest).resolve_left hrefused
      exact ⟨e, es, hrejected, fun _ => hcause⟩
    | true =>
      obtain ⟨e, es, hrejected⟩ :=
        (Compiler.compile_script_or_rejected (.new true) source).resolve_left hrefused
      exact ⟨e, es, hrejected, fun h => absurd h (by decide)⟩
  · obtain ⟨line, hrejected⟩ := (compile_of_acceptedWithin hlimit).resolve_left hrefused
    exact ⟨_, hrejected, rfl⟩

/-! ### Blocks in blocks -/

/-- So many blocks, each alone in the one before. -/
def nestedBlocks (n : Nat) : Text :=
  List.replicate n '{'.toUInt8 ++ List.replicate n '}'.toUInt8

/-- The tree of blocks in blocks. -/
def Stmt.nestedBlocks : Nat → Stmt
  | 0 => .skip
  | n + 1 => .seq (.block (nestedBlocks n)) .skip

lemma Stmt.nesting_nestedBlocks (n : Nat) : (Stmt.nestedBlocks n).nesting = n := by
  induction n with
  | zero => rfl
  | succ n ih =>
    simp only [nestedBlocks, nesting, ih]
    omega

lemma Stmt.derives_nestedBlocks (interactive : Bool) (n : Nat) {ts : List Token}
    (h : ts.map (·.kind) = List.replicate n .leftBrace ++ List.replicate n .rightBrace) :
    Stmt.Derives interactive .declarations (.nestedBlocks n) ts := by
  induction n generalizing ts with
  | zero =>
    obtain rfl := List.map_eq_nil_iff.1 h
    exact .done
  | succ n ih =>
    rw [List.replicate_succ, List.replicate_succ', ← List.append_assoc] at h
    obtain ⟨inside, after, rfl, hinside, hafter⟩ := List.map_eq_append_iff.1 h
    obtain ⟨open_, ts, rfl, hopen, hts⟩ := List.map_eq_cons_iff.1 hinside
    obtain ⟨close, rfl, hclose⟩ := List.map_eq_singleton_iff.1 hafter
    have hblock := Stmt.Derives.block hopen hclose (ih hts)
    have hone := Stmt.Derives.next (.ofStatement hblock) .done
    rwa [List.append_nil] at hone

/-- Three blocks in each other are accepted; a block more than the limit allows is an error, and the only
one, in both modes. -/
theorem compile_nesting_blocks :
    (∃ p, ∃ tree : Stmt, compile false (nestedBlocks 3) = .script p ∧ tree.IsTreeOf (nestedBlocks 3) ∧
      tree.nesting ≤ maxNesting) ∧
      maxNesting < (Stmt.nestedBlocks 257).nesting ∧
      (acceptedWithin 300 false (nestedBlocks 257) ∧
        ∃ e, compile false (nestedBlocks 257) = .rejected [e] ∧
          e.cause.message = "Maximum nesting depth exceeded") ∧
      acceptedWithin 300 true (nestedBlocks 257) ∧
        ∃ e, compile true (nestedBlocks 257) = .rejected [e] ∧
          e.cause.message = "Maximum nesting depth exceeded" := by
  obtain ⟨p, hp⟩ := (acceptedWithin_maxNesting false (nestedBlocks 3)).1 (by decide +kernel)
  obtain ⟨few, eof, tree, htokens, hfew, hnearest, hshallow⟩ :=
    (compile_nesting false (nestedBlocks 3)).1 p hp
  obtain ⟨body, last, hmany, -⟩ := tokenize_eq_append (nestedBlocks 257)
  have hkinds : (tokenize (nestedBlocks 257)).map (·.kind) =
      List.replicate 257 .leftBrace ++ List.replicate 257 .rightBrace ++ [.eof] := by
    decide +kernel
  rw [hmany, List.map_append] at hkinds
  have hbody := (List.append_inj' hkinds rfl).1
  have hdeep : maxNesting < (Stmt.nestedBlocks 257).nesting := by
    rw [Stmt.nesting_nestedBlocks]
    decide
  have hfile : acceptedWithin 300 false (nestedBlocks 257) := by decide +kernel
  have hprompt : acceptedWithin 300 true (nestedBlocks 257) := by decide +kernel
  have hrejected (interactive : Bool) :=
    ((compile_nesting interactive (nestedBlocks 257)).2 _ body last hmany
      (Stmt.derives_nestedBlocks interactive 257 hbody) hdeep).2 300
  exact ⟨⟨p, tree, hp, ⟨few, eof, htokens, hfew, hnearest⟩, hshallow⟩, hdeep,
    ⟨hfile, hrejected false hfile⟩, hprompt, hrejected true hprompt⟩


/-! ## Loops around loops -/

/-- So many loops, each the body of the one before, around an empty block. -/
def nestedLoops : Nat → Text
  | 0 => "{}"
  | n + 1 => "for(;;)" ++ nestedLoops n

/-- The tree of loops around loops. -/
def Stmt.nestedLoops : Nat → Stmt
  | 0 => .block .skip
  | n + 1 => .forLoop .skip none none (nestedLoops n)

/-- The kinds of the tokens of loops around loops. -/
def nestedLoopKinds : Nat → List Token.Kind
  | 0 => [.leftBrace, .rightBrace]
  | n + 1 => [.forWord, .leftParen, .semicolon, .semicolon, .rightParen] ++ nestedLoopKinds n

lemma length_nestedLoopKinds (n : Nat) : (nestedLoopKinds n).length = 5 * n + 2 := by
  induction n with
  | zero => rfl
  | succ n ih =>
    rw [nestedLoopKinds, List.length_append, ih]
    simp only [List.length_cons, List.length_nil]
    omega

lemma Stmt.chain_nestedLoops (n : Nat) : (Stmt.nestedLoops n).chain = n + 1 := by
  induction n with
  | zero => rfl
  | succ n ih =>
    rw [nestedLoops, chain, ih]
    omega

lemma Stmt.nesting_nestedLoops (n : Nat) : (Stmt.nestedLoops n).nesting = 0 := by
  induction n with
  | zero => rfl
  | succ n ih => rw [nestedLoops, nesting, ih]

lemma Stmt.nearestElse_nestedLoops (n : Nat) : (Stmt.nestedLoops n).NearestElse := by
  induction n with
  | zero => trivial
  | succ n ih => exact ⟨trivial, ih⟩

lemma Stmt.derives_nestedLoops (n : Nat) {ts : List Token}
    (h : ts.map (·.kind) = nestedLoopKinds n) :
    Stmt.Derives false .statement (.nestedLoops n) ts := by
  induction n generalizing ts with
  | zero =>
    obtain ⟨open_, ts, rfl, hopen, h⟩ := List.map_eq_cons_iff.1 h
    obtain ⟨close, ts, rfl, hclose, h⟩ := List.map_eq_cons_iff.1 h
    obtain rfl := List.map_eq_nil_iff.1 h
    have hnone : Stmt.Derives false .declarations .skip [] := .done
    have hblock := Stmt.Derives.block hopen hclose hnone
    exact hblock
  | succ n ih =>
    obtain ⟨word, ts, rfl, hword, h⟩ := List.map_eq_cons_iff.1 h
    obtain ⟨left, ts, rfl, hleft, h⟩ := List.map_eq_cons_iff.1 h
    obtain ⟨first, ts, rfl, hfirst, h⟩ := List.map_eq_cons_iff.1 h
    obtain ⟨second, ts, rfl, hsecond, h⟩ := List.map_eq_cons_iff.1 h
    obtain ⟨right, ts, rfl, hright, h⟩ := List.map_eq_cons_iff.1 h
    have hnone : Expr.Optional none [] := .none
    have hloop := Stmt.Derives.forLoop hword hleft hsecond hright (.noInitializer hfirst) hnone hnone
      (ih h)
    exact hloop

/-! ### Their tokens -/

namespace Cursor

/-- At a byte that begins a token, that token is next. -/
lemma next_of_matchToken {b : UInt8} {bs : Text} (p : Position) {m : Lexer.Match}
    (hblank : Lexer.isBlank b = false) (hslash : b ≠ '/'.toUInt8) (hm : Lexer.matchToken b bs = m) :
    (next ⟨b :: bs, p⟩).1.kind = m.kind ∧ (next ⟨b :: bs, p⟩).2.rest = m.rest := by
  have hskip : skipTrivia ⟨b :: bs, p⟩ = ⟨b :: bs, p⟩ := by
    simp [skipTrivia, skipTriviaFrom, hblank, hslash]
  rw [next, hskip]
  exact ⟨congrArg Lexer.Match.kind hm, congrArg Lexer.Match.rest hm⟩

/-- From wherever this stretch of source begins, these are the kinds of its tokens. -/
def LexesAs (t : Text) (ks : List Token.Kind) : Prop :=
  ∀ p bound done, t.length ≤ bound →
    ((⟨t, p⟩ : Cursor).tokensLoop bound done).1.map (·.kind) = done.reverse.map (·.kind) ++ ks

lemma lexesAs_nil : LexesAs [] [.eof] := by
  intro p bound done _
  have hnext : next ⟨[], p⟩ = (⟨.eof, [], p.line, p.column, p.offset, p.offset⟩, ⟨[], p⟩) := rfl
  cases bound <;> simp [tokensLoop, hnext]

lemma LexesAs.cons {b : UInt8} {bs : Text} {ks : List Token.Kind} {m : Lexer.Match}
    (hblank : Lexer.isBlank b = false) (hslash : b ≠ '/'.toUInt8) (hm : Lexer.matchToken b bs = m)
    (h : LexesAs m.rest ks) : LexesAs (b :: bs) (m.kind :: ks) := by
  intro p bound done hbound
  obtain ⟨hkind, hrest⟩ := next_of_matchToken p hblank hslash hm
  obtain ⟨hne, hlt⟩ : m.kind ≠ .eof ∧ m.rest.length < (b :: bs).length := by
    have hne : m.kind ≠ .eof := hm ▸ Lexer.matchToken_kind_ne_eof b bs
    have hlt := ((next_eof_or_lt ⟨b :: bs, p⟩).resolve_left (hkind ▸ hne)).2
    exact ⟨hne, hrest ▸ hlt⟩
  obtain ⟨bound, rfl⟩ : ∃ n, bound = n + 1 := ⟨bound - 1, by simp at hbound; omega⟩
  have htail := h (next ⟨b :: bs, p⟩).2.position bound ((next ⟨b :: bs, p⟩).1 :: done)
    (by simp at hbound hlt; omega)
  rw [tokensLoop]
  dsimp only
  rw [if_neg (hkind ▸ hne)]
  rw [← hrest] at htail
  simpa [hkind] using htail

end Cursor

open Cursor in
lemma lexesAs_nestedLoops (n : Nat) : LexesAs (nestedLoops n) (nestedLoopKinds n ++ [.eof]) := by
  induction n with
  | zero =>
    refine .cons (m := ⟨.leftBrace, "\x7b", "\x7d"⟩) rfl (by decide) rfl ?_
    exact .cons (m := ⟨.rightBrace, "\x7d", []⟩) rfl (by decide) rfl lexesAs_nil
  | succ n ih =>
    refine .cons (m := ⟨.forWord, "for", "(;;)" ++ nestedLoops n⟩) rfl (by decide) rfl ?_
    refine .cons (m := ⟨.leftParen, "(", ";;)" ++ nestedLoops n⟩) rfl (by decide) rfl ?_
    refine .cons (m := ⟨.semicolon, ";", ";)" ++ nestedLoops n⟩) rfl (by decide) rfl ?_
    refine .cons (m := ⟨.semicolon, ";", ")" ++ nestedLoops n⟩) rfl (by decide) rfl ?_
    exact .cons (m := ⟨.rightParen, ")", nestedLoops n⟩) rfl (by decide) rfl ih

lemma tokenize_nestedLoops (n : Nat) : (tokenize (nestedLoops n)).map (·.kind) = nestedLoopKinds n ++ [.eof] :=
  lexesAs_nestedLoops n .start _ [] (Nat.le_refl _)

/-! ### Their compilation -/

namespace Compiler

/-- A token is consumed if the kinds of the tokens to come are known. -/
lemma advance_of_kinds {s : State} {k k' : Token.Kind} {ks : List Token.Kind}
    (h : (s.current :: s.rest).map (·.kind) = k :: k' :: ks) (hk' : ∀ why, k' ≠ .error why) :
    s.current.kind = k ∧ ∃ u us, (u :: us).map (·.kind) = k' :: ks ∧
      s.advance = { s with previous := s.current, current := u, rest := us } := by
  obtain ⟨hk, hrest⟩ := List.cons.inj h
  obtain ⟨u, us, hus, hu, htail⟩ := List.map_eq_cons_iff.1 hrest
  exact ⟨hk, u, us, by simp [hu, htail], advance_of_rest hus (hu ▸ hk')⟩

/-- Locals that belong to no deeper block stay when it is closed. -/
lemma endScope_of_head {s : State}
    (h : ∀ l ∈ s.scope.locals.head?, Local.inBlock s.scope.depth l = false) :
    endScope s = .ok () { s with scope := { s.scope with depth := s.scope.depth - 1 } } := by
  have hspan : s.scope.locals.span (Local.inBlock s.scope.depth) = ([], s.scope.locals) := by
    cases hlocals : s.scope.locals with
    | nil => rfl
    | cons l ls =>
      have hl := h l (by simp [hlocals])
      simp [List.span_eq_takeWhile_dropWhile, hl]
  rw [endScope_apply, hspan]
  rfl

/-- An empty block before the end of the source. -/
lemma parse_emptyBlock (fuel : Nat) {s : State}
    (hkinds : (s.current :: s.rest).map (·.kind) = [.leftBrace, .rightBrace, .eof])
    (hlocals : ∀ l ∈ s.scope.locals.head?, Local.inBlock (s.scope.depth + 1) l = false) :
    ∃ previous current, current.kind = .eof ∧
      parse (fuel + 2) .statement s = .ok () { s with previous, current, rest := [] } := by
  obtain ⟨hopen, u, us, hu, hadvance⟩ := advance_of_kinds hkinds (by simp)
  let inside : State := { s with
    previous := s.current, current := u, rest := us
    scope := { s.scope with depth := s.scope.depth + 1 } }
  obtain ⟨hclose, v, vs, hv, hadvance'⟩ := advance_of_kinds (s := inside) hu (by simp)
  obtain ⟨hend, hvs⟩ : v.kind = .eof ∧ vs = [] := by simpa using hv
  have hblock : compileBlock (fuel + 1) (parse (fuel + 1)) inside = .ok () inside.advance := by
    change (loop (fuel + 1) (blockStep _) >>= fun _ => consume .rightBrace .braceAfterBlock) inside = _
    rw [bind_apply, loop_blockStep_apply, if_pos (.inl hclose)]
    dsimp only
    rw [consume_apply, if_pos hclose]
  refine ⟨u, v, hend, ?_⟩
  calc parse (fuel + 2) .statement s
      = (do beginScope; compileBlock (fuel + 1) (parse (fuel + 1)); endScope) s.advance := by
        simp [parse, compileStatement, bind_apply, accept_apply, hopen]
    _ = endScope inside.advance := by
        rw [hadvance, bind_apply, beginScope, modify_apply]
        dsimp only
        rw [bind_apply, hblock]
    _ = .ok () { s with previous := u, current := v, rest := [] } := by
        rw [hadvance', endScope_of_head hlocals, hvs]
        rfl

/-- The head of a loop without clauses; its body is a statement and no declaration. -/
lemma parse_loopHead (fuel : Nat) {s : State} {k : Token.Kind} {ks : List Token.Kind}
    (hkinds : (s.current :: s.rest).map (·.kind) =
      .forWord :: .leftParen :: .semicolon :: .semicolon :: .rightParen :: k :: ks)
    (hk : ∀ why, k ≠ .error why) :
    ∃ previous current rest, (current :: rest).map (·.kind) = k :: ks ∧
      parse (fuel + 1) .statement s =
        (parse fuel .statement >>= fun _ => emitLoop s.scope.chunk.code.size >>= fun _ => endScope)
          { s with
            previous, current, rest
            scope := { s.scope with depth := s.scope.depth + 1 } } := by
  obtain ⟨hword, t₁, ts₁, h₁, hadvance₁⟩ := advance_of_kinds hkinds (by simp)
  let s₁ : State := { s with
    previous := s.current, current := t₁, rest := ts₁
    scope := { s.scope with depth := s.scope.depth + 1 } }
  obtain ⟨hleft, t₂, ts₂, h₂, hadvance₂⟩ := advance_of_kinds (s := s₁) h₁ (by simp)
  let s₂ : State := { s₁ with previous := t₁, current := t₂, rest := ts₂ }
  obtain ⟨hfirst, t₃, ts₃, h₃, hadvance₃⟩ := advance_of_kinds (s := s₂) h₂ (by simp)
  let s₃ : State := { s₂ with previous := t₂, current := t₃, rest := ts₃ }
  obtain ⟨hsecond, t₄, ts₄, h₄, hadvance₄⟩ := advance_of_kinds (s := s₃) h₃ (by simp)
  let s₄ : State := { s₃ with previous := t₃, current := t₄, rest := ts₄ }
  obtain ⟨hright, t₅, ts₅, h₅, hadvance₅⟩ := advance_of_kinds (s := s₄) h₄ hk
  let s₅ : State := { s₄ with previous := t₄, current := t₅, rest := ts₅ }
  have hfor : parse (fuel + 1) .statement s = compileFor (parse fuel) s.advance := by
    simp [parse, compileStatement, bind_apply, accept_apply, hword]
  have hbegin : beginScope s.advance = .ok () s₁ := by
    rw [hadvance₁]
    rfl
  have hparen : consume .leftParen .parenAfterFor s₁ = .ok () s₂ := by
    rw [consume_apply, if_pos hleft, hadvance₂]
  have hinitializer : compileForInitializer (parse fuel) s₂ = .ok () s₃ := by
    simp only [compileForInitializer, bind_apply, accept_apply]
    rw [if_pos hfirst, hadvance₃]
    rfl
  have hcondition : compileForCondition (parse fuel) s₃ = .ok none s₄ := by
    simp only [compileForCondition, bind_apply, accept_apply]
    rw [if_pos hsecond, hadvance₄]
    rfl
  have hincrement (start : Nat) : compileForIncrement (parse fuel) start s₄ = .ok start s₅ := by
    simp only [compileForIncrement, bind_apply, accept_apply]
    rw [if_pos hright, hadvance₅]
    rfl
  refine ⟨t₄, t₅, ts₅, h₅, ?_⟩
  rw [hfor, compileFor]
  simp only [bind_apply, hbegin, hparen, hinitializer, codeSize_apply, hcondition, hincrement]
  rfl

/-- The first token of loops around loops. -/
lemma exists_nestedLoopKinds_cons (n : Nat) :
    ∃ k ks, nestedLoopKinds n ++ [.eof] = k :: ks ∧ (k = .forWord ∨ k = .leftBrace) := by
  cases n with
  | zero => exact ⟨_, _, rfl, .inr rfl⟩
  | succ n => exact ⟨_, _, rfl, .inl rfl⟩

lemma parse_nestedLoops (n : Nat) {fuel : Nat} {s : State} (hfuel : n + 2 ≤ fuel)
    (hn : 3 * n ≤ Chunk.maxShort)
    (hkinds : (s.current :: s.rest).map (·.kind) = nestedLoopKinds n ++ [.eof])
    (hlocals : ∀ l ∈ s.scope.locals.head?, Local.inBlock (s.scope.depth + 1) l = false) :
    ∃ t, parse fuel .statement s = .ok () t ∧ t.current.kind = .eof ∧ t.rest = [] ∧
      t.errors = s.errors ∧ t.panicking = s.panicking ∧ t.scope.locals = s.scope.locals ∧
      t.scope.depth = s.scope.depth ∧
      t.scope.chunk.code.size = s.scope.chunk.code.size + 3 * n := by
  induction n generalizing fuel s with
  | zero =>
    obtain ⟨fuel, rfl⟩ : ∃ k, fuel = k + 2 := ⟨fuel - 2, by omega⟩
    obtain ⟨previous, current, hend, hrun⟩ := parse_emptyBlock fuel hkinds hlocals
    exact ⟨_, hrun, hend, rfl, rfl, rfl, rfl, rfl, rfl⟩
  | succ n ih =>
    obtain ⟨fuel, rfl⟩ : ∃ k, fuel = k + 1 := ⟨fuel - 1, by omega⟩
    obtain ⟨k, ks, hfirst, hk⟩ := exists_nestedLoopKinds_cons n
    have hloop : (s.current :: s.rest).map (·.kind) =
        .forWord :: .leftParen :: .semicolon :: .semicolon :: .rightParen :: k :: ks := by
      rw [hkinds, ← hfirst]
      rfl
    obtain ⟨previous, current, rest, hinner, hhead⟩ := parse_loopHead fuel hloop
      (by rcases hk with rfl | rfl <;> simp)
    let inside : State := { s with
      previous, current, rest
      scope := { s.scope with depth := s.scope.depth + 1 } }
    have hdeeper : ∀ l ∈ inside.scope.locals.head?, Local.inBlock (inside.scope.depth + 1) l = false := by
      intro l hl
      have hout := hlocals l hl
      cases hdepth : l.depth with
      | none => simp [Local.inBlock, hdepth] at hout
      | some d =>
        simp only [Local.inBlock, hdepth, decide_eq_false_iff_not] at hout ⊢
        exact fun hle => hout (Nat.le_trans (Nat.le_succ _) hle)
    obtain ⟨u, hrun, hend, hrest, herrors, hpanicking, hlocals', hdepth, hsize⟩ :=
      ih (s := inside) (Nat.le_of_succ_le_succ hfuel) (by omega) (by rw [hfirst]; exact hinner)
        hdeeper
    have hsize' : u.scope.chunk.code.size = s.scope.chunk.code.size + 3 * n := hsize
    let v := u.write ⟨.loop, 3 * n + 3⟩ u.previous.line
    have hloop : emitLoop s.scope.chunk.code.size u = .ok () v := by
      have hdistance : u.scope.chunk.code.size + 3 - s.scope.chunk.code.size = 3 * n + 3 := by omega
      rw [emitLoop_apply _ u (by omega), hdistance]
      exact if_neg (by omega)
    have hclose : endScope v =
        .ok () { v with scope := { v.scope with depth := v.scope.depth - 1 } } := by
      refine endScope_of_head ?_
      change ∀ l ∈ u.scope.locals.head?, Local.inBlock u.scope.depth l = false
      rw [hlocals', hdepth]
      exact hlocals
    refine ⟨{ v with scope := { v.scope with depth := v.scope.depth - 1 } }, ?_, hend, hrest, herrors,
      hpanicking, hlocals', ?_, ?_⟩
    · rw [hhead, bind_apply, hrun]
      dsimp only
      rw [bind_apply, hloop]
      exact hclose
    · exact (congrArg (· - 1) hdepth).trans (Nat.add_sub_cancel _ _)
    · simp [v, State.write, State.mapChunk, Instruction.size, Opcode.size, Opcode.operandWidth, hsize']
      omega

/-- A declaration that is a loop or a block is compiled as the statement it is. -/
lemma parse_declaration_of_statement {fuel : Nat} {s t : State} (hnesting : s.nesting < maxNesting)
    (hkind : s.current.kind ∉ [.classWord, .funWord, .varWord])
    (h : parse fuel .statement { s with nesting := s.nesting + 1 } = .ok () t)
    (hcalm : t.panicking = false) :
    parse (fuel + 1) .declaration s = .ok () { t with nesting := t.nesting - 1 } := by
  simp only [List.mem_cons, List.not_mem_nil, or_false, not_or] at hkind
  obtain ⟨hclass, hfun, hvar⟩ := hkind
  rw [parse, compileDeclaration, nested_apply, if_neg (Nat.not_le.2 hnesting)]
  simp [bind_apply, accept_apply, hclass, hfun, hvar, h, get_apply, hcalm, pure_apply]

/-- A program of loops around loops has no error. -/
lemma program_nestedLoops {n fuel : Nat} {s : State} (hfuel : n + 4 ≤ fuel)
    (hn : 3 * n ≤ Chunk.maxShort) (hnesting : s.nesting = 0) (hcalm : s.panicking = false)
    (hscope : s.scope = .new .script [])
    (hkinds : s.rest.map (·.kind) = nestedLoopKinds n ++ [.eof]) :
    ∃ p t, program fuel s = .ok p t ∧ t.errors = s.errors := by
  obtain ⟨fuel, rfl⟩ : ∃ k, fuel = k + 2 := ⟨fuel - 2, by omega⟩
  obtain ⟨k, ks, hfirst, hk⟩ := exists_nestedLoopKinds_cons n
  have hnext : (s.current :: s.rest).map (·.kind) = s.current.kind :: k :: ks := by
    rw [List.map_cons, hkinds, hfirst]
  obtain ⟨-, u, us, hus, hadvance⟩ := advance_of_kinds hnext (by rcases hk with rfl | rfl <;> simp)
  have hu : u.kind = k := (List.cons.inj hus).1
  have hfuel' : n + 2 ≤ fuel + 1 := by omega
  obtain ⟨t, hrun, hend, hrest, herrors, hpanicking, -⟩ := parse_nestedLoops n hfuel'
    (s := { s.advance with nesting := s.advance.nesting + 1 }) hn
    (by rw [hadvance]; exact hus.trans hfirst.symm)
    (by simp [hadvance, hscope, FunctionScope.new, Local.inBlock])
  have hdeclaration : parse (fuel + 2) .declaration s.advance =
      .ok () { t with nesting := t.nesting - 1 } := by
    refine parse_declaration_of_statement ?_ ?_ hrun ?_
    · rw [hadvance, hnesting]
      decide
    · rw [hadvance]
      rcases hk with rfl | rfl <;> simp [hu]
    · rw [hpanicking, hadvance]
      exact hcalm
  let last : State := { t with nesting := t.nesting - 1 }
  have hloop : loop (fuel + 2) (programStep (fuel + 2)) s.advance = .ok () last.advance := by
    rw [loop_programStep_apply, if_neg, bind_apply, hdeclaration]
    · exact (loop_programStep_apply fuel (fuel + 2) last).trans (if_pos hend)
    · rw [hadvance]
      rcases hk with rfl | rfl <;> simp [hu]
  have hclean : last.advance.errors = s.errors := by
    have hkept : s.advance.errors = s.errors := by rw [hadvance]
    rw [advance_of_rest_nil (s := last) hrest]
    exact herrors.trans hkept
  have hprogram : program (fuel + 2) s = finishFunction last.advance := by
    rw [program_eq, bind_apply, advance_apply]
    dsimp only
    rw [bind_apply, hloop]
  exact ⟨_, _, hprogram.trans (finishFunction_apply last.advance), hclean⟩

end Compiler

/-- Loops around loops are accepted, however many there are, as long as the jumps in their code are not
too long. -/
theorem compile_nestedLoops {n : Nat} (hn : 3 * n ≤ Chunk.maxShort) :
    (∃ p, compile false (nestedLoops n) = .script p) ∧
      (Stmt.seq (.nestedLoops n) .skip).IsTreeOf (nestedLoops n) ∧
      (Stmt.seq (.nestedLoops n) .skip).chain = n + 1 ∧
      (Stmt.seq (.nestedLoops n) .skip).nesting = 1 := by
  have hkinds := tokenize_nestedLoops n
  have hfuel : n + 4 ≤ fuelFor (tokenize (nestedLoops n)).length := by
    have hlength := congrArg List.length hkinds
    rw [List.length_map] at hlength
    rw [fuelFor, hlength, List.length_append, length_nestedLoopKinds]
    omega
  refine ⟨?_, ?_, ?_, ?_⟩
  · obtain ⟨p, t, hrun, herrors⟩ := program_nestedLoops hfuel
      (s := (Compiler.new false).start (tokenize (nestedLoops n))) hn rfl rfl rfl hkinds
    exact ⟨p, by rw [compile_of_program hrun, herrors]; rfl⟩
  · obtain ⟨body, last, htokens, hlast, -⟩ := tokenize_eq_append (nestedLoops n)
    rw [htokens, List.map_append] at hkinds
    have hderives := Stmt.derives_nestedLoops n (List.append_inj' hkinds rfl).1
    refine ⟨body, last, htokens, ?_, Stmt.nearestElse_nestedLoops n, trivial⟩
    simpa using Stmt.Derives.next (.ofStatement hderives) .done
  · simp [Stmt.chain, Stmt.chain_nestedLoops]
  · simp [Stmt.nesting, Stmt.nesting_nestedLoops]

/-- A chain of statements that is longer than the limit on nesting, in a source that is accepted. -/
theorem exists_script_of_long_chain :
    ∃ p, compile false (nestedLoops 256) = .script p ∧
      (Stmt.seq (.nestedLoops 256) .skip).IsTreeOf (nestedLoops 256) ∧
      maxNesting < (Stmt.seq (.nestedLoops 256) .skip).chain := by
  obtain ⟨⟨p, hp⟩, htree, hchain, -⟩ := compile_nestedLoops (n := 256) (by decide)
  exact ⟨p, hp, htree, by rw [hchain]; decide⟩

end Lox
