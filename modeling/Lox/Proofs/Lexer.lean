import Mathlib.Tactic.Common
import Lox.Lexer

/-!
# The end of the tokens

A token other than the end token covers at least one byte, so the bytes of a source bound the
number of its tokens, and reading stops at the end token and nowhere else: `tokenize_eq_append`.
-/

namespace Lox

namespace Lexer

/-- What a match covers is the byte it was tried at and bytes after it, and the others are left. -/
def Match.Splits (m : Match) (b : UInt8) (bs : Text) : Prop :=
  ∃ more, m.covered = b :: more ∧ more ++ m.rest = bs

lemma matchWord_splits (b : UInt8) (bs : Text) : (matchWord b bs).Splits b bs :=
  ⟨_, rfl, List.takeWhile_append_dropWhile⟩

lemma matchNumber_splits (b : UInt8) (bs : Text) : (matchNumber b bs).Splits b bs := by
  have hwhole : bs.takeWhile isDigit ++ bs.dropWhile isDigit = bs :=
    List.takeWhile_append_dropWhile
  rw [matchNumber]
  split
  · rename_i point d more hdrop
    rw [hdrop] at hwhole
    split
    · refine ⟨bs.takeWhile isDigit ++ point :: (d :: more).takeWhile isDigit, rfl, ?_⟩
      dsimp only
      rw [List.append_assoc, List.cons_append, List.takeWhile_append_dropWhile, hwhole]
    · exact ⟨_, rfl, hwhole⟩
  · exact ⟨_, rfl, hwhole⟩

lemma matchString_splits (b : UInt8) (bs : Text) : (matchString b bs).Splits b bs := by
  have hwhole : bs.takeWhile (· != '"'.toUInt8) ++ bs.dropWhile (· != '"'.toUInt8) = bs :=
    List.takeWhile_append_dropWhile
  rw [matchString]
  split
  · rename_i quote rest hdrop
    rw [hdrop] at hwhole
    exact ⟨bs.takeWhile (· != '"'.toUInt8) ++ [quote], rfl, by simpa using hwhole⟩
  · rename_i hdrop
    rw [hdrop] at hwhole
    exact ⟨_, rfl, hwhole⟩

lemma matchComparison_splits (b : UInt8) (bs : Text) (short long : Token.Kind) :
    (matchComparison b bs short long).Splits b bs := by
  cases bs with
  | nil => exact ⟨_, rfl, rfl⟩
  | cons c rest =>
    rw [matchComparison]
    split
    · exact ⟨_, rfl, rfl⟩
    · exact ⟨_, rfl, rfl⟩

/-- A token form covers the byte it begins with, and what it does not cover is left. -/
lemma matchToken_splits (b : UInt8) (bs : Text) : (matchToken b bs).Splits b bs := by
  rw [matchToken]
  split
  · exact matchWord_splits b bs
  split
  · exact matchNumber_splits b bs
  split
  · exact ⟨_, rfl, rfl⟩
  split
  · exact matchComparison_splits b bs _ _
  split
  · exact matchString_splits b bs
  · exact ⟨_, rfl, rfl⟩

lemma ofWord_ne_eof (w : Text) : Token.Kind.ofWord w ≠ .eof := by
  rw [Token.Kind.ofWord]
  cases h : Token.Kind.keywords.lookup w with
  | none => simp
  | some k =>
    have hmem : (w, k) ∈ Token.Kind.keywords := by
      obtain ⟨before, after, hsplit, -⟩ := List.lookup_eq_some_iff.1 h
      simp [hsplit]
    have hall : ∀ p ∈ Token.Kind.keywords, p.2 ≠ .eof := by decide
    exact hall (w, k) hmem

lemma punctuation?_ne_eof {b : UInt8} {k : Token.Kind} (h : punctuation? b = some k) :
    k ≠ .eof := by
  rintro rfl
  simp [punctuation?, ite_eq_iff] at h

lemma comparison?_ne_eof {b : UInt8} {short long : Token.Kind}
    (h : comparison? b = some (short, long)) : short ≠ .eof ∧ long ≠ .eof := by
  rw [comparison?] at h
  split at h
  · cases h
    simp
  split at h
  · cases h
    simp
  split at h
  · cases h
    simp
  split at h
  · cases h
    simp
  · cases h

lemma matchNumber_kind (b : UInt8) (bs : Text) : (matchNumber b bs).kind = .number := by
  rw [matchNumber]
  split
  · split <;> rfl
  · rfl

lemma matchToken_kind_ne_eof (b : UInt8) (bs : Text) : (matchToken b bs).kind ≠ .eof := by
  rw [matchToken]
  split
  · exact ofWord_ne_eof _
  split
  · simp [matchNumber_kind]
  split
  · rename_i k h
    exact punctuation?_ne_eof h
  split
  · rename_i short long h
    obtain ⟨hshort, hlong⟩ := comparison?_ne_eof h
    cases bs with
    | nil => exact hshort
    | cons c rest =>
      rw [matchComparison]
      split
      · exact hlong
      · exact hshort
  split
  · rw [matchString]
    split <;> simp
  · simp

end Lexer

namespace Cursor

lemma length_skipTriviaFrom_le (inComment : Bool) (t : Text) (p : Position) :
    (skipTriviaFrom inComment t p).rest.length ≤ t.length := by
  fun_induction skipTriviaFrom inComment t p with
  | case1 => simp
  | case2 b bs p ih => simp; omega
  | case3 b bs p h ih => simp; omega
  | case4 b bs p h h' ih => simp; omega
  | case5 b bs p h h' => simp

/-- The next token is the end token, or it takes a byte. -/
lemma next_eof_or_lt (c : Cursor) :
    c.next.1.kind = .eof ∨
      c.next.1.kind ≠ .eof ∧ c.next.2.rest.length < c.rest.length := by
  have hskip : c.skipTrivia.rest.length ≤ c.rest.length := length_skipTriviaFrom_le _ _ _
  rw [next]
  dsimp only
  split
  · exact .inl rfl
  · rename_i b bs hrest
    refine .inr ⟨Lexer.matchToken_kind_ne_eof b bs, ?_⟩
    obtain ⟨more, -, hmore⟩ := Lexer.matchToken_splits b bs
    have hlen : more.length + (Lexer.matchToken b bs).rest.length = bs.length := by
      rw [← List.length_append, hmore]
    rw [hrest, List.length_cons] at hskip
    dsimp only
    omega

lemma tokensLoop_eq_append (bound : Nat) (c : Cursor) (done : List Token)
    (h : c.rest.length ≤ bound) :
    ∃ body last, (c.tokensLoop bound done).1 = done.reverse ++ body ++ [last] ∧
      last.kind = .eof ∧ ∀ t ∈ body, t.kind ≠ .eof := by
  induction bound generalizing c done with
  | zero =>
    refine ⟨[], c.next.1, by simp [tokensLoop], ?_, by simp⟩
    rcases c.next_eof_or_lt with h' | ⟨-, h'⟩
    · exact h'
    · omega
  | succ bound ih =>
    rw [tokensLoop]
    dsimp only
    split
    · rename_i heof
      exact ⟨[], c.next.1, by simp, heof, by simp⟩
    · rename_i hne
      rcases c.next_eof_or_lt with h' | ⟨-, h'⟩
      · exact absurd h' hne
      · obtain ⟨body, last, heq, hlast, hbody⟩ := ih c.next.2 (c.next.1 :: done) (by omega)
        refine ⟨c.next.1 :: body, last, by simpa using heq, hlast, ?_⟩
        intro t ht
        rcases List.mem_cons.1 ht with rfl | ht
        · exact hne
        · exact hbody t ht

lemma mem_tokensLoop {bound : Nat} {c : Cursor} {done : List Token} {t : Token}
    (h : t ∈ (c.tokensLoop bound done).1) : t ∈ done ∨ ∃ c' : Cursor, t = c'.next.1 := by
  have hlast : ∀ {c : Cursor} {done : List Token}, t ∈ (c.next.1 :: done).reverse →
      t ∈ done ∨ ∃ c' : Cursor, t = c'.next.1 := by
    intro c done ht
    rcases List.mem_cons.1 (List.mem_reverse.1 ht) with ht | ht
    · exact .inr ⟨c, ht⟩
    · exact .inl ht
  induction bound generalizing c done with
  | zero => exact hlast h
  | succ bound ih =>
    rw [tokensLoop] at h
    dsimp only at h
    split at h
    · exact hlast h
    · rcases ih h with ht | ht
      · exact hlast (List.mem_reverse.2 ht)
      · exact .inr ht

/-- A name is spelled with what it covers, which is not nothing. -/
lemma next_lexeme_ne_nil {c : Cursor} (h : c.next.1.kind = .identifier) : c.next.1.lexeme ≠ [] := by
  rw [next] at h ⊢
  dsimp only at h ⊢
  split at h
  · cases h
  · rename_i b bs _
    obtain ⟨more, hcovered, -⟩ := Lexer.matchToken_splits b bs
    dsimp only at h ⊢
    simp [h, hcovered]

end Cursor

/-- Names have at least one byte. -/
lemma lexeme_ne_nil_of_mem_tokenize {source : Text} {t : Token} (h : t ∈ tokenize source)
    (hkind : t.kind = .identifier) : t.lexeme ≠ [] := by
  rcases Cursor.mem_tokensLoop h with h | ⟨c, rfl⟩
  · simp at h
  · exact Cursor.next_lexeme_ne_nil hkind

/-- The tokens of a source are any number of tokens and the end token. -/
theorem tokenize_eq_append (source : Text) :
    ∃ body last, tokenize source = body ++ [last] ∧ last.kind = .eof ∧
      ∀ t ∈ body, t.kind ≠ .eof := by
  obtain ⟨body, last, h, hlast, hbody⟩ :=
    (Cursor.ofSource source).tokensLoop_eq_append _ [] (Nat.le_refl _)
  exact ⟨body, last, by simpa [tokenize, Cursor.tokens] using h, hlast, hbody⟩

end Lox
