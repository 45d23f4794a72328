import Lox.Proofs.Lexer

/-!
# Sources that go on

If a source goes on after a line feed, then its tokens are the same up to where it ended, and the
rest follows: no token but a string reaches over the end of a line.
-/

namespace Lox

namespace Lexer

lemma continuesWord_newline : continuesWord Text.newline = false := by decide

lemma isDigit_newline : isDigit Text.newline = false := by decide

lemma takeWhile_newline {p : UInt8 → Bool} (hp : p Text.newline = false) (t more : Text) :
    (t ++ Text.newline :: more).takeWhile p = t.takeWhile p := by
  induction t with
  | nil => simp [hp]
  | cons b t ih => simp [List.takeWhile_cons, ih]

lemma dropWhile_newline {p : UInt8 → Bool} (hp : p Text.newline = false) (t more : Text) :
    (t ++ Text.newline :: more).dropWhile p = t.dropWhile p ++ Text.newline :: more := by
  induction t with
  | nil => simp [hp]
  | cons b t ih =>
    simp only [List.cons_append, List.dropWhile_cons, ih]
    split <;> rfl

/-- The same match with a line feed and more after it. -/
def Match.followed (m : Match) (more : Text) : Match :=
  { m with rest := m.rest ++ Text.newline :: more }

lemma matchWord_followed (b : UInt8) (bs more : Text) :
    matchWord b (bs ++ Text.newline :: more) = (matchWord b bs).followed more := by
  simp only [matchWord, Match.followed, takeWhile_newline continuesWord_newline,
    dropWhile_newline continuesWord_newline]

lemma matchNumber_followed (b : UInt8) (bs more : Text) :
    matchNumber b (bs ++ Text.newline :: more) = (matchNumber b bs).followed more := by
  have htake := takeWhile_newline isDigit_newline bs more
  have hdrop := dropWhile_newline isDigit_newline bs more
  rw [matchNumber, matchNumber, hdrop, htake]
  rcases bs.dropWhile isDigit with _ | ⟨point, _ | ⟨d, rest⟩⟩
  · cases more with
    | nil => rfl
    | cons d more => exact if_neg (by simp [show Text.newline ≠ '.'.toUInt8 by decide])
  · exact if_neg (by simp [isDigit_newline])
  · show (if (decide (point = '.'.toUInt8) && isDigit d) = true then _ else _) =
      Match.followed (if (decide (point = '.'.toUInt8) && isDigit d) = true then _ else _) more
    rw [apply_ite (Match.followed · more)]
    refine if_congr Iff.rfl ?_ rfl
    have htake' := takeWhile_newline isDigit_newline (d :: rest) more
    have hdrop' := dropWhile_newline isDigit_newline (d :: rest) more
    rw [List.cons_append] at htake' hdrop'
    rw [Match.followed, List.append_eq, htake', hdrop']

lemma matchString_followed (b : UInt8) (bs more : Text)
    (h : (matchString b bs).kind ≠ .error .unterminatedString) :
    matchString b (bs ++ Text.newline :: more) = (matchString b bs).followed more := by
  rw [matchString] at h ⊢
  rw [matchString]
  have hwhole : bs.takeWhile (· != '"'.toUInt8) ++ bs.dropWhile (· != '"'.toUInt8) = bs :=
    List.takeWhile_append_dropWhile
  rw [List.dropWhile_append, List.takeWhile_append]
  cases hdrop : bs.dropWhile (· != '"'.toUInt8) with
  | nil =>
    rw [hdrop] at h
    exact absurd rfl h
  | cons quote rest =>
    have hshort : (bs.takeWhile (· != '"'.toUInt8)).length ≠ bs.length := by
      have hlength := congrArg List.length hwhole
      rw [hdrop, List.length_append, List.length_cons] at hlength
      omega
    rw [if_neg hshort]
    rfl

lemma matchComparison_followed (b : UInt8) (bs more : Text) (short long : Token.Kind) :
    matchComparison b (bs ++ Text.newline :: more) short long =
      (matchComparison b bs short long).followed more := by
  cases bs with
  | nil => rfl
  | cons c rest =>
    rw [List.cons_append, matchComparison, matchComparison]
    split <;> rfl

lemma matchToken_followed (b : UInt8) (bs more : Text)
    (h : (matchToken b bs).kind ≠ .error .unterminatedString) :
    matchToken b (bs ++ Text.newline :: more) = (matchToken b bs).followed more := by
  rw [matchToken] at h ⊢
  rw [matchToken]
  split
  · exact matchWord_followed b bs more
  split
  · exact matchNumber_followed b bs more
  split
  · rfl
  split
  · exact matchComparison_followed b bs more _ _
  split
  · rename_i hword hdigit _ hpunctuation _ hcomparison hquote
    rw [if_neg hword, if_neg hdigit, hpunctuation] at h
    dsimp only at h
    rw [hcomparison] at h
    dsimp only at h
    rw [if_pos hquote] at h
    exact matchString_followed b bs more h
  · rfl

lemma ofWord_ne_error (w : Text) (why : LexicalError) : Token.Kind.ofWord w ≠ .error why := by
  rw [Token.Kind.ofWord]
  cases h : Token.Kind.keywords.lookup w with
  | none => simp
  | some k =>
    obtain ⟨before, after, hsplit, -⟩ := List.lookup_eq_some_iff.1 h
    have hall : ∀ p ∈ Token.Kind.keywords, ∀ why, p.2 ≠ .error why := by simp [Token.Kind.keywords]
    exact hall (w, k) (by simp [hsplit]) why

lemma comparison?_ne_error {b : UInt8} {short long : Token.Kind}
    (h : comparison? b = some (short, long)) (why : LexicalError) :
    short ≠ .error why ∧ long ≠ .error why := by
  constructor <;> rintro rfl <;> simp [comparison?, ite_eq_iff] at h

/-- A string that is not closed begins with a quotation mark, and no other one follows. -/
lemma matchToken_of_unterminated {b : UInt8} {bs : Text}
    (h : (matchToken b bs).kind = .error .unterminatedString) :
    (∀ bs', matchToken b bs' = matchString b bs') ∧ bs.dropWhile (· != '"'.toUInt8) = [] := by
  have htoken : ∀ bs', matchToken b bs' = matchString b bs' := by
    intro bs'
    rw [matchToken] at h ⊢
    split at h
    · exact absurd h (ofWord_ne_error _ _)
    rename_i hword
    split at h
    · simp [matchNumber_kind] at h
    rename_i hdigit
    rw [if_neg hword, if_neg hdigit]
    split at h
    · rename_i kind hpunctuation
      cases h
      simp [punctuation?, ite_eq_iff] at hpunctuation
    split at h
    · rename_i short long hcomparison
      obtain ⟨hshort, hlong⟩ := comparison?_ne_error hcomparison .unterminatedString
      cases bs with
      | nil => exact absurd h hshort
      | cons c rest =>
        rw [matchComparison] at h
        split at h
        · exact absurd h hlong
        · exact absurd h hshort
    split at h
    · rename_i hquote
      rw [if_pos hquote]
    · cases h
  refine ⟨htoken, ?_⟩
  rw [htoken, matchString] at h
  split at h
  · cases h
  · rename_i hdrop
    exact hdrop

lemma matchString_of_dropWhile_eq_nil {b : UInt8} {bs : Text}
    (h : bs.dropWhile (· != '"'.toUInt8) = []) :
    (matchString b bs).kind = .error .unterminatedString ∧ (matchString b bs).rest = [] := by
  rw [matchString, h]
  exact ⟨rfl, rfl⟩

/-- A string that is not closed takes all that is left. -/
lemma matchToken_rest_of_unterminated {b : UInt8} {bs : Text}
    (h : (matchToken b bs).kind = .error .unterminatedString) : (matchToken b bs).rest = [] := by
  obtain ⟨htoken, hdrop⟩ := matchToken_of_unterminated h
  rw [htoken]
  exact (matchString_of_dropWhile_eq_nil hdrop).2

/-- The end of the line does not close a string. -/
lemma matchToken_newline_of_unterminated {b : UInt8} {bs : Text}
    (h : (matchToken b bs).kind = .error .unterminatedString) :
    (matchToken b (bs ++ [Text.newline])).kind = .error .unterminatedString := by
  obtain ⟨htoken, hdrop⟩ := matchToken_of_unterminated h
  rw [htoken]
  refine (matchString_of_dropWhile_eq_nil ?_).1
  rw [List.dropWhile_append, hdrop]
  rfl

end Lexer

namespace Cursor

/-- The same cursor in a source that goes on with a line feed and more. -/
def followed (c : Cursor) (more : Text) : Cursor :=
  { c with rest := c.rest ++ Text.newline :: more }

/-- Where the next line begins if the source ends at a cursor. -/
def nextLine (c : Cursor) (more : Text) : Cursor :=
  { rest := more, position := c.position.step Text.newline }

lemma skipTriviaFrom_followed (inComment : Bool) (t more : Text) (p : Position) :
    skipTriviaFrom inComment (t ++ Text.newline :: more) p =
      if (skipTriviaFrom inComment t p).rest = [] then
        ((skipTriviaFrom inComment t p).nextLine more).skipTrivia
      else (skipTriviaFrom inComment t p).followed more := by
  fun_induction skipTriviaFrom inComment t p with
  | case1 inComment p =>
    cases inComment <;> rfl
  | case2 b bs p ih => exact ih
  | case3 b bs p h ih =>
    rw [List.cons_append, skipTriviaFrom, if_pos h]
    exact ih
  | case4 b bs p h h' ih =>
    rw [List.cons_append, skipTriviaFrom, if_neg h, if_pos]
    · exact ih
    · cases bs with
      | nil => simp at h'
      | cons c bs => exact h'
  | case5 b bs p h h' =>
    rw [List.cons_append, skipTriviaFrom, if_neg h, if_neg, if_neg (List.cons_ne_nil b bs)]
    · rfl
    · cases bs with
      | nil =>
        have hnot : Text.newline ≠ '/'.toUInt8 := by decide
        simp [hnot]
      | cons c bs => exact h'

lemma skipTrivia_followed (c : Cursor) (more : Text) :
    (c.followed more).skipTrivia =
      if c.skipTrivia.rest = [] then (c.skipTrivia.nextLine more).skipTrivia
      else c.skipTrivia.followed more :=
  skipTriviaFrom_followed false c.rest more c.position

/-- The token at a byte that is no trivia, and the cursor after it. -/
def tokenAt (b : UInt8) (bs : Text) (p : Position) : Token × Cursor :=
  let m := Lexer.matchToken b bs
  let after := p.over m.covered
  let lexeme := match m.kind with
    | .error why => why.message
    | _ => m.covered
  ({ kind := m.kind, lexeme, line := p.line, column := p.column, start := p.offset,
     stop := after.offset }, { rest := m.rest, position := after })

lemma next_of_nil {c : Cursor} (h : c.skipTrivia.rest = []) :
    c.next.1.kind = .eof ∧ c.next.2 = c.skipTrivia := by
  rw [next]
  dsimp only
  rw [h]
  exact ⟨rfl, rfl⟩

lemma next_of_cons {c : Cursor} {b : UInt8} {bs : Text} (h : c.skipTrivia.rest = b :: bs) :
    c.next = tokenAt b bs c.skipTrivia.position := by
  rw [next]
  dsimp only
  rw [h]
  rfl

/-- The source ends here, but for blanks and comments. -/
lemma next_followed_of_end {c : Cursor} (h : c.next.1.kind = .eof) (more : Text) :
    (c.followed more).next = (c.next.2.nextLine more).next := by
  have hrest : c.skipTrivia.rest = [] := by
    cases hrest : c.skipTrivia.rest with
    | nil => rfl
    | cons b bs =>
      rw [next_of_cons hrest] at h
      exact absurd h (Lexer.matchToken_kind_ne_eof b bs)
  have hskip := skipTrivia_followed c more
  rw [if_pos hrest] at hskip
  rw [(next_of_nil hrest).2, next, next, hskip]

lemma next_followed {c : Cursor} (hend : c.next.1.kind ≠ .eof)
    (hstring : c.next.1.kind ≠ .error .unterminatedString) (more : Text) :
    (c.followed more).next = (c.next.1, c.next.2.followed more) := by
  cases hrest : c.skipTrivia.rest with
  | nil => exact absurd (next_of_nil hrest).1 hend
  | cons b bs =>
    have hskip := skipTrivia_followed c more
    rw [if_neg (by simp [hrest])] at hskip
    have hfollowed : (c.followed more).skipTrivia.rest = b :: (bs ++ Text.newline :: more) := by
      rw [hskip, followed, hrest]
      rfl
    rw [next_of_cons hrest] at hstring ⊢
    rw [next_of_cons hfollowed, hskip, tokenAt, Lexer.matchToken_followed b bs more hstring]
    rfl

/-- A string that is not closed is not closed by the end of the line. -/
lemma next_newline_of_unterminated {c : Cursor} (h : c.next.1.kind = .error .unterminatedString) :
    (c.followed []).next.1.kind = .error .unterminatedString := by
  cases hrest : c.skipTrivia.rest with
  | nil =>
    rw [(next_of_nil hrest).1] at h
    cases h
  | cons b bs =>
    have hskip := skipTrivia_followed c []
    rw [if_neg (by simp [hrest])] at hskip
    have hfollowed : (c.followed []).skipTrivia.rest = b :: (bs ++ [Text.newline]) := by
      rw [hskip, followed, hrest]
      rfl
    rw [next_of_cons hrest] at h
    rw [next_of_cons hfollowed]
    exact Lexer.matchToken_newline_of_unterminated h

/-- These are the tokens from here on, the end token included. -/
inductive Lexes : Cursor → List Token → Prop
  | last {c : Cursor} : c.next.1.kind = .eof → Lexes c [c.next.1]
  | cons {c : Cursor} {ts : List Token} : c.next.1.kind ≠ .eof → Lexes c.next.2 ts →
      Lexes c (c.next.1 :: ts)

lemma Lexes.unique {c : Cursor} {ts us : List Token} (h : c.Lexes ts) (h' : c.Lexes us) : us = ts := by
  induction h generalizing us with
  | last hend =>
    cases h' with
    | last _ => rfl
    | cons hmore _ => exact absurd hend hmore
  | cons hmore _ ih =>
    cases h' with
    | last hend => exact absurd hend hmore
    | cons _ h' => rw [ih h']

lemma Lexes.of_next {c d : Cursor} {ts : List Token} (h : d.Lexes ts) (hnext : c.next = d.next) :
    c.Lexes ts := by
  cases h with
  | last hend =>
    rw [← hnext] at hend ⊢
    exact .last hend
  | cons hmore hts =>
    rw [← hnext] at hmore hts ⊢
    exact .cons hmore hts

lemma exists_lexes (bound : Nat) (c : Cursor) (done : List Token) (h : c.rest.length ≤ bound) :
    ∃ ts, (c.tokensLoop bound done).1 = done.reverse ++ ts ∧ c.Lexes ts := by
  induction bound generalizing c done with
  | zero =>
    refine ⟨[c.next.1], by simp [tokensLoop], .last ?_⟩
    rcases c.next_eof_or_lt with h' | ⟨-, h'⟩
    · exact h'
    · omega
  | succ bound ih =>
    rw [tokensLoop]
    dsimp only
    split
    · rename_i hend
      exact ⟨[c.next.1], by simp, .last hend⟩
    · rename_i hmore
      have hlt := c.next_eof_or_lt.resolve_left hmore
      obtain ⟨ts, heq, hts⟩ := ih c.next.2 (c.next.1 :: done) (by omega)
      exact ⟨c.next.1 :: ts, by simpa using heq, .cons hmore hts⟩

/-- Which tokens are the same if the source goes on after a line feed: all but the end token and a
string that is not closed.  The others are the tokens from a cursor on. -/
lemma Lexes.followed {c : Cursor} {ts : List Token} (h : c.Lexes ts) :
    ∃ (body tail : List Token) (c' : Cursor), ts = body ++ tail ∧ c'.Lexes tail ∧
      (∀ t ∈ body, t.kind ≠ .eof ∧ t.kind ≠ .error .unterminatedString) ∧
      (c'.next.1.kind = .eof ∨ c'.next.1.kind = .error .unterminatedString) ∧
      ∀ more us, (c'.followed more).Lexes us → (c.followed more).Lexes (body ++ us) := by
  induction h with
  | @last c hend => exact ⟨[], _, c, rfl, .last hend, by simp, .inl hend, fun _ _ h => h⟩
  | @cons c ts hmore hts ih =>
    by_cases hstring : c.next.1.kind = .error .unterminatedString
    · exact ⟨[], _, c, rfl, .cons hmore hts, by simp, .inr hstring, fun _ _ h => h⟩
    · obtain ⟨body, tail, c', rfl, htail, hbody, hstop, hfollowed⟩ := ih
      refine ⟨c.next.1 :: body, tail, c', rfl, htail, ?_, hstop, fun more us hus => ?_⟩
      · exact List.forall_mem_cons.2 ⟨⟨hmore, hstring⟩, hbody⟩
      · have hnext := next_followed hmore hstring more
        have hcons : (c.followed more).Lexes ((c.followed more).next.1 :: (body ++ us)) :=
          .cons (by rw [hnext]; exact hmore) (by rw [hnext]; exact hfollowed more us hus)
        rw [hnext] at hcons
        exact hcons

/-- After an unclosed string there is nothing but the end. -/
lemma Lexes.of_unterminated {c : Cursor} {ts : List Token} (h : c.Lexes ts)
    (hstring : c.next.1.kind = .error .unterminatedString) :
    ∃ last, last.kind = .eof ∧ ts = [c.next.1, last] := by
  have hrest : c.next.2.rest = [] := by
    cases hskip : c.skipTrivia.rest with
    | nil =>
      rw [(next_of_nil hskip).1] at hstring
      cases hstring
    | cons b bs =>
      rw [next_of_cons hskip] at hstring ⊢
      exact Lexer.matchToken_rest_of_unterminated hstring
  have hend : c.next.2.next.1.kind = .eof := by
    refine (next_of_nil ?_).1
    rw [skipTrivia, hrest]
    rfl
  cases h with
  | last h => exact absurd (h.symm.trans hstring) (by simp)
  | cons _ hts => exact ⟨_, hend, by rw [hts.unique (.last hend)]⟩

end Cursor

lemma lexes_tokenize (source : Text) : (Cursor.ofSource source).Lexes (tokenize source) := by
  obtain ⟨ts, heq, hts⟩ := Cursor.exists_lexes _ (Cursor.ofSource source) [] (Nat.le_refl _)
  have hsame : tokenize source = ts := heq
  exact hsame ▸ hts

/-- How the beginning of a source ends: nothing follows, or a string that is not closed. -/
inductive BreaksOff : List Token → Prop
  | last {e : Token} : e.kind = .eof → BreaksOff [e]
  | unterminated {t e : Token} : t.kind = .error .unterminatedString → e.kind = .eof → BreaksOff [t, e]

/-- The tokens of the first lines of a source are the first ones of the source, except for a string
that is not closed within these lines. -/
theorem tokenize_lines (source more : Text) :
    ∃ shared last after, BreaksOff last ∧ (∀ t ∈ shared, t.kind ≠ .eof) ∧
      tokenize (source ++ [Text.newline]) = shared ++ last ∧
      tokenize (source ++ Text.newline :: more) = shared ++ after := by
  obtain ⟨shared, tail, c, -, -, hshared, hstop, hfollowed⟩ := (lexes_tokenize source).followed
  have htokens : ∀ more us, (c.followed more).Lexes us →
      tokenize (source ++ Text.newline :: more) = shared ++ us := fun more us hus =>
    ((lexes_tokenize _).unique (hfollowed more us hus)).symm
  obtain ⟨after, -, hafter⟩ := Cursor.exists_lexes _ (c.followed more) [] (Nat.le_refl _)
  obtain ⟨last, -, hlast⟩ := Cursor.exists_lexes _ (c.followed []) [] (Nat.le_refl _)
  refine ⟨shared, last, after, ?_, fun t ht => (hshared t ht).1, htokens [] last hlast,
    htokens more after hafter⟩
  rcases hstop with hend | hstring
  · have hover : (c.followed []).next.1.kind = .eof := by
      rw [Cursor.next_followed_of_end hend]
      rfl
    rw [(Cursor.Lexes.last hover).unique hlast]
    exact .last hover
  · have hopen := Cursor.next_newline_of_unterminated hstring
    obtain ⟨e, he, rfl⟩ := hlast.of_unterminated hopen
    exact .unterminated hopen he

/-- The tokens of a source that goes on after a line feed, if no string was left open. -/
theorem tokenize_followed {source : Text} {body : List Token} {last : Token}
    (h : tokenize source = body ++ [last])
    (hbody : ∀ t ∈ body, t.kind ≠ .error .unterminatedString) :
    ∃ p : Position, ∀ more us, (⟨more, p⟩ : Cursor).Lexes us →
      tokenize (source ++ Text.newline :: more) = body ++ us := by
  obtain ⟨body', tail, c, hsplit, htail, -, hstop, hfollowed⟩ := (lexes_tokenize source).followed
  rw [h] at hsplit
  rcases hstop with hend | hstring
  · have hsame : body ++ [last] = body' ++ [c.next.1] := hsplit.trans (by
      rw [(Cursor.Lexes.last hend).unique htail])
    obtain ⟨rfl, -⟩ := List.append_inj' hsame rfl
    refine ⟨c.next.2.position.step Text.newline, fun more us hus => ?_⟩
    refine (lexes_tokenize (source ++ Text.newline :: more)).unique (hfollowed more us ?_) |>.symm
    exact hus.of_next (Cursor.next_followed_of_end hend more)
  · -- The string would be among the tokens.
    obtain ⟨last', -, rfl⟩ := htail.of_unterminated hstring
    have hsame : body ++ [last] = (body' ++ [c.next.1]) ++ [last'] := by simpa using hsplit
    obtain ⟨rfl, -⟩ := List.append_inj' hsame rfl
    exact absurd hstring (hbody c.next.1 (by simp))

/-- A source without lexical errors that goes on with a line feed and a semicolon. -/
theorem tokenize_semicolon {source : Text} {body : List Token} {last : Token}
    (h : tokenize source = body ++ [last])
    (hbody : ∀ t ∈ body, t.kind ≠ .error .unterminatedString) :
    ∃ semicolon last', semicolon.kind = .semicolon ∧ last'.kind = .eof ∧
      tokenize (source ++ "\n;") = body ++ [semicolon, last'] := by
  obtain ⟨p, hfollowed⟩ := tokenize_followed h hbody
  have hnext : (⟨[';'.toUInt8], p⟩ : Cursor).next = Cursor.tokenAt ';'.toUInt8 [] p :=
    Cursor.next_of_cons rfl
  have hsemicolon : (Cursor.tokenAt ';'.toUInt8 [] p).1.kind = .semicolon := rfl
  have hend : (Cursor.tokenAt ';'.toUInt8 [] p).2.next.1.kind = .eof := rfl
  refine ⟨_, _, hsemicolon, hend, hfollowed _ _ ?_⟩
  have hlexes : (⟨[';'.toUInt8], p⟩ : Cursor).Lexes ((⟨[';'.toUInt8], p⟩ : Cursor).next.1 ::
      [(Cursor.tokenAt ';'.toUInt8 [] p).2.next.1]) :=
    .cons (by rw [hnext]; simp [hsemicolon]) (by rw [hnext]; exact .last hend)
  rw [hnext] at hlexes
  exact hlexes

end Lox
