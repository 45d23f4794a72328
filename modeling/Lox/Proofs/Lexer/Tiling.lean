import Mathlib.Algebra.Group.Nat.Defs
import Mathlib.Data.List.Induction
import Mathlib.Data.List.TakeWhile
import Lox.Proofs.Lexer

/-!
# Tokens tile the source

The forms that tokens have are said without a lexer (`Lexer.Form`), and so is what may stand between
tokens (`Lexer.Gap`).  `Lexer.Tiles` lays tokens out over a source: each stands behind a gap, takes
the longest stretch of bytes that has a form, and notes where it stands by what is in front of it.
Bytes that have no form become error tokens.

There is exactly one such layout of a source, and reading the source gives it (`tokenize_tiles`).  For
that, `matchToken` is compared with the forms: what it covers has one
(`matchToken_form`), and no form reaches further (`Form.length_le_covered`).
-/

namespace Lox

namespace Lexer

/-! ## Token forms -/

/-- The spellings of the operators. -/
def operators : List (Text × Token.Kind) :=
  [("(", .leftParen), (")", .rightParen), ("\x7b", .leftBrace), ("\x7d", .rightBrace), (",", .comma),
   (".", .dot), (";", .semicolon), ("-", .minus), ("+", .plus), ("/", .slash), ("*", .star),
   ("!", .bang), ("!=", .bangEqual), ("=", .equal), ("==", .equalEqual), ("<", .less),
   ("<=", .lessEqual), (">", .greater), (">=", .greaterEqual)]

/-- The words with a kind of their own. -/
def reservedWords : List (Text × Token.Kind) :=
  [("and", .andWord), ("class", .classWord), ("else", .elseWord), ("false", .falseWord),
   ("for", .forWord), ("fun", .funWord), ("if", .ifWord), ("nil", .nilWord), ("or", .orWord),
   ("print", .printWord), ("return", .returnWord), ("super", .superWord), ("this", .thisWord),
   ("true", .trueWord), ("typeof", .typeofWord), ("var", .varWord), ("while", .whileWord)]

/-- The letters, and the underscore, which counts as one. -/
def letters : Text :=
  "abcdefghijklmnopqrstuvwxyzABCDEFGHIJKLMNOPQRSTUVWXYZ_"

/-- The decimal digits. -/
def digits : Text := "0123456789"

/-- Space, tab, carriage return and line feed. -/
def blanks : Text := " \t\r\n"

/-- Letters and digits, of which the first is a letter. -/
def IsWord (w : Text) : Prop :=
  (∃ b ∈ w.head?, b ∈ letters) ∧ ∀ c ∈ w, c ∈ letters ∨ c ∈ digits

/-- At least one digit. -/
def IsDigits (w : Text) : Prop :=
  w ≠ [] ∧ ∀ d ∈ w, d ∈ digits

/-- The double quote. -/
def quote : UInt8 := '"'.toUInt8

/-- The bytes are spelled as a token of this kind is. -/
inductive Form : Token.Kind → Text → Prop
  | keyword {w : Text} {k : Token.Kind} : (w, k) ∈ reservedWords → Form k w
  | identifier {w : Text} : IsWord w → (∀ k, (w, k) ∉ reservedWords) → Form .identifier w
  | whole {ds : Text} : IsDigits ds → Form .number ds
  | fraction {ds es : Text} : IsDigits ds → IsDigits es → Form .number (ds ++ '.'.toUInt8 :: es)
  | string {inner : Text} : (∀ c ∈ inner, c ≠ quote) → Form .string (quote :: inner ++ [quote])
  | operator {w : Text} {k : Token.Kind} : (w, k) ∈ operators → Form k w

/-- Of the forms that the source begins with, this is the longest. -/
def Longest (k : Token.Kind) (w rest : Text) : Prop :=
  Form k w ∧ ∀ k' w', Form k' w' → w' <+: w ++ rest → w'.length ≤ w.length

/-- No form begins with the byte. -/
def Stray (b : UInt8) : Prop :=
  ∀ k w, Form k w → w.head? ≠ some b

/-! ## Gaps -/

/-- What stands in front of `rest` and is no part of a token: blanks, and comments up to the end of
the line or of the source. -/
inductive Gap : Text → Text → Prop
  | none {rest : Text} : (∀ b, rest.head? = some b → b ∉ blanks) →
      ¬ ['/'.toUInt8, '/'.toUInt8] <+: rest → Gap [] rest
  | blank {b : UInt8} {gap rest : Text} : b ∈ blanks → Gap gap rest → Gap (b :: gap) rest
  | comment {body gap rest : Text} : (∀ c ∈ body, c ≠ Text.newline) → Gap gap rest →
      Gap ('/'.toUInt8 :: '/'.toUInt8 :: body ++ Text.newline :: gap) rest
  | last {body : Text} : (∀ c ∈ body, c ≠ Text.newline) →
      Gap ('/'.toUInt8 :: '/'.toUInt8 :: body) []

end Lexer

/-! ## Positions -/

/-- The line behind some bytes: one more than the line feeds among them. -/
def lineBehind (before : Text) : Nat :=
  1 + before.count Text.newline

/-- The column behind some bytes: one more than the bytes after their last line feed. -/
def columnBehind (before : Text) : Nat :=
  1 + (before.reverse.takeWhile (· != Text.newline)).length

/-- The token that covers some bytes, behind others.  Lines and columns are counted in words. -/
def Token.behind (before covered : Text) (kind : Token.Kind) (lexeme : Text) : Token :=
  { kind, lexeme
    line := .ofNat (lineBehind before)
    column := .ofNat (columnBehind before)
    start := before.length
    stop := before.length + covered.length }

namespace Lexer

/-- The tokens cover what is left of a source, behind what was already covered. -/
inductive Tiles : Text → Text → List Token → Prop
  /-- In the end there is nothing but a gap. -/
  | finish {before gap : Text} : Gap gap [] →
      Tiles before gap [.behind (before ++ gap) [] .eof []]
  | token {before gap w rest : Text} {k : Token.Kind} {ts : List Token} :
      Gap gap (w ++ rest) → Longest k w rest → Tiles (before ++ gap ++ w) rest ts →
      Tiles before (gap ++ w ++ rest) (.behind (before ++ gap) w k w :: ts)
  /-- A byte that no form begins with. -/
  | stray {before gap rest : Text} {b : UInt8} {ts : List Token} :
      Gap gap (b :: rest) → Stray b → Tiles (before ++ gap ++ [b]) rest ts →
      Tiles before (gap ++ [b] ++ rest)
        (.behind (before ++ gap) [b] (.error .unexpectedCharacter) "Unexpected character." :: ts)
  /-- A quote with no other behind it. -/
  | unclosed {before gap inner : Text} {ts : List Token} :
      Gap gap (quote :: inner) → (∀ c ∈ inner, c ≠ quote) →
      Tiles (before ++ gap ++ quote :: inner) [] ts →
      Tiles before (gap ++ quote :: inner)
        (.behind (before ++ gap) (quote :: inner) (.error .unterminatedString)
          "Unterminated string." :: ts)

/-! ## Byte classes -/

/-- There are few bytes enough to go through them. -/
lemma forall_byte {p : UInt8 → Prop} (h : ∀ n < 256, p (UInt8.ofNat n)) (b : UInt8) : p b := by
  have hb := h b.toNat b.toNat_lt
  rwa [UInt8.ofNat_toNat] at hb

lemma mem_letters (b : UInt8) : b ∈ letters ↔ beginsWord b := by
  have hbegins : ∀ c ∈ letters, beginsWord c := by decide +kernel
  have hletter : ∀ c, beginsWord c → c ∈ letters := forall_byte (by decide +kernel)
  exact ⟨hbegins b, hletter b⟩

lemma mem_digits : ∀ b : UInt8, b ∈ digits ↔ isDigit b :=
  forall_byte (by decide +kernel)

lemma mem_blanks : ∀ b : UInt8, b ∈ blanks ↔ isBlank b :=
  forall_byte (by decide +kernel)

/-- The lexer knows the words with a kind of their own. -/
lemma keywords_eq : Token.Kind.keywords = reservedWords := rfl

/-! ## Matches have forms -/

variable {b : UInt8} {bs w rest : Text} {k : Token.Kind}

lemma isWord_iff : IsWord w ↔ (∃ b ∈ w.head?, beginsWord b) ∧ ∀ c ∈ w, continuesWord c := by
  simp only [IsWord, mem_letters, mem_digits, continuesWord, Bool.or_eq_true]

lemma isDigits_iff : IsDigits w ↔ w ≠ [] ∧ ∀ d ∈ w, isDigit d := by
  simp only [IsDigits, mem_digits]

lemma length_le_takeWhile {p : UInt8 → Bool} (hinitial : w <+: bs) (hall : ∀ c ∈ w, p c) :
    w.length ≤ (bs.takeWhile p).length := by
  obtain ⟨rest, rfl⟩ := hinitial
  rw [List.takeWhile_append_of_pos hall, List.length_append]
  exact Nat.le_add_right _ _

lemma takeWhile_stop {p : UInt8 → Bool} (hall : ∀ c ∈ w, p c) (hb : p b = false) (rest : Text) :
    (w ++ b :: rest).takeWhile p = w ∧ (w ++ b :: rest).dropWhile p = b :: rest := by
  rw [List.takeWhile_append_of_pos hall, List.dropWhile_append_of_pos hall]
  simp [hb]

/-- The form of a word depends on the table of keywords alone. -/
lemma form_ofWord (hw : IsWord w) : Form (.ofWord w) w := by
  rw [Token.Kind.ofWord, keywords_eq]
  cases hlookup : reservedWords.lookup w with
  | some k =>
    obtain ⟨before, after, hsplit, -⟩ := List.lookup_eq_some_iff.1 hlookup
    exact .keyword (by simp [hsplit])
  | none =>
    refine .identifier hw fun k hk => ?_
    have hne := List.lookup_eq_none_iff.1 hlookup _ hk
    simp at hne

lemma isWord_cons (hb : beginsWord b) (hbs : ∀ c ∈ bs, continuesWord c) : IsWord (b :: bs) := by
  refine isWord_iff.2 ⟨⟨b, rfl, hb⟩, List.forall_mem_cons.2 ⟨?_, hbs⟩⟩
  rw [continuesWord, hb, Bool.true_or]

lemma matchNumber_form (hb : isDigit b) :
    Form (matchNumber b bs).kind (matchNumber b bs).covered := by
  have hwhole : IsDigits (b :: bs.takeWhile isDigit) :=
    isDigits_iff.2
      ⟨List.cons_ne_nil _ _, List.forall_mem_cons.2 ⟨hb, fun _ => List.mem_takeWhile_imp⟩⟩
  rw [matchNumber]
  split
  · rename_i point d more hdrop
    split
    · rename_i hpoint
      rw [Bool.and_eq_true, decide_eq_true_eq] at hpoint
      obtain ⟨rfl, hd⟩ := hpoint
      refine .fraction hwhole (isDigits_iff.2 ⟨?_, fun _ => List.mem_takeWhile_imp⟩)
      rw [List.takeWhile_cons_of_pos hd]
      exact List.cons_ne_nil _ _
    · exact .whole hwhole
  · exact .whole hwhole

/-- What the lexer takes for an operator is one. -/
lemma mem_operators : ∀ b : UInt8,
    (∀ k ∈ punctuation? b, ([b], k) ∈ operators) ∧
      ∀ p ∈ comparison? b, ([b], p.1) ∈ operators ∧ ([b, '='.toUInt8], p.2) ∈ operators :=
  forall_byte (by decide +kernel)

/-- Every operator begins with a byte that the lexer takes for one, and if it has another byte, then
this is an equals sign. -/
lemma operators_cases : ∀ p ∈ operators,
    (∃ b, p.1 = [b] ∧ ((punctuation? b).isSome ∨ (comparison? b).isSome)) ∨
    ∃ b, p.1 = [b, '='.toUInt8] ∧ beginsWord b = false ∧ isDigit b = false ∧
      punctuation? b = none ∧ (comparison? b).isSome := by
  have hall : ∀ p ∈ operators, ∃ b ∈ p.1.head?,
      p.1 = [b] ∧ ((punctuation? b).isSome ∨ (comparison? b).isSome) ∨
      p.1 = [b, '='.toUInt8] ∧ beginsWord b = false ∧ isDigit b = false ∧
        punctuation? b = none ∧ (comparison? b).isSome := by
    decide +kernel
  intro p hp
  obtain ⟨b, -, hshort | hlong⟩ := hall p hp
  · exact .inl ⟨b, hshort⟩
  · exact .inr ⟨b, hlong⟩

lemma isWord_of_mem_reservedWords (h : (w, k) ∈ reservedWords) : IsWord w := by
  have hall : ∀ p ∈ reservedWords, p.1.head?.any (· ∈ letters) ∧ ∀ c ∈ p.1, c ∈ letters := by
    decide +kernel
  obtain ⟨hhead, hrest⟩ := hall _ h
  obtain ⟨b, hb, hletter⟩ := (Option.any_eq_true _ _).1 hhead
  exact ⟨⟨b, hb, of_decide_eq_true hletter⟩, fun c hc => .inl (hrest c hc)⟩

lemma IsDigits.cons (hw : IsDigits w) : ∃ d ds, w = d :: ds ∧ isDigit d ∧ ∀ c ∈ ds, isDigit c := by
  obtain ⟨hne, hall⟩ := isDigits_iff.1 hw
  cases w with
  | nil => exact absurd rfl hne
  | cons d ds => exact ⟨d, ds, rfl, List.forall_mem_cons.1 hall⟩

/-- A form begins with a byte that the lexer takes for the beginning of one. -/
lemma Form.begins (hform : Form k w) : ∃ b more, w = b :: more ∧
    (beginsWord b ∨ isDigit b ∨ b = quote ∨ (punctuation? b).isSome ∨ (comparison? b).isSome) := by
  have hword : IsWord w → ∃ b more, w = b :: more ∧ (beginsWord b : Prop) := by
    intro hw
    obtain ⟨⟨b, hhead, hb⟩, -⟩ := isWord_iff.1 hw
    obtain ⟨more, rfl⟩ := List.head?_eq_some_iff.1 hhead
    exact ⟨b, more, rfl, hb⟩
  cases hform with
  | keyword hmem =>
    obtain ⟨b, more, rfl, hb⟩ := hword (isWord_of_mem_reservedWords hmem)
    exact ⟨b, more, rfl, .inl hb⟩
  | identifier hw _ =>
    obtain ⟨b, more, rfl, hb⟩ := hword hw
    exact ⟨b, more, rfl, .inl hb⟩
  | whole hds =>
    obtain ⟨d, ds, rfl, hd, -⟩ := hds.cons
    exact ⟨d, ds, rfl, .inr (.inl hd)⟩
  | fraction hds _ =>
    obtain ⟨d, ds, rfl, hd, -⟩ := hds.cons
    exact ⟨d, _, rfl, .inr (.inl hd)⟩
  | string _ => exact ⟨quote, _, rfl, .inr (.inr (.inl rfl))⟩
  | operator hmem =>
    rcases operators_cases _ hmem with ⟨b, rfl, h⟩ | ⟨b, rfl, -, -, -, h⟩
    · exact ⟨b, _, rfl, .inr (.inr (.inr h))⟩
    · exact ⟨b, _, rfl, .inr (.inr (.inr (.inr h)))⟩

/-- What a match covers is spelled as a token; or it is a byte that begins no form, or a quote with no
other behind it. -/
lemma matchToken_cases (b : UInt8) (bs : Text) :
    Form (matchToken b bs).kind (matchToken b bs).covered ∨
      matchToken b bs = ⟨.error .unexpectedCharacter, [b], bs⟩ ∧ Stray b ∨
      b = quote ∧ (∀ c ∈ bs, c ≠ quote) := by
  rw [matchToken]
  split
  · rename_i hword
    exact .inl (form_ofWord (isWord_cons hword fun _ => List.mem_takeWhile_imp))
  rename_i hword
  split
  · rename_i hdigit
    exact .inl (matchNumber_form hdigit)
  rename_i hdigit
  split
  · rename_i k hpunctuation
    exact .inl (.operator ((mem_operators b).1 k hpunctuation))
  rename_i hpunctuation
  split
  · rename_i short long hcomparison
    obtain ⟨hshort, hlong⟩ := (mem_operators b).2 (short, long) hcomparison
    cases bs with
    | nil => exact .inl (.operator hshort)
    | cons c bs =>
      rw [matchComparison]
      split
      · rename_i hc
        exact .inl (.operator (hc ▸ hlong))
      · exact .inl (.operator hshort)
  rename_i hcomparison
  split
  · rename_i hquote
    rw [matchString]
    split
    · rename_i close rest hdrop
      have hclose : close = '"'.toUInt8 := by
        have hhead := List.head?_dropWhile_not (· != '"'.toUInt8) bs
        rw [hdrop] at hhead
        simpa using hhead
      refine .inl ?_
      rw [hquote, hclose]
      refine .string fun c hc => ?_
      exact bne_iff_ne.1 (List.mem_takeWhile_imp (p := (· != '"'.toUInt8)) hc)
    · rename_i hdrop
      refine .inr (.inr ⟨hquote, fun c hc => ?_⟩)
      exact bne_iff_ne.1 (List.dropWhile_eq_nil_iff.1 hdrop c hc)
  · rename_i hquote
    refine .inr (.inl ⟨rfl, fun k w hform hhead => ?_⟩)
    obtain ⟨b', more, rfl, hbegins⟩ := hform.begins
    obtain rfl : b' = b := Option.some.inj hhead
    rcases hbegins with h | h | h | h | h
    · exact hword h
    · exact hdigit h
    · exact hquote h
    · rw [hpunctuation] at h
      cases h
    · rw [hcomparison] at h
      cases h

/-! ## Matches are longest -/

lemma matchToken_word (hb : beginsWord b) : matchToken b bs = matchWord b bs := by
  rw [matchToken, if_pos hb]

lemma matchToken_digit (hb : isDigit b) : matchToken b bs = matchNumber b bs := by
  have hnotWord : ∀ b, isDigit b → beginsWord b = false := forall_byte (by decide +kernel)
  rw [matchToken, hnotWord b hb, if_neg Bool.false_ne_true, if_pos hb]

lemma matchToken_quote : matchToken quote bs = matchString quote bs := rfl

lemma covered_matchNumber_fraction {d e : UInt8} {ds more : Text} (hds : ∀ c ∈ ds, isDigit c)
    (he : isDigit e) : (matchNumber d (ds ++ '.'.toUInt8 :: e :: more)).covered =
      d :: ds ++ '.'.toUInt8 :: e :: more.takeWhile isDigit := by
  obtain ⟨htake, hdrop⟩ := takeWhile_stop (p := isDigit) hds
    (show isDigit '.'.toUInt8 = false by decide) (e :: more)
  rw [matchNumber, hdrop]
  dsimp only
  rw [if_pos (by simp [he]), htake, List.takeWhile_cons_of_pos he]

lemma matchString_closed {inner : Text} (hinner : ∀ c ∈ inner, c ≠ quote) (b : UInt8) (rest : Text) :
    matchString b (inner ++ quote :: rest) = ⟨.string, b :: inner ++ [quote], rest⟩ := by
  obtain ⟨htake, hdrop⟩ := takeWhile_stop (p := (· != '"'.toUInt8)) (b := quote)
    (fun c hc => bne_iff_ne.2 (hinner c hc)) (bne_self_eq_false _) rest
  rw [matchString, hdrop, htake]

lemma matchString_unclosed {inner : Text} (hinner : ∀ c ∈ inner, c ≠ quote) (b : UInt8) :
    matchString b inner = ⟨.error .unterminatedString, b :: inner, []⟩ := by
  have hall : ∀ c ∈ inner, (c != '"'.toUInt8) = true := fun c hc => bne_iff_ne.2 (hinner c hc)
  rw [matchString, List.dropWhile_eq_nil_iff.2 hall, List.takeWhile_eq_self_iff.2 hall]

/-- No form that the source begins with reaches further than the match. -/
lemma Form.length_le_covered (hform : Form k w) (hinitial : w <+: b :: bs) :
    w.length ≤ (matchToken b bs).covered.length := by
  have hword : IsWord w → w.length ≤ (matchToken b bs).covered.length := by
    intro hw
    obtain ⟨⟨b', hhead, hb'⟩, hall⟩ := isWord_iff.1 hw
    obtain ⟨more, rfl⟩ := List.head?_eq_some_iff.1 hhead
    obtain ⟨rfl, hmore⟩ := List.cons_prefix_cons.1 hinitial
    rw [matchToken_word hb']
    exact Nat.succ_le_succ (length_le_takeWhile hmore (List.forall_mem_cons.1 hall).2)
  cases hform with
  | keyword hmem => exact hword (isWord_of_mem_reservedWords hmem)
  | identifier hw _ => exact hword hw
  | whole hds =>
    obtain ⟨d, ds, rfl, hd, hall⟩ := hds.cons
    obtain ⟨rfl, hmore⟩ := List.cons_prefix_cons.1 hinitial
    have hlength := length_le_takeWhile hmore hall
    rw [matchToken_digit hd, matchNumber]
    split
    · split
      · rw [List.length_append, List.length_cons, List.length_cons]
        omega
      · exact Nat.succ_le_succ hlength
    · exact Nat.succ_le_succ hlength
  | @fraction ds es hds hes =>
    obtain ⟨d, ds, rfl, hd, hall⟩ := hds.cons
    obtain ⟨e, es, rfl, he, hall'⟩ := hes.cons
    rw [List.cons_append, List.cons_prefix_cons] at hinitial
    obtain ⟨rfl, rest, rfl⟩ := hinitial
    have hlength := length_le_takeWhile (List.prefix_append es rest) hall'
    rw [matchToken_digit hd, List.append_assoc, List.cons_append, List.cons_append, List.cons_append,
      covered_matchNumber_fraction hall he]
    simp only [List.length_append, List.length_cons]
    omega
  | @string inner hinner =>
    rw [List.cons_append, List.cons_prefix_cons] at hinitial
    obtain ⟨rfl, rest, rfl⟩ := hinitial
    rw [matchToken_quote, List.append_assoc, List.singleton_append, matchString_closed hinner]
  | operator hmem =>
    rcases operators_cases _ hmem with ⟨c, rfl, -⟩ | ⟨c, rfl, hletter, hdigit, hnone, hsome⟩
    · obtain ⟨more, hcovered, -⟩ := matchToken_splits b bs
      rw [hcovered]
      exact Nat.succ_le_succ (Nat.zero_le _)
    · rw [List.cons_prefix_cons] at hinitial
      obtain ⟨rfl, rest, rfl⟩ := hinitial
      obtain ⟨⟨short, long⟩, hkinds⟩ := Option.isSome_iff_exists.1 hsome
      rw [matchToken, hletter, hdigit, hnone]
      dsimp only
      rw [hkinds]
      exact Nat.le_refl _

/-- The bytes of a form determine its kind. -/
lemma Form.kind_eq (hform : Form k (b :: bs)) : (matchToken b bs).kind = k := by
  have hword : IsWord (b :: bs) → (matchToken b bs).kind = .ofWord (b :: bs) := by
    intro hw
    obtain ⟨⟨b', hhead, hb⟩, hall⟩ := isWord_iff.1 hw
    obtain rfl : b = b' := Option.some.inj hhead
    rw [matchToken_word hb, matchWord, List.takeWhile_eq_self_iff.2 (List.forall_mem_cons.1 hall).2]
  generalize hw : b :: bs = w at hform
  cases hform with
  | @keyword _ k hmem =>
    have hkinds : ∀ p ∈ reservedWords, Token.Kind.ofWord p.1 = p.2 := by decide +kernel
    subst hw
    rw [hword (isWord_of_mem_reservedWords hmem)]
    exact hkinds _ hmem
  | identifier hisWord hnone =>
    subst hw
    rw [hword hisWord, Token.Kind.ofWord, keywords_eq, List.lookup_eq_none_iff.2]
    · rfl
    · rintro ⟨w, k⟩ hmem
      exact bne_iff_ne.2 fun heq => hnone k (heq ▸ hmem)
  | whole hds =>
    obtain ⟨d, ds, heq, hd, -⟩ := hds.cons
    obtain ⟨rfl, rfl⟩ := List.cons.inj (hw.trans heq)
    rw [matchToken_digit hd, matchNumber_kind]
  | fraction hds _ =>
    obtain ⟨d, ds, rfl, hd, -⟩ := hds.cons
    obtain ⟨rfl, rfl⟩ := List.cons.inj hw
    rw [matchToken_digit hd, matchNumber_kind]
  | string hinner =>
    obtain ⟨rfl, rfl⟩ := List.cons.inj hw
    exact congrArg Match.kind (matchString_closed hinner quote [])
  | operator hmem =>
    have hkinds : ∀ p ∈ operators, ∀ b ∈ p.1.head?, (matchToken b p.1.tail).kind = p.2 := by
      decide +kernel
    subst hw
    exact hkinds _ hmem b rfl

lemma Form.ne_error (hform : Form k w) (why : LexicalError) : k ≠ .error why := by
  cases hform with
  | keyword hmem =>
    have hkinds : ∀ p ∈ reservedWords, p.2.tag ≠ 1 := by decide +kernel
    rintro rfl
    exact hkinds _ hmem rfl
  | operator hmem =>
    have hkinds : ∀ p ∈ operators, p.2.tag ≠ 1 := by decide +kernel
    rintro rfl
    exact hkinds _ hmem rfl
  | _ => exact nofun

/-- Where there is no other quote, no form begins with a quote. -/
lemma not_form_unclosed {more : Text} (hmore : ∀ c ∈ more, c ≠ quote) : ¬ Form k (quote :: more) := by
  intro hform
  have hkind := hform.kind_eq
  rw [matchToken_quote, matchString_unclosed hmore] at hkind
  exact hform.ne_error _ hkind.symm

/-- The longest form that the source begins with is the match. -/
lemma Longest.matchToken_eq (hlongest : Longest k w rest) (hsource : w ++ rest = b :: bs) :
    matchToken b bs = ⟨k, w, rest⟩ := by
  obtain ⟨hform, hmax⟩ := hlongest
  have hinitial : w <+: b :: bs := ⟨rest, hsource⟩
  rw [hsource] at hmax
  obtain ⟨c, more, rfl, -⟩ := hform.begins
  obtain ⟨rfl, hmore⟩ := List.cons_prefix_cons.1 hinitial
  obtain ⟨more', hcovered, hsplit⟩ := matchToken_splits c bs
  have hcoveredPrefix : (matchToken c bs).covered <+: c :: bs :=
    ⟨(matchToken c bs).rest, by rw [hcovered, List.cons_append, hsplit]⟩
  rcases matchToken_cases c bs with hmatch | ⟨-, hstray⟩ | ⟨rfl, hunclosed⟩
  · have hlow := hform.length_le_covered hinitial
    have hhigh := hmax _ _ hmatch hcoveredPrefix
    have hsame : c :: more = (matchToken c bs).covered :=
      (List.prefix_of_prefix_length_le hinitial hcoveredPrefix hlow).eq_of_length
        (Nat.le_antisymm hlow hhigh)
    rw [← hsame] at hmatch
    have hkind : (matchToken c bs).kind = k := hmatch.kind_eq.symm.trans hform.kind_eq
    have hrest : (matchToken c bs).rest = rest := by
      obtain rfl : more = more' := (List.cons.inj (hsame.trans hcovered)).2
      exact List.append_cancel_left (hsplit.trans (List.cons.inj hsource).2.symm)
    rw [← hkind, hsame, ← hrest]
  · exact absurd rfl (hstray k _ hform)
  · obtain ⟨more'', rfl⟩ := hmore
    exact absurd hform (not_form_unclosed fun c hc => hunclosed c (List.mem_append_left _ hc))

/-- A match that has a form is the longest. -/
lemma longest_matchToken (hform : Form (matchToken b bs).kind (matchToken b bs).covered) :
    Longest (matchToken b bs).kind (matchToken b bs).covered (matchToken b bs).rest := by
  obtain ⟨more, hcovered, hsplit⟩ := matchToken_splits b bs
  refine ⟨hform, fun k w hform' hinitial => hform'.length_le_covered ?_⟩
  rwa [hcovered, List.cons_append, hsplit] at hinitial

/-- A byte that no form begins with is an error on its own. -/
lemma Stray.matchToken_eq (hstray : Stray b) (bs : Text) :
    matchToken b bs = ⟨.error .unexpectedCharacter, [b], bs⟩ := by
  rcases matchToken_cases b bs with hmatch | ⟨heq, -⟩ | ⟨rfl, -⟩
  · obtain ⟨more, hcovered, -⟩ := matchToken_splits b bs
    rw [hcovered] at hmatch
    exact absurd rfl (hstray _ _ hmatch)
  · exact heq
  · exact absurd rfl (hstray .string [quote, quote] (@Form.string [] nofun))

end Lexer

/-! ## Gaps are skipped -/

lemma Position.over_append (p : Position) (s t : Text) : p.over (s ++ t) = (p.over s).over t :=
  List.foldl_append

/-- The position behind some bytes is found by looking at them. -/
lemma Position.start_over (before : Text) : Position.start.over before =
    ⟨before.length, .ofNat (lineBehind before), .ofNat (columnBehind before)⟩ := by
  induction before using List.reverseRecOn with
  | nil => rfl
  | append_singleton before b ih =>
    rw [over_append, ih, Position.over, List.foldl_cons, List.foldl_nil, step]
    split
    · rename_i hb
      have hline : lineBehind (before ++ [b]) = lineBehind before + 1 := by
        simp [lineBehind, hb, Nat.add_assoc]
      have hcolumn : columnBehind (before ++ [b]) = 1 := by
        simp [columnBehind, hb]
      simp [hline, hcolumn]
    · rename_i hb
      have hline : lineBehind (before ++ [b]) = lineBehind before := by
        simp [lineBehind, hb]
      have hcolumn : columnBehind (before ++ [b]) = columnBehind before + 1 := by
        simp [columnBehind, hb, Nat.add_assoc]
      simp [hline, hcolumn]

open Lexer

namespace Cursor

variable {body gap rest before : Text}

lemma skipTriviaFrom_comment (hbody : ∀ c ∈ body, c ≠ Text.newline) (rest : Text) (p : Position) :
    skipTriviaFrom true (body ++ rest) p = skipTriviaFrom true rest (p.over body) := by
  induction body generalizing p with
  | nil => rfl
  | cons b body ih =>
    obtain ⟨hb, hbody⟩ := List.forall_mem_cons.1 hbody
    rw [List.cons_append, skipTriviaFrom, bne_iff_ne.2 hb]
    exact ih hbody _

/-- Behind two slashes there is a comment. -/
lemma skipTriviaFrom_slashes (t : Text) (p : Position) :
    skipTriviaFrom false ('/'.toUInt8 :: '/'.toUInt8 :: t) p =
      skipTriviaFrom true ('/'.toUInt8 :: t) (p.step '/'.toUInt8) := rfl

lemma skipTriviaFrom_gap (hgap : Gap gap rest) (p : Position) :
    skipTriviaFrom false (gap ++ rest) p = ⟨rest, p.over gap⟩ := by
  induction hgap generalizing p with
  | @none rest hblank hslashes =>
    cases rest with
    | nil => rfl
    | cons b bs =>
      rw [List.nil_append, skipTriviaFrom, if_neg fun hb => hblank b rfl ((mem_blanks b).2 hb),
        if_neg]
      · rfl
      · intro hcomment
        simp only [Bool.and_eq_true, decide_eq_true_eq, beq_iff_eq] at hcomment
        obtain ⟨rfl, hhead⟩ := hcomment
        obtain ⟨more, rfl⟩ := List.head?_eq_some_iff.1 hhead
        exact hslashes ⟨more, rfl⟩
  | blank hb _ ih =>
    rw [List.cons_append, skipTriviaFrom, if_pos ((mem_blanks _).1 hb)]
    exact ih _
  | @comment body gap rest hbody _ ih =>
    have hslash : ∀ c ∈ '/'.toUInt8 :: body, c ≠ Text.newline :=
      List.forall_mem_cons.2 ⟨by decide, hbody⟩
    have hcomment := skipTriviaFrom_comment hslash (Text.newline :: (gap ++ rest)) (p.step '/'.toUInt8)
    rw [List.cons_append, List.cons_append, List.cons_append, List.cons_append, List.append_assoc,
      List.cons_append, skipTriviaFrom_slashes]
    refine hcomment.trans ((ih _).trans (congrArg (Cursor.mk rest) ?_))
    exact ((p.step '/'.toUInt8).over_append ('/'.toUInt8 :: body) (Text.newline :: gap)).symm
  | @last body hbody =>
    have hslash : ∀ c ∈ '/'.toUInt8 :: body, c ≠ Text.newline :=
      List.forall_mem_cons.2 ⟨by decide, hbody⟩
    have hcomment := skipTriviaFrom_comment hslash [] (p.step '/'.toUInt8)
    rw [List.append_nil] at hcomment ⊢
    exact hcomment

/-- Behind what was read, a gap is skipped. -/
lemma skipTrivia_gap (hgap : Gap gap rest) (before : Text) :
    (⟨gap ++ rest, Position.start.over before⟩ : Cursor).skipTrivia =
      ⟨rest, Position.start.over (before ++ gap)⟩ := by
  rw [skipTrivia, Position.over_append]
  exact skipTriviaFrom_gap hgap _

end Cursor

/-- Every source begins with a gap, which may be empty. -/
lemma exists_gap (source : Text) : ∃ gap rest, source = gap ++ rest ∧ Gap gap rest := by
  induction hn : source.length using Nat.strongRecOn generalizing source with
  | ind n ih =>
    subst hn
    cases source with
    | nil => exact ⟨[], [], rfl, .none nofun (by simp)⟩
    | cons b bs =>
      by_cases hb : b ∈ blanks
      · obtain ⟨gap, rest, rfl, hgap⟩ := ih _ (Nat.lt_succ_self _) bs rfl
        exact ⟨b :: gap, rest, rfl, .blank hb hgap⟩
      · by_cases hslashes : ['/'.toUInt8, '/'.toUInt8] <+: b :: bs
        · obtain ⟨more, hmore⟩ := hslashes
          have hbody : ∀ c ∈ more.takeWhile (· != Text.newline), c ≠ Text.newline := fun c hc =>
            bne_iff_ne.1 (List.mem_takeWhile_imp (p := (· != Text.newline)) hc)
          have hsplit : more.takeWhile (· != Text.newline) ++ more.dropWhile (· != Text.newline) = more :=
            List.takeWhile_append_dropWhile
          rw [← hmore, ← hsplit]
          cases hdrop : more.dropWhile (· != Text.newline) with
          | nil => exact ⟨_, [], by simp, .last hbody⟩
          | cons c after =>
            have hc : c = Text.newline := by
              have hhead := List.head?_dropWhile_not (· != Text.newline) more
              rw [hdrop] at hhead
              simpa using hhead
            have hlength := congrArg List.length hsplit
            rw [hdrop, List.length_append, List.length_cons] at hlength
            have hlength' := congrArg List.length hmore
            simp only [List.length_append, List.length_cons, List.length_nil] at hlength'
            obtain ⟨gap, rest, hafter, hgap⟩ := ih after.length (by simp; omega) after rfl
            rw [hc, hafter]
            exact ⟨_, rest, by simp, .comment hbody hgap⟩
        · refine ⟨[], b :: bs, rfl, .none (fun c hc => ?_) hslashes⟩
          cases hc
          exact hb

/-! ## Reading tiles the source -/

namespace Lexer

lemma exists_tiles (before rest : Text) : ∃ ts, Tiles before rest ts := by
  induction hn : rest.length using Nat.strongRecOn generalizing before rest with
  | ind n ih =>
    subst hn
    obtain ⟨gap, rest, rfl, hgap⟩ := exists_gap rest
    cases rest with
    | nil =>
      rw [List.append_nil]
      exact ⟨_, .finish hgap⟩
    | cons b bs =>
      obtain ⟨more, hcovered, hsplit⟩ := matchToken_splits b bs
      have hsource : b :: bs = (matchToken b bs).covered ++ (matchToken b bs).rest := by
        rw [hcovered, List.cons_append, hsplit]
      have hlt : (matchToken b bs).rest.length < (gap ++ b :: bs).length := by
        rw [List.length_append, hsource, List.length_append, hcovered, List.length_cons]
        omega
      obtain ⟨ts, hts⟩ := ih _ hlt (before ++ gap ++ (matchToken b bs).covered) _ rfl
      rcases matchToken_cases b bs with hmatch | ⟨heq, hstray⟩ | ⟨rfl, hunclosed⟩
      · rw [hsource] at hgap ⊢
        rw [← List.append_assoc]
        exact ⟨_, .token hgap (longest_matchToken hmatch) hts⟩
      · rw [heq] at hts
        rw [← List.singleton_append, ← List.append_assoc]
        exact ⟨_, .stray hgap hstray hts⟩
      · rw [matchToken_quote, matchString_unclosed hunclosed] at hts
        exact ⟨_, .unclosed hgap hunclosed hts⟩

end Lexer

/-- What a token of this kind shows in place of what it covers. -/
def Token.Kind.shown (k : Token.Kind) (covered : Text) : Text :=
  match k with
  | .error why => why.message
  | _ => covered

lemma Lexer.Form.shown {k : Token.Kind} {w : Text} (hform : Form k w) : k.shown w = w := by
  rw [Token.Kind.shown.eq_def]
  split
  · exact absurd rfl (hform.ne_error _)
  · rfl

namespace Cursor

variable {c : Cursor} {b : UInt8} {before gap bs w rest : Text} {k : Token.Kind} {ts : List Token}

lemma next_behind (hskip : c.skipTrivia = ⟨b :: bs, Position.start.over before⟩)
    (hmatch : matchToken b bs = ⟨k, w, rest⟩) : c.next =
      (.behind before w k (k.shown w),
        ⟨rest, Position.start.over (before ++ w)⟩) := by
  rw [next, hskip]
  dsimp only
  rw [hmatch]
  dsimp only
  rw [← Position.over_append, Position.start_over, Position.start_over, List.length_append]
  rfl

lemma next_behind_end (hskip : c.skipTrivia = ⟨[], Position.start.over before⟩) :
    c.next = (.behind before [] .eof [], ⟨[], Position.start.over before⟩) := by
  rw [next, hskip, Position.start_over]
  rfl

/-- The token that is laid out next is the token that is read next. -/
lemma tokensLoop_behind (hgap : Gap gap (b :: bs)) (hmatch : matchToken b bs = ⟨k, w, rest⟩)
    (hread : ∀ bound done, rest.length ≤ bound →
      tokensLoop bound ⟨rest, Position.start.over (before ++ gap ++ w)⟩ done =
        (done.reverse ++ ts, ⟨[], Position.start.over (before ++ gap ++ w ++ rest)⟩))
    {bound : Nat} (hbound : (gap ++ b :: bs).length ≤ bound) (done : List Token) :
    tokensLoop bound ⟨gap ++ b :: bs, Position.start.over before⟩ done =
      (done.reverse ++ .behind (before ++ gap) w k (k.shown w)
        :: ts, ⟨[], Position.start.over (before ++ (gap ++ b :: bs))⟩) := by
  obtain ⟨more, hcovered, hsplit⟩ := matchToken_splits b bs
  have hkind := matchToken_kind_ne_eof b bs
  rw [hmatch] at hcovered hsplit hkind
  have hsource : b :: bs = w ++ rest := by
    rw [← hsplit, ← List.cons_append, ← hcovered]
  obtain ⟨n, rfl⟩ : ∃ n, bound = n + 1 :=
    Nat.exists_eq_succ_of_ne_zero (by rintro rfl; simp at hbound)
  have hrest : rest.length ≤ n := by
    rw [List.length_append, List.length_cons, ← hsplit, List.length_append] at hbound
    dsimp only at hbound
    omega
  rw [tokensLoop, next_behind (skipTrivia_gap hgap before) hmatch]
  dsimp only
  rw [if_neg (by exact hkind), hread n _ hrest, hsource]
  simp [List.append_assoc]

end Cursor

namespace Lexer

/-- What is laid out over the rest of a source is what is read from it. -/
lemma Tiles.read {before rest : Text} {ts : List Token} (htiles : Tiles before rest ts) :
    ∀ bound done, rest.length ≤ bound →
      Cursor.tokensLoop bound ⟨rest, Position.start.over before⟩ done =
        (done.reverse ++ ts, ⟨[], Position.start.over (before ++ rest)⟩) := by
  induction htiles with
  | @finish before gap hgap =>
    intro bound done _
    have hnext := Cursor.next_behind_end (Cursor.skipTrivia_gap hgap before)
    rw [List.append_nil] at hnext
    cases bound with
    | zero =>
      rw [Cursor.tokensLoop, hnext]
      simp
    | succ bound =>
      rw [Cursor.tokensLoop, hnext]
      simp [Token.behind]
  | @token before gap w rest k ts hgap hlongest _ ih =>
    intro bound done hbound
    obtain ⟨b, more, rfl, -⟩ := hlongest.1.begins
    rw [List.append_assoc, List.cons_append] at hbound ⊢
    have hmatch := hlongest.matchToken_eq (List.cons_append ..)
    have hread := Cursor.tokensLoop_behind hgap hmatch ih hbound done
    rwa [hlongest.1.shown] at hread
  | @stray before gap rest b ts hgap hstray _ ih =>
    intro bound done hbound
    rw [List.append_assoc, List.singleton_append] at hbound ⊢
    exact Cursor.tokensLoop_behind hgap (hstray.matchToken_eq rest) ih hbound done
  | @unclosed before gap inner ts hgap hinner _ ih =>
    intro bound done hbound
    exact Cursor.tokensLoop_behind hgap (matchString_unclosed hinner quote) ih hbound done

end Lexer

lemma Cursor.tokens_of_tiles {source : Text} {ts : List Token} (htiles : Tiles [] source ts) :
    (Cursor.ofSource source).tokens = (ts, ⟨[], Position.start.over source⟩) :=
  htiles.read source.length [] (Nat.le_refl _)

/-- However a source is tiled, it is read like this. -/
lemma tiles_iff (source : Text) (ts : List Token) : Tiles [] source ts ↔ ts = tokenize source := by
  have hread : ∀ {ts}, Tiles [] source ts → ts = tokenize source := fun htiles => by
    rw [tokenize, Cursor.tokens_of_tiles htiles]
  refine ⟨hread, ?_⟩
  rintro rfl
  obtain ⟨ts, htiles⟩ := exists_tiles [] source
  exact hread htiles ▸ htiles

/-- Line feeds in front of a source are passed over; they are counted all the same. -/
lemma tokenize_newlines (n : Nat) (source : Text) :
    tokenize (List.replicate n Text.newline ++ source) =
      (Cursor.tokensLoop (n + source.length) ⟨source, ⟨n, .ofNat (1 + n), 1⟩⟩ []).1 := by
  have hskip : ∀ p, Cursor.skipTriviaFrom false (List.replicate n Text.newline ++ source) p =
      Cursor.skipTriviaFrom false source (p.over (List.replicate n Text.newline)) := by
    induction n with
    | zero => exact fun _ => rfl
    | succ n ih => exact fun p => ih _
  have hover : Position.start.over (List.replicate n Text.newline) = ⟨n, .ofNat (1 + n), 1⟩ := by
    rw [Position.start_over, lineBehind, columnBehind, List.length_replicate,
      List.count_replicate_self, List.reverse_replicate]
    simp
  have hnext : (Cursor.ofSource (List.replicate n Text.newline ++ source)).next =
      (⟨source, ⟨n, .ofNat (1 + n), 1⟩⟩ : Cursor).next := by
    rw [Cursor.next, Cursor.next, Cursor.skipTrivia, Cursor.skipTrivia, Cursor.ofSource, hskip, hover]
  have hlength : (Cursor.ofSource (List.replicate n Text.newline ++ source)).rest.length =
      n + source.length := by
    rw [Cursor.ofSource, List.length_append, List.length_replicate]
  rw [tokenize, Cursor.tokens, hlength]
  cases n + source.length with
  | zero => rw [Cursor.tokensLoop, Cursor.tokensLoop, hnext]
  | succ m => rw [Cursor.tokensLoop, Cursor.tokensLoop, hnext]

/-! ## Spans -/

/-- The token is where it says. -/
structure Token.Stands (source : Text) (t : Token) : Prop where
  ordered : t.start ≤ t.stop
  inside : t.stop ≤ source.length
  line : t.line = .ofNat (lineBehind (source.take t.start))
  column : t.column = .ofNat (columnBehind (source.take t.start))
  lexeme : t.lexeme = t.kind.shown ((source.drop t.start).take (t.stop - t.start))

lemma Token.behind_stands (before covered rest : Text) (k : Token.Kind) :
    (Token.behind before covered k (k.shown covered)).Stands (before ++ (covered ++ rest)) where
  ordered := Nat.le_add_right _ _
  inside := by
    rw [behind, List.length_append, List.length_append]
    dsimp only
    omega
  line := by rw [behind, List.take_left]
  column := by rw [behind, List.take_left]
  lexeme := by rw [behind, List.drop_left, Nat.add_sub_cancel_left, List.take_left]

lemma lineBehind_mono {source : Text} {m n : Nat} (h : m ≤ n) :
    lineBehind (source.take m) ≤ lineBehind (source.take n) :=
  Nat.add_le_add_left ((List.take_sublist_take_left h).count_le _) _

lemma lineBehind_take_le (source : Text) (n : Nat) :
    lineBehind (source.take n) ≤ 1 + source.count Text.newline :=
  Nat.add_le_add_left ((List.take_sublist n source).count_le _) _

lemma columnBehind_take_le (source : Text) (n : Nat) :
    columnBehind (source.take n) ≤ 1 + source.length := by
  have hlength := (List.takeWhile_sublist (· != Text.newline)
    (l := (source.take n).reverse)).length_le
  rw [List.length_reverse] at hlength
  exact Nat.add_le_add_left (hlength.trans (List.length_take_le' _ _)) _

/-- The line is counted as long as it is a word. -/
lemma Token.Stands.toNat_line {source : Text} {t : Token} (h : t.Stands source)
    (hlines : source.count Text.newline < 2 ^ 32 - 1) :
    t.line.toNat = lineBehind (source.take t.start) := by
  rw [h.line, UInt32.toNat_ofNat_of_lt']
  exact (lineBehind_take_le source _).trans_lt (show _ < 2 ^ 32 by omega)

lemma Token.Stands.toNat_column {source : Text} {t : Token} (h : t.Stands source)
    (hlength : source.length < 2 ^ 32 - 1) :
    t.column.toNat = columnBehind (source.take t.start) := by
  rw [h.column, UInt32.toNat_ofNat_of_lt']
  exact (columnBehind_take_le source _).trans_lt (show _ < 2 ^ 32 by omega)

/-- What begins later is on no earlier line. -/
lemma Token.Stands.line_mono {source : Text} {t u : Token} (ht : t.Stands source)
    (hu : u.Stands source) (hlines : source.count Text.newline < 2 ^ 32 - 1)
    (hstart : t.start ≤ u.start) : t.line ≤ u.line := by
  rw [UInt32.le_iff_toNat_le, ht.toNat_line hlines, hu.toNat_line hlines]
  exact lineBehind_mono hstart

namespace Lexer

/-- The tokens stand behind what was already covered, one behind the other. -/
lemma Tiles.spans {before rest : Text} {ts : List Token} (htiles : Tiles before rest ts) :
    (∀ t ∈ ts, t.Stands (before ++ rest) ∧ before.length ≤ t.start) ∧
      ts.Pairwise fun t u => t.stop ≤ u.start := by
  have hstep : ∀ {before gap w rest : Text} {k : Token.Kind} {ts : List Token},
      ((∀ t ∈ ts, t.Stands (before ++ gap ++ w ++ rest) ∧ (before ++ gap ++ w).length ≤ t.start) ∧
        ts.Pairwise fun t u => t.stop ≤ u.start) →
      (∀ t ∈ .behind (before ++ gap) w k (k.shown w) :: ts,
        t.Stands (before ++ (gap ++ w ++ rest)) ∧ before.length ≤ t.start) ∧
      (.behind (before ++ gap) w k (k.shown w) :: ts).Pairwise fun t u => t.stop ≤ u.start := by
    rintro before gap w rest k ts ⟨hstand, hpairwise⟩
    have hfirst := Token.behind_stands (before ++ gap) w rest k
    have hsource : before ++ gap ++ w ++ rest = before ++ (gap ++ w ++ rest) := by simp
    refine ⟨List.forall_mem_cons.2 ⟨⟨?_, ?_⟩, fun t ht => ⟨?_, ?_⟩⟩,
      List.pairwise_cons.2 ⟨fun t ht => ?_, hpairwise⟩⟩
    · rwa [← List.append_assoc, hsource] at hfirst
    · rw [Token.behind, List.length_append]
      exact Nat.le_add_right _ _
    · exact hsource ▸ (hstand t ht).1
    · have hbehind := (hstand t ht).2
      rw [List.length_append, List.length_append] at hbehind
      omega
    · have hbehind := (hstand t ht).2
      rwa [List.length_append] at hbehind
  induction htiles with
  | @finish before gap hgap =>
    have hlast := Token.behind_stands (before ++ gap) [] [] .eof
    rw [List.append_nil, List.append_nil] at hlast
    refine ⟨List.forall_mem_singleton.2 ⟨hlast, ?_⟩, List.pairwise_singleton _ _⟩
    rw [Token.behind, List.length_append]
    exact Nat.le_add_right _ _
  | @token before gap w rest k ts _ hlongest _ ih =>
    have hspans := hstep (k := k) ih
    rwa [hlongest.1.shown] at hspans
  | stray _ _ _ ih => exact hstep (k := .error .unexpectedCharacter) ih
  | @unclosed before gap inner ts _ _ _ ih =>
    have hspans := hstep (k := .error .unterminatedString) ih
    rwa [List.append_nil] at hspans

end Lexer

/-- There is one end token, and it is the last. -/
lemma Lexer.Tiles.ends {before rest : Text} {ts : List Token} (htiles : Tiles before rest ts) :
    ∃ body, ts = body ++ [.behind (before ++ rest) [] .eof []] ∧ ∀ t ∈ body, t.kind ≠ .eof := by
  have hstep : ∀ {t : Token} {ts : List Token} {last : Token}, t.kind ≠ .eof →
      (∃ body, ts = body ++ [last] ∧ ∀ t ∈ body, t.kind ≠ .eof) →
      ∃ body, t :: ts = body ++ [last] ∧ ∀ t ∈ body, t.kind ≠ .eof := by
    rintro t _ last ht ⟨body, rfl, hbody⟩
    exact ⟨t :: body, rfl, List.forall_mem_cons.2 ⟨ht, hbody⟩⟩
  induction htiles with
  | finish _ => exact ⟨[], rfl, nofun⟩
  | token _ hlongest _ ih =>
    obtain ⟨b, more, rfl, -⟩ := hlongest.1.begins
    exact hstep (hlongest.1.kind_eq ▸ matchToken_kind_ne_eof b more) (by simpa using ih)
  | stray _ _ _ ih => exact hstep nofun (by simpa using ih)
  | unclosed _ _ _ ih => exact hstep nofun (by simpa using ih)

/-- **Tokens tile the source**: every source, in exactly one way, and reading it gives this tiling.

The last token is the end token, behind all of the source, and reading on gives it again and again.
The tokens are one behind the other, each on the line and in the column where it begins, and spelled
with what it covers unless it is an error token.  Lines and columns are counted in words of 32 bits:
they are the numbers themselves as long as the source is shorter than `2 ^ 32 - 1` bytes. -/
theorem tokenize_tiles (source : Text) :
    (∀ ts, Tiles [] source ts ↔ ts = tokenize source) ∧
    (∃ body, tokenize source = body ++ [.behind source [] .eof []] ∧ ∀ t ∈ body, t.kind ≠ .eof) ∧
    (Cursor.ofSource source).tokens.2.next =
      (.behind source [] .eof [], (Cursor.ofSource source).tokens.2) ∧
    (tokenize source).Pairwise (fun t u => t.stop ≤ u.start) ∧
    (∀ t ∈ tokenize source, t.Stands source) ∧
    (source.length < 2 ^ 32 - 1 → ∀ t ∈ tokenize source,
      t.line.toNat = lineBehind (source.take t.start) ∧
      t.column.toNat = columnBehind (source.take t.start)) := by
  have htiles := (tiles_iff source _).2 rfl
  obtain ⟨hstands, hordered⟩ := htiles.spans
  refine ⟨tiles_iff source, ?last, ?again, hordered, fun t ht => (hstands t ht).1,
    fun hlength t ht => ?counters⟩
  case last => exact htiles.ends
  case again =>
    rw [Cursor.tokens_of_tiles htiles]
    exact Cursor.next_behind_end rfl
  case counters =>
    have ht := (hstands t ht).1
    exact ⟨ht.toNat_line (List.count_le_length.trans_lt hlength), ht.toNat_column hlength⟩

/-- A string over two lines, a byte that is no token, a comment, and an operator of two bytes. -/
theorem tokenize_tiles_three_lines :
    let source : Text := "\"a\n\" @ // b\n!="
    source.length < 2 ^ 32 - 1 ∧
    (tokenize source).map (fun t => (t.kind, t.line.toNat, t.column.toNat, t.start, t.stop)) =
      [(.string, 1, 1, 0, 4), (.error .unexpectedCharacter, 2, 3, 5, 6), (.bangEqual, 3, 1, 12, 14),
        (.eof, 3, 3, 14, 14)] ∧
    ∀ t ∈ tokenize source, t.line.toNat = lineBehind (source.take t.start) := by
  intro source
  have hlength : source.length < 2 ^ 32 - 1 := by decide +kernel
  exact ⟨hlength, by decide +kernel,
    fun t ht => ((tokenize_tiles source).2.2.2.2.2 hlength t ht).1⟩

/-- A source of `2 ^ 32 - 1` line feeds ends on line `2 ^ 32`, which its end token calls line 0. -/
theorem tokenize_line_wraps :
    let source := List.replicate (2 ^ 32 - 1) Text.newline
    source.length < 2 ^ 32 ∧
    ∃ t ∈ tokenize source, t.line = 0 ∧ lineBehind (source.take t.start) = 2 ^ 32 := by
  have hlast : ∀ source : Text, .behind source [] .eof [] ∈ tokenize source := by
    intro source
    obtain ⟨body, hbody, -⟩ := ((tiles_iff source _).2 rfl).ends
    rw [hbody]
    exact List.mem_append_right _ (List.mem_singleton_self _)
  have hlines : ∀ n, lineBehind (List.replicate n Text.newline) = 1 + n := by
    intro n
    rw [lineBehind, List.count_replicate_self]
  intro source
  have hlength : source.length = 2 ^ 32 - 1 := List.length_replicate
  have hline : lineBehind source = 2 ^ 32 := hlines (2 ^ 32 - 1)
  refine ⟨by rw [hlength]; decide, _, hlast source, ?_, ?_⟩
  · rw [Token.behind, hline]
    rfl
  · rw [Token.behind, List.take_length, hline]

end Lox
