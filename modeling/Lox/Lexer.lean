import Lox.Token

/-!
# Reading tokens

The lexer walks over the source once.  Between tokens it passes over blanks and `//` comments
(`Cursor.skipTrivia`); at a token it takes the longest match among the token forms
(`matchToken`): a word, digits with an optional fraction, a quoted string, an operator of one or
two bytes.  A byte that begins no form, and a string that is never closed, give an error token.

The cursor moves only over bytes it consumes, so positions are a fold over the source
(`Position.over`), and reading ends because every token but the last covers at least one byte.
-/

namespace Lox

/-! ## Positions -/

/-- A place in the source. -/
structure Position where
  /-- Bytes before it. -/
  offset : Nat
  /-- Its line, from one. -/
  line : UInt32
  /-- Its column, from one. -/
  column : UInt32
  deriving DecidableEq, Repr

/-- The beginning of a source. -/
def Position.start : Position :=
  { offset := 0, line := 1, column := 1 }

/-- The place after one byte: a line feed begins a line, any other byte a column. -/
def Position.step (p : Position) (b : UInt8) : Position :=
  if b = Text.newline then { offset := p.offset + 1, line := p.line + 1, column := 1 }
  else { p with offset := p.offset + 1, column := p.column + 1 }

/-- The place after a stretch of bytes. -/
def Position.over (p : Position) (t : Text) : Position :=
  t.foldl Position.step p

/-! ## Byte classes -/

namespace Lexer

/-- A decimal digit. -/
def isDigit (b : UInt8) : Bool :=
  '0'.toUInt8 ≤ b && b ≤ '9'.toUInt8

/-- A letter or the underscore. -/
def beginsWord (b : UInt8) : Bool :=
  b == '_'.toUInt8 || ('a'.toUInt8 ≤ b && b ≤ 'z'.toUInt8) || ('A'.toUInt8 ≤ b && b ≤ 'Z'.toUInt8)

/-- A byte that may stand inside a word. -/
def continuesWord (b : UInt8) : Bool :=
  beginsWord b || isDigit b

/-- A byte that separates tokens. -/
def isBlank (b : UInt8) : Bool :=
  b == ' '.toUInt8 || b == '\t'.toUInt8 || b == '\r'.toUInt8 || b == Text.newline

/-! ## Token forms -/

/-- A token form found at the head of the source: its kind, the bytes it covers and the bytes
that follow. -/
structure Match where
  kind : Token.Kind
  covered : Text
  rest : Text
  deriving DecidableEq, Repr

/-- The kinds spelled with one byte that begins nothing longer. -/
def punctuation? (b : UInt8) : Option Token.Kind :=
  if b = '('.toUInt8 then some .leftParen
  else if b = ')'.toUInt8 then some .rightParen
  else if b = '{'.toUInt8 then some .leftBrace
  else if b = '}'.toUInt8 then some .rightBrace
  else if b = ','.toUInt8 then some .comma
  else if b = '.'.toUInt8 then some .dot
  else if b = ';'.toUInt8 then some .semicolon
  else if b = '-'.toUInt8 then some .minus
  else if b = '+'.toUInt8 then some .plus
  else if b = '/'.toUInt8 then some .slash
  else if b = '*'.toUInt8 then some .star
  else none

/-- The operators that an equals sign may extend: the kinds without and with it. -/
def comparison? (b : UInt8) : Option (Token.Kind × Token.Kind) :=
  if b = '!'.toUInt8 then some (.bang, .bangEqual)
  else if b = '='.toUInt8 then some (.equal, .equalEqual)
  else if b = '<'.toUInt8 then some (.less, .lessEqual)
  else if b = '>'.toUInt8 then some (.greater, .greaterEqual)
  else none

/-- A word: its first byte and all that continue it. -/
def matchWord (b : UInt8) (bs : Text) : Match :=
  let covered := b :: bs.takeWhile continuesWord
  { kind := .ofWord covered, covered, rest := bs.dropWhile continuesWord }

/-- Digits, and a fraction if a digit follows the point. -/
def matchNumber (b : UInt8) (bs : Text) : Match :=
  let whole := b :: bs.takeWhile isDigit
  match bs.dropWhile isDigit with
  | point :: d :: more =>
    if point = '.'.toUInt8 && isDigit d then
      { kind := .number
        covered := whole ++ point :: (d :: more).takeWhile isDigit
        rest := (d :: more).dropWhile isDigit }
    else { kind := .number, covered := whole, rest := point :: d :: more }
  | rest => { kind := .number, covered := whole, rest }

/-- A quoted string up to the next quote; without one, the rest of the source is an error. -/
def matchString (b : UInt8) (bs : Text) : Match :=
  let inner := bs.takeWhile (· != '"'.toUInt8)
  match bs.dropWhile (· != '"'.toUInt8) with
  | quote :: rest => { kind := .string, covered := b :: inner ++ [quote], rest }
  | [] => { kind := .error .unterminatedString, covered := b :: inner, rest := [] }

/-- An operator of one byte, or of two if an equals sign follows. -/
def matchComparison (b : UInt8) (bs : Text) (short long : Token.Kind) : Match :=
  match bs with
  | c :: rest =>
    if c = '='.toUInt8 then { kind := long, covered := [b, c], rest }
    else { kind := short, covered := [b], rest := bs }
  | [] => { kind := short, covered := [b], rest := [] }

/-- The token form at a byte that is no trivia. -/
def matchToken (b : UInt8) (bs : Text) : Match :=
  if beginsWord b then matchWord b bs
  else if isDigit b then matchNumber b bs
  else match punctuation? b with
    | some kind => { kind, covered := [b], rest := bs }
    | none => match comparison? b with
      | some (short, long) => matchComparison b bs short long
      | none =>
        if b = '"'.toUInt8 then matchString b bs
        else { kind := .error .unexpectedCharacter, covered := [b], rest := bs }

end Lexer

/-! ## The cursor -/

/-- The source still to be read, and where it begins. -/
structure Cursor where
  rest : Text
  position : Position
  deriving DecidableEq, Repr

namespace Cursor

/-- A cursor at the beginning of a source. -/
def ofSource (source : Text) : Cursor :=
  { rest := source, position := .start }

/-- Passes over blanks and comments.  Inside a comment everything up to the line feed is passed
over, and the line feed is then a blank like any other. -/
def skipTriviaFrom : (inComment : Bool) → Text → Position → Cursor
  | _, [], p => { rest := [], position := p }
  | true, b :: bs, p => skipTriviaFrom (b != Text.newline) bs (p.step b)
  | false, b :: bs, p =>
    if Lexer.isBlank b then skipTriviaFrom false bs (p.step b)
    else if b = '/'.toUInt8 && bs.head? == some '/'.toUInt8 then skipTriviaFrom true bs (p.step b)
    else { rest := b :: bs, position := p }

/-- Passes over blanks and comments. -/
def skipTrivia (c : Cursor) : Cursor :=
  skipTriviaFrom false c.rest c.position

/-- The next token and the cursor after it.  At the end of the source that is the end token,
again and again. -/
def next (c : Cursor) : Token × Cursor :=
  let c := c.skipTrivia
  let p := c.position
  match c.rest with
  | [] =>
    ({ kind := .eof, lexeme := [], line := p.line, column := p.column,
       start := p.offset, stop := p.offset }, c)
  | b :: bs =>
    let m := Lexer.matchToken b bs
    let after := p.over m.covered
    let lexeme := match m.kind with
      | .error why => why.message
      | _ => m.covered
    ({ kind := m.kind, lexeme, line := p.line, column := p.column,
       start := p.offset, stop := after.offset }, { rest := m.rest, position := after })

/-- Reads at most `bound` tokens and then the end token; `done` holds the tokens read so far in
reverse.  Also gives the cursor where reading stopped. -/
def tokensLoop : (bound : Nat) → Cursor → (done : List Token) → List Token × Cursor
  | 0, c, done => let (t, c) := c.next; ((t :: done).reverse, c)
  | bound + 1, c, done =>
    let (t, c) := c.next
    if t.kind = .eof then ((t :: done).reverse, c) else tokensLoop bound c (t :: done)

/-- All tokens from here to the end, the end token included, and the cursor after them.  Each
token but the last covers a byte, so the bytes left bound their number. -/
def tokens (c : Cursor) : List Token × Cursor :=
  c.tokensLoop c.rest.length []

end Cursor

/-- The tokens of a source, ending with the end token. -/
def tokenize (source : Text) : List Token :=
  (Cursor.ofSource source).tokens.1

end Lox
