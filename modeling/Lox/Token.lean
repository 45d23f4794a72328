import Lox.Text

/-!
# Tokens

A token records what kind of word it is, the bytes it is spelled with, where it begins (line and
column, both counted from one) and which bytes of the source it covers.  Malformed input is a
kind of token too: an error token covers the bytes that could not be read, and shows the complaint
in place of its spelling.
-/

namespace Lox

/-- Why a stretch of source is no token. -/
inductive LexicalError where
  | unexpectedCharacter
  | unterminatedString
  deriving DecidableEq, Repr

/-- The complaint as it is shown to the user. -/
def LexicalError.message : LexicalError → Text
  | .unexpectedCharacter => "Unexpected character."
  | .unterminatedString => "Unterminated string."

/-- The kinds of tokens.  A keyword's kind is named for its word. -/
inductive Token.Kind where
  | eof
  | error (why : LexicalError)
  | number
  | string
  | identifier
  | andWord
  | classWord
  | elseWord
  | falseWord
  | forWord
  | funWord
  | ifWord
  | nilWord
  | orWord
  | printWord
  | returnWord
  | superWord
  | thisWord
  | trueWord
  | typeofWord
  | varWord
  | whileWord
  | plus
  | minus
  | star
  | slash
  | bang
  | bangEqual
  | equal
  | equalEqual
  | greater
  | greaterEqual
  | less
  | lessEqual
  | leftParen
  | rightParen
  | leftBrace
  | rightBrace
  | comma
  | dot
  | semicolon
  deriving DecidableEq, Repr

namespace Token.Kind

/-- The names of the kinds, in the order of their tags. -/
def names : List String :=
  ["EOF", "ERROR", "NUMBER", "STRING", "IDENTIFIER",
   "AND", "CLASS", "ELSE", "FALSE", "FOR", "FUN", "IF", "NIL", "OR", "PRINT", "RETURN", "SUPER",
   "THIS", "TRUE", "TYPEOF", "VAR", "WHILE",
   "PLUS", "MINUS", "STAR", "SLASH", "BANG", "BANG_EQUAL", "EQUAL", "EQUAL_EQUAL",
   "GREATER", "GREATER_EQUAL", "LESS", "LESS_EQUAL",
   "LEFT_PAREN", "RIGHT_PAREN", "LEFT_BRACE", "RIGHT_BRACE", "COMMA", "DOT", "SEMICOLON"]

/-- The number of a kind in the listing order; all errors share one. -/
def tag : Kind → Nat
  | .eof => 0
  | .error _ => 1
  | .number => 2
  | .string => 3
  | .identifier => 4
  | .andWord => 5
  | .classWord => 6
  | .elseWord => 7
  | .falseWord => 8
  | .forWord => 9
  | .funWord => 10
  | .ifWord => 11
  | .nilWord => 12
  | .orWord => 13
  | .printWord => 14
  | .returnWord => 15
  | .superWord => 16
  | .thisWord => 17
  | .trueWord => 18
  | .typeofWord => 19
  | .varWord => 20
  | .whileWord => 21
  | .plus => 22
  | .minus => 23
  | .star => 24
  | .slash => 25
  | .bang => 26
  | .bangEqual => 27
  | .equal => 28
  | .equalEqual => 29
  | .greater => 30
  | .greaterEqual => 31
  | .less => 32
  | .lessEqual => 33
  | .leftParen => 34
  | .rightParen => 35
  | .leftBrace => 36
  | .rightBrace => 37
  | .comma => 38
  | .dot => 39
  | .semicolon => 40

/-- The name of the kind with a given tag.  A tag is a signed word of 32 bits, and a word that
is the tag of no kind is unknown. -/
def nameOfTag (tag : Int32) : Text :=
  match tag.toInt with
  | .ofNat n => Text.ofString (names.getD n "UNKNOWN")
  | .negSucc _ => "UNKNOWN"

/-- The keywords' tags form one block. -/
def isKeywordTag (tag : Int32) : Bool :=
  (andWord.tag : Int) ≤ tag.toInt && tag.toInt ≤ (whileWord.tag : Int)

/-- The name of a kind. -/
def name (k : Kind) : Text :=
  nameOfTag (.ofNat k.tag)

/-- Whether a kind is that of a keyword. -/
def isKeyword (k : Kind) : Bool :=
  isKeywordTag (.ofNat k.tag)

/-- The seventeen keywords. -/
def keywords : List (Text × Kind) :=
  [("and", .andWord), ("class", .classWord), ("else", .elseWord), ("false", .falseWord),
   ("for", .forWord), ("fun", .funWord), ("if", .ifWord), ("nil", .nilWord), ("or", .orWord),
   ("print", .printWord), ("return", .returnWord), ("super", .superWord), ("this", .thisWord),
   ("true", .trueWord), ("typeof", .typeofWord), ("var", .varWord), ("while", .whileWord)]

/-- The kind of a word: that of a keyword, or else an identifier. -/
def ofWord (w : Text) : Kind :=
  (keywords.lookup w).getD .identifier

end Token.Kind

/-- A word of the source. -/
structure Token where
  /-- What it is. -/
  kind : Token.Kind
  /-- How it is spelled; for an error token, the complaint. -/
  lexeme : Text
  /-- The line of its first byte, from one. -/
  line : UInt32
  /-- The column of its first byte, from one. -/
  column : UInt32
  /-- The offset of its first byte. -/
  start : Nat
  /-- The offset just past its last byte. -/
  stop : Nat
  deriving DecidableEq, Repr

/-- The token nothing has been read into yet. -/
def Token.blank : Token :=
  { kind := .eof, lexeme := [], line := 0, column := 0, start := 0, stop := 0 }

instance : Inhabited Token := ⟨.blank⟩

/-- A one-line description: kind, spelling if any, position. -/
def Token.toText (t : Token) : Text :=
  let spelling : Text := if t.lexeme.isEmpty then [] else " '" ++ t.lexeme ++ "'"
  t.kind.name ++ spelling ++ " at line " ++ Text.ofNat t.line.toNat ++ ":" ++
    Text.ofNat t.column.toNat

end Lox
