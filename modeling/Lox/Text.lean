/-!
# Byte text

Source text, names, string values and everything the machine prints are sequences of bytes, not
of characters: columns count bytes, a string may hold a NUL or an invalid encoding, and two
names are the same exactly when their bytes are.  `Text` is that sequence, kept as a list so
that scanning is recursion on the data and closed instances evaluate.

## Contents

* `Text` with the coercion from string literals (`Text.ofString`);
* decimal numerals (`Text.ofNat`, `Text.ofInt`) and padding to a column width;
* the part of a text before its first NUL (`Text.untilNul`), which is all that a message or a
  file name shows of it;
* line splitting (`Text.lines`) as a line reader sees it.
-/

namespace Lox

/-- A text is a sequence of bytes. -/
abbrev Text := List UInt8

namespace Text

/-- The bytes of a string in its UTF-8 encoding. -/
def ofString (s : String) : Text :=
  s.toUTF8.data.toList

/-- A string literal stands for its bytes wherever a text is expected. -/
instance : Coe String Text := ⟨ofString⟩

/-! ## Numerals -/

/-- The decimal numeral of a natural number, without leading zeros. -/
def ofNat (n : Nat) : Text :=
  (Nat.toDigits 10 n).map Char.toUInt8

/-- The decimal numeral of an integer, with a minus sign in front of a negative one. -/
def ofInt : Int → Text
  | .ofNat n => ofNat n
  | .negSucc n => '-'.toUInt8 :: ofNat (n + 1)

/-- Fills a text up to `width` bytes on the left; a longer text is left alone. -/
def padLeft (width : Nat) (fill : UInt8) (t : Text) : Text :=
  List.replicate (width - t.length) fill ++ t

/-- Fills a text up to `width` bytes with blanks on the right. -/
def padRight (width : Nat) (t : Text) : Text :=
  t ++ List.replicate (width - t.length) ' '.toUInt8

/-! ## Messages -/

/-- The text up to its first NUL byte.  Error messages and file names end there. -/
def untilNul (t : Text) : Text :=
  t.takeWhile (· != 0)

/-! ## Lines -/

/-- The line feed, which ends a line. -/
def newline : UInt8 := '\n'.toUInt8

/-- The lines still to be read: `current` holds, in reverse, the bytes of the line being read,
and `done`, in reverse, the lines already complete. -/
def linesLoop : Text → (current : Text) → (done : List Text) → List Text
  | [], [], done => done.reverse
  | [], current, done => (current.reverse :: done).reverse
  | b :: bs, current, done =>
    if b = newline then linesLoop bs [] (current.reverse :: done)
    else linesLoop bs (b :: current) done

/-- The lines of a text without their line feeds.  Bytes after the last line feed make a line
of their own only if there are any. -/
def lines (t : Text) : List Text :=
  linesLoop t [] []

/-- Texts joined by a separator. -/
def join (separator : Text) (ts : List Text) : Text :=
  (ts.intersperse separator).flatten

end Text

end Lox
