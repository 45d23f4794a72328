import Lox.Text

/-!
# Structured documents

Diagnostics can be written as JSON for other programs to read.  A `Document` is as much of JSON
as they need, and `Document.render` lays it out: an item or field per line, two more blanks of
indent per level, and nothing between the brackets of an empty list.  Bytes that are not
controls, quotes or backslashes are written as they are.
-/

namespace Lox

/-- A structured document. -/
inductive Document where
  | text (t : Text)
  | number (n : Nat)
  | list (items : List Document)
  /-- Named fields, in the order they are written. -/
  | record (fields : List (Text × Document))

namespace Document

/-- A hexadecimal digit. -/
def hexDigit (n : Nat) : UInt8 :=
  if n < 10 then '0'.toUInt8 + n.toUInt8 else 'a'.toUInt8 + (n - 10).toUInt8

/-- A byte inside quotes. -/
def escapeByte (b : UInt8) : Text :=
  if b = '"'.toUInt8 then "\\\""
  else if b = '\\'.toUInt8 then "\\\\"
  else if b = 8 then "\\b"
  else if b = 12 then "\\f"
  else if b = '\n'.toUInt8 then "\\n"
  else if b = '\r'.toUInt8 then "\\r"
  else if b = '\t'.toUInt8 then "\\t"
  else if b < 32 then Text.ofString "\\u00" ++ [hexDigit (b.toNat / 16), hexDigit (b.toNat % 16)]
  else [b]

/-- A text in quotes. -/
def quote (t : Text) : Text :=
  ['"'.toUInt8] ++ t.flatMap escapeByte ++ ['"'.toUInt8]

/-- A new line with an indent. -/
def lineBreak (indent : Nat) : Text :=
  Text.newline :: List.replicate indent ' '.toUInt8

mutual

/-- Lays out a document whose first line is already indented. -/
def renderAt (indent : Nat) : Document → Text
  | .text t => quote t
  | .number n => Text.ofNat n
  | .list [] => "[]"
  | .list (item :: items) =>
    Text.ofString "[" ++ lineBreak (indent + 2) ++ renderAt (indent + 2) item ++
      renderItems (indent + 2) items ++ lineBreak indent ++ Text.ofString "]"
  | .record [] => "\x7b\x7d"
  | .record (field :: fields) =>
    Text.ofString "\x7b" ++ lineBreak (indent + 2) ++ renderField (indent + 2) field ++
      renderFields (indent + 2) fields ++ lineBreak indent ++ Text.ofString "\x7d"

/-- The items of a list after the first. -/
def renderItems (indent : Nat) : List Document → Text
  | [] => []
  | item :: items =>
    Text.ofString "," ++ lineBreak indent ++ renderAt indent item ++ renderItems indent items

/-- A field with its name. -/
def renderField (indent : Nat) : Text × Document → Text
  | (name, value) => quote name ++ Text.ofString ": " ++ renderAt indent value

/-- The fields of a record after the first. -/
def renderFields (indent : Nat) : List (Text × Document) → Text
  | [] => []
  | field :: fields =>
    Text.ofString "," ++ lineBreak indent ++ renderField indent field ++ renderFields indent fields

end

/-- The layout of a document. -/
def render (d : Document) : Text :=
  renderAt 0 d

end Document

end Lox
