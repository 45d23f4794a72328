import Lox.Text
import Lox.Number.Binary

/-!
# Number literals

A literal is a run of decimal digits with an optional point and further digits.  It stands for
the double nearest to its exact value, ties to even.  A literal whose nearest double would be an
infinity, or zero although the literal is not, has no value.
-/

namespace Lox.Number

/-- The value of a run of decimal digits, continuing from `n`. -/
def readDigits (n : Nat) (digits : Text) : Nat :=
  digits.foldl (fun n d => 10 * n + (d.toNat - '0'.toNat)) n

/-- The bit pattern of the double a literal stands for, if it has one. -/
def readLiteral? (literal : Text) : Option UInt64 :=
  let whole := literal.takeWhile (· != '.'.toUInt8)
  let decimals := (literal.dropWhile (· != '.'.toUInt8)).drop 1
  let num := readDigits (readDigits 0 whole) decimals
  if num = 0 then some 0
  else
    let bits := nearestBits num (Nat.pow 10 decimals.length)
    if bits = 0 ∨ 0x7FF * Nat.pow 2 52 ≤ bits then none else some bits.toUInt64

end Lox.Number
