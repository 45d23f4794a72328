/-!
# Doubles as exact fractions

A number of the language is an IEEE-754 double.  Printing one and reading a literal are rules
about the real number a bit pattern stands for, so both work on exact naturals: this module
takes a pattern apart into a significand and a power of two (`Binary.ofBits`) and puts the
nearest double to a fraction together again (`nearestBits`).

A finite double is `significand · 2 ^ power / 2 ^ 1075` with `1 ≤ power`; the offset keeps
the exponent natural.
-/

namespace Lox.Number

/-- What a 64-bit pattern stands for, its sign apart. -/
inductive Magnitude where
  /-- Not a number. -/
  | nan
  /-- An infinity. -/
  | infinite
  /-- The value `significand · 2 ^ power / 2 ^ 1075`.  The neighbour below is only half as far
  away as the one above exactly when `narrow` is set: the significand is then the least of its
  binade. -/
  | finite (significand power : Nat) (narrow : Bool)
  deriving DecidableEq, Repr

/-- A double as sign and magnitude. -/
structure Binary where
  /-- The sign bit. -/
  negative : Bool
  /-- The rest. -/
  magnitude : Magnitude
  deriving DecidableEq, Repr

/-- Takes a bit pattern apart: one sign bit, eleven bits of exponent, fifty-two of fraction. -/
def Binary.ofBits (bits : UInt64) : Binary :=
  let n := bits.toNat
  let exponent := n / Nat.pow 2 52 % Nat.pow 2 11
  let fraction := n % Nat.pow 2 52
  { negative := n / Nat.pow 2 63 == 1
    magnitude :=
      if exponent = 0x7FF then
        if fraction = 0 then .infinite else .nan
      else if exponent = 0 then
        .finite fraction 1 false
      else
        .finite (Nat.pow 2 52 + fraction) exponent (fraction = 0 && exponent > 1) }

/-- The quotient rounded to the nearest natural number, a tie to the even one. -/
def divNearest (num den : Nat) : Nat :=
  let q := num / den
  let r := num % den
  if 2 * r < den then q
  else if den < 2 * r then q + 1
  else if q % 2 = 0 then q else q + 1

/-- The exponent of the binade that holds a positive fraction: the greatest `e` with
`2 ^ e ≤ num / den`. -/
def binade (num den : Nat) : Int :=
  let e : Int := (num.log2 : Int) - (den.log2 : Int)
  let reached : Bool :=
    if 0 ≤ e then decide (den <<< e.toNat ≤ num) else decide (den ≤ num <<< (-e).toNat)
  if reached then e else e - 1

/-- The bit pattern, as a natural number, of the double nearest to a positive fraction.  A carry
out of the significand runs into the exponent field, which is what rounding up to the next
binade means; a fraction too large for a double gives a number from `0x7FF0000000000000` on. -/
def nearestBits (num den : Nat) : Nat :=
  let unit : Int := max (binade num den - 52) (-1074)
  let significand :=
    if 0 ≤ unit then divNearest num (den <<< unit.toNat) else divNearest (num <<< (-unit).toNat) den
  (unit + 1074).toNat * Nat.pow 2 52 + significand

/-- The bit pattern of the double nearest to an integer. -/
def ofInt (i : Int) : UInt64 :=
  let sign := if i < 0 then Nat.pow 2 63 else 0
  let magnitude := if i = 0 then 0 else min (nearestBits i.natAbs 1) (0x7FF * Nat.pow 2 52)
  (sign + magnitude).toUInt64

end Lox.Number
