import Lox.Text
import Lox.Number.Binary
import Lox.Number.Shortest

/-!
# The printed form of a number

An integral value prints its exact decimal expansion, however long; any other value prints the
shortest decimal that reads back.  There is never an exponent, a negative zero keeps its sign,
and the three special values print as `NaN`, `inf` and `-inf`.
-/

namespace Lox.Number

/-- A decimal fraction in positional notation, with all its places written. -/
def Decimal.toText (d : Decimal) : Text :=
  Text.ofNat (d.digits / Nat.pow 10 d.places) ++
    '.'.toUInt8 :: Text.padLeft d.places '0'.toUInt8 (Text.ofNat (d.digits % Nat.pow 10 d.places))

/-- The digits of the finite value `significand · 2 ^ power / 2 ^ 1075`. -/
def formatFinite (significand power : Nat) (narrow : Bool) : Text :=
  if 1075 ≤ power then
    Text.ofNat (significand * Nat.pow 2 (power - 1075))
  else
    let k := 1075 - power
    if significand % Nat.pow 2 k = 0 then Text.ofNat (significand / Nat.pow 2 k)
    else (shortest significand k narrow).toText

/-- The printed form of the double with this bit pattern. -/
def format (bits : UInt64) : Text :=
  let b := Binary.ofBits bits
  let sign : Text := if b.negative then "-" else ""
  match b.magnitude with
  | .nan => "NaN"
  | .infinite => sign ++ "inf"
  | .finite significand power narrow => sign ++ formatFinite significand power narrow

/-- Whether a bit pattern stands for no number. -/
def isNaN (bits : UInt64) : Bool :=
  (Binary.ofBits bits).magnitude == .nan

end Lox.Number
