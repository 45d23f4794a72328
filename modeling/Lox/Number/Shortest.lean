/-!
# The fewest decimals that read back

For a fraction `m / 2 ^ k` that is a double, the decimals `d / 10 ^ s` that round to the same
double fill an interval around it.  `shortest` looks at the grids of 1, 2, 3, … decimal places in
turn and takes the first grid with a point in the interval; of two such points it takes the
nearer, of two equally near ones the even.  On the grid of `k` places the value itself is a
point, so the search ends there at the latest.

All of it is exact arithmetic on naturals: the interval's ends are multiples of a quarter of the
last binary place, so everything is scaled by `4 · 2 ^ k · 10 ^ s`.
-/

namespace Lox.Number

/-- A decimal fraction `digits / 10 ^ places`. -/
structure Decimal where
  /-- All digits, read as one natural number. -/
  digits : Nat
  /-- How many of them follow the point. -/
  places : Nat
  deriving DecidableEq, Repr

/-- The point of the grid with `places` decimal places that rounds to the double `m / 2 ^ k`,
if there is one.  The ends of the rounding interval belong to it exactly when `m` is even, and
its lower half is only half as wide if `narrow`. -/
def gridPoint? (m k : Nat) (narrow : Bool) (places : Nat) : Option Nat :=
  let ten := Nat.pow 10 places
  let unit := Nat.pow 2 (k + 2)
  let value := 4 * m * ten
  let low := (4 * m - if narrow then 1 else 2) * ten
  let high := (4 * m + 2) * ten
  let inside (d : Nat) : Bool :=
    if m % 2 = 0 then low ≤ d * unit && d * unit ≤ high else low < d * unit && d * unit < high
  let below := value / unit
  let above := below + 1
  match inside below, inside above with
  | true, true =>
    let down := value - below * unit
    let up := above * unit - value
    if down < up then some below
    else if up < down then some above
    else if below % 2 = 0 then some below else some above
  | true, false => some below
  | false, true => some above
  | false, false => none

/-- Searches the grids from `places` on, at most `more` of them before the last one, on which the
value is exact. -/
def shortestFrom (m k : Nat) (narrow : Bool) : (more places : Nat) → Decimal
  | 0, places => ⟨m * Nat.pow 10 places / Nat.pow 2 k, places⟩
  | more + 1, places =>
    match gridPoint? m k narrow places with
    | some d => ⟨d, places⟩
    | none => shortestFrom m k narrow more (places + 1)

/-- The shortest decimal that reads back as the double `m / 2 ^ k`, for a value that is not
integral, so that it has at least one decimal place. -/
def shortest (m k : Nat) (narrow : Bool) : Decimal :=
  shortestFrom m k narrow (k - 1) 1

end Lox.Number
