import Scriptlet.Binary64.Basic

/-!
# The fewest digits that read back

Between two decimals of the same number of digits that read back as the same double, the
nearer one is chosen, and of two equally near ones the greater. The digits are found by
trying one digit, two, and so on: with `n` digits there are just two neighbours of the
magnitude to try, one below and one above. Seventeen digits always suffice.

## Main definitions

* `Decimal` — the digits of a number and the place of its point
* `Binary64.shortest` — the shortest decimal that reads back as a finite rank
-/

namespace Scriptlet

/-- The number `0.d₁d₂d₃… * 10 ^ point`. -/
structure Decimal where
  digits : List Char
  point : Int
  deriving DecidableEq, Repr

namespace Decimal

/-- The decimal for `coefficient * 10 ^ exponent`, without the zeros at its end. -/
def ofCoefficient (coefficient : Nat) (exponent : Int) : Decimal :=
  let digits := Nat.toDigits 10 coefficient
  ⟨(digits.reverse.dropWhile (· == '0')).reverse, digits.length + exponent⟩

end Decimal

namespace Binary64

/-- The exponent `p` with `10 ^ (p - 1) ≤ num / den < 10 ^ p`, for a positive quotient that
is at least one or is no power of ten; no binary fraction below one is such a power. -/
def decimalPoint (num den : Nat) : Int :=
  if den ≤ num then (Nat.toDigits 10 (num / den)).length
  else 1 - ((Nat.toDigits 10 (den / num)).length : Int)

/-- Of the two neighbours of the magnitude of `rank` among the multiples of
`10 ^ exponent`, the nearer one that reads back as `rank`. -/
def neighbour? (rank : Nat) (exponent : Int) : Option Nat :=
  let num := unitsOfRank rank * Nat.pow 10 (-exponent).toNat
  let den := unitsOfOne * Nat.pow 10 exponent.toNat
  let below := num / den
  let lower := rankOfDecimal below exponent == rank
  let upper := rankOfDecimal (below + 1) exponent == rank
  if upper && (!lower || den ≤ 2 * (num % den)) then some (below + 1)
  else if lower then some below
  else none

/-- The shortest decimal that reads back as this positive rank. The exact one stands at the
end for a rank that no seventeen digits reach; there is none. -/
def shortest (rank : Nat) : Decimal :=
  let point := decimalPoint (unitsOfRank rank) unitsOfOne
  let attempt := (List.range 17).findSome? fun n =>
    let exponent := point - (n + 1 : Nat)
    (neighbour? rank exponent).map (Decimal.ofCoefficient · exponent)
  attempt.getD (Decimal.ofCoefficient (unitsOfRank rank * Nat.pow 5 1074) (-1074))

end Binary64

end Scriptlet
