/-!
# Double-precision numbers

A finite double is a sign and a magnitude, and the magnitudes form a chain: zero, the least
positive one, the next, and so on up to the last below infinity. A number is kept as its
place in that chain, its *rank*; adding one to the rank steps to the next double. Every
magnitude is a whole number of *units* of `2 ^ -1074`, so that reading and writing need
natural numbers only.

## Main definitions

* `Binary64` — a double, with a single value that is not a number
* `Binary64.unitsOfRank` — the exact magnitude of a rank
* `Binary64.nearestRank` — the rank nearest to a quotient, a tie going to the even rank
* `Binary64.ofDecimal` — the double nearest to a decimal
* `Binary64.sameAs` — equality as arithmetic has it
-/

namespace Scriptlet

namespace Binary64

/-- How many magnitudes there are between a power of two and the next. -/
abbrev binade : Nat := Nat.pow 2 52

/-- How many units there are in one. -/
abbrev unitsOfOne : Nat := Nat.pow 2 1074

/-- The rank at which infinity stands: 2046 binades, and the magnitudes below all of them,
come before it. -/
abbrev infinityRank : Nat := 2047 * binade

end Binary64

/-- A double-precision number. -/
inductive Binary64
  | finite (negative : Bool) (rank : Fin Binary64.infinityRank)
  | infinite (negative : Bool)
  | nan
  deriving DecidableEq, Repr

namespace Binary64

/-- How often the spacing of magnitudes has doubled below this rank. -/
def scaleOfRank (rank : Nat) : Nat := rank / binade - 1

/-- The magnitude of a rank, in units of `2 ^ -1074`. -/
def unitsOfRank (rank : Nat) : Nat :=
  (rank - scaleOfRank rank * binade) * Nat.pow 2 (scaleOfRank rank)

/-- The natural number nearest to `num / den`; a tie goes to the even neighbour. -/
def roundHalfEven (num den : Nat) : Nat :=
  let quotient := num / den
  let doubled := 2 * (num % den)
  if doubled < den ∨ (doubled = den ∧ quotient % 2 = 0) then quotient else quotient + 1

/-- The rank nearest to `num / den`, a tie going to the even one. The quotient keeps 53
binary digits at most; rounding up into the next binade steps to that binade's first rank. -/
def nearestRank (num den : Nat) : Nat :=
  let units := num * unitsOfOne
  -- below `2 ^ 53` units, magnitudes are one unit apart
  let scale := Nat.log2 (units / den) - 52
  scale * binade + roundHalfEven units (den * Nat.pow 2 scale)

/-- The number with this sign and rank; every rank past the finite ones is infinity. -/
def ofRank (negative : Bool) (rank : Nat) : Binary64 :=
  if h : rank < infinityRank then finite negative ⟨rank, h⟩ else infinite negative

/-- The rank nearest to `digits * 10 ^ exponent`. -/
def rankOfDecimal (digits : Nat) (exponent : Int) : Nat :=
  nearestRank (digits * Nat.pow 10 exponent.toNat) (Nat.pow 10 (-exponent).toNat)

/-- The double nearest to `digits * 10 ^ exponent`, a tie going to the even rank; what lies
beyond the largest double by half a step or more is infinite. -/
def ofDecimal (negative : Bool) (digits : Nat) (exponent : Int) : Binary64 :=
  ofRank negative (rankOfDecimal digits exponent)

/-- Equality of arithmetic: what is not a number differs from everything, itself included,
and the two zeros are equal. -/
def sameAs : Binary64 → Binary64 → Bool
  | finite s r, finite s' r' => r == r' && (s == s' || r.val == 0)
  | infinite s, infinite s' => s == s'
  | _, _ => false

end Binary64

end Scriptlet
