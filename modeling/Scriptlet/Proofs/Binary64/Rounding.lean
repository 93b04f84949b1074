import Mathlib.Algebra.Order.Field.Power
import Mathlib.Data.Nat.Log
import Mathlib.Data.Rat.Cast.Order
import Mathlib.Tactic.Linarith
import Mathlib.Tactic.Ring
import Scriptlet.Binary64.Basic

/-!
# Rounding to doubles

Greater numbers are rounded to greater doubles. That is so within a binade, as the natural number
nearest to a quotient grows with the quotient; and from one binade to the next, as a binade goes up
to where the next one begins. It follows that the double of a decimal depends on its value alone and
not on how the value is written.

## Main results

* `Binary64.nearestRank_le` — rounding is monotone
* `Binary64.nearestRank_unitsOfRank` — doubles are not rounded
* `Binary64.rankOfDecimal_le`, `Binary64.rankOfDecimal_eq` — decimals in order, and of one value
-/

namespace Scriptlet.Binary64

/-! ### Natural numbers nearest to a quotient -/

section

variable {num num' den den' : Nat}

/-- The number above `k` is reached halfway, and with an even number a tie does. -/
theorem lt_roundHalfEven_iff (pos : 0 < den) {k : Nat} :
    k < roundHalfEven num den ↔
      (2 * k + 1) * den < 2 * num ∨ (2 * k + 1) * den = 2 * num ∧ k % 2 = 1 := by
  have whole := Nat.div_add_mod num den
  have small := Nat.mod_lt num pos
  unfold roundHalfEven
  generalize num / den = q at *
  generalize num % den = r at *
  subst whole
  -- the quotient tells all but the tie, for which the rest is asked
  rcases Nat.lt_trichotomy k q with less | rfl | greater
  · have step : den * (k + 1) ≤ den * q := Nat.mul_le_mul_left den less
    have below : (2 * k + 1) * den < 2 * (den * q + r) := by linarith
    simp only [below, true_or, iff_true]
    split <;> omega
  · have split : (2 * k + 1) * den = 2 * (den * k) + den := by ring
    rw [split]
    -- here the rest decides, as rounding does
    by_cases down : 2 * r < den ∨ 2 * r = den ∧ k % 2 = 0
    · rw [if_pos down]
      omega
    · rw [if_neg down]
      omega
  · have step : den * (q + 1) ≤ den * k := Nat.mul_le_mul_left den greater
    have above : 2 * (den * q + r) < (2 * k + 1) * den := by linarith
    simp only [Nat.not_lt_of_lt above, Nat.ne_of_gt above, false_and, or_self, iff_false]
    split <;> omega

/-- A quotient is rounded to no more than a greater one. -/
theorem roundHalfEven_le (pos : 0 < den) (pos' : 0 < den') (h : num * den' ≤ num' * den) :
    roundHalfEven num den ≤ roundHalfEven num' den' := by
  refine le_of_forall_lt fun k less => ?_
  rw [lt_roundHalfEven_iff pos] at less
  rw [lt_roundHalfEven_iff pos']
  -- a tie above an odd number is rounded up, so that it is enough to reach it
  rcases less with above | ⟨tie, odd⟩
  · left
    refine lt_of_mul_lt_mul_right ?_ den.zero_le
    calc (2 * k + 1) * den' * den = (2 * k + 1) * den * den' := by ring
      _ < 2 * num * den' := Nat.mul_lt_mul_of_pos_right above pos'
      _ = 2 * (num * den') := by ring
      _ ≤ 2 * (num' * den) := Nat.mul_le_mul_left 2 h
      _ = 2 * num' * den := by ring
  · have reached : (2 * k + 1) * den' ≤ 2 * num' := by
      refine le_of_mul_le_mul_right ?_ pos
      calc (2 * k + 1) * den' * den = (2 * k + 1) * den * den' := by ring
        _ = 2 * (num * den') := by rw [tie]; ring
        _ ≤ 2 * (num' * den) := Nat.mul_le_mul_left 2 h
        _ = 2 * num' * den := by ring
    exact (Nat.lt_or_eq_of_le reached).imp_right fun eq => ⟨eq, odd⟩

@[simp] theorem roundHalfEven_mul (pos : 0 < den) (k : Nat) : roundHalfEven (k * den) den = k := by
  simp [roundHalfEven, Nat.mul_div_cancel _ pos, pos]

theorem roundHalfEven_le_of_le (pos : 0 < den) {k : Nat} (h : num ≤ k * den) :
    roundHalfEven num den ≤ k := by
  have le := roundHalfEven_le pos pos (Nat.mul_le_mul_right den h)
  rwa [roundHalfEven_mul pos] at le

theorem le_roundHalfEven_of_le (pos : 0 < den) {k : Nat} (h : k * den ≤ num) :
    k ≤ roundHalfEven num den := by
  have le := roundHalfEven_le pos pos (Nat.mul_le_mul_right den h)
  rwa [roundHalfEven_mul pos] at le

end

/-! ### Ranks -/

section

variable {num num' den den' : Nat}

/-- How often the spacing of magnitudes has doubled below a number of units. -/
def scaleOfUnits (units : Nat) : Nat := Nat.log2 units - 52

theorem nearestRank_eq (num den : Nat) :
    nearestRank num den =
      scaleOfUnits (num * unitsOfOne / den) * 2 ^ 52 + roundHalfEven (num * unitsOfOne)
        (den * 2 ^ scaleOfUnits (num * unitsOfOne / den)) :=
  rfl

theorem scaleOfUnits_le {units units' : Nat} (h : units ≤ units') :
    scaleOfUnits units ≤ scaleOfUnits units' := by
  rw [scaleOfUnits, scaleOfUnits, Nat.log2_eq_log_two, Nat.log2_eq_log_two]
  exact Nat.sub_le_sub_right (Nat.log_mono_right h) 52

theorem lt_of_scaleOfUnits (units : Nat) : units < 2 ^ 53 * 2 ^ scaleOfUnits units := by
  rw [← Nat.pow_add]
  refine Nat.lt_of_lt_of_le Nat.lt_log2_self (Nat.pow_le_pow_right (by decide) ?_)
  rw [scaleOfUnits]
  omega

theorem le_of_scaleOfUnits {units : Nat} (pos : 0 < scaleOfUnits units) :
    2 ^ 52 * 2 ^ scaleOfUnits units ≤ units := by
  have ne : units ≠ 0 := by
    rintro rfl
    simp [scaleOfUnits] at pos
  rw [← Nat.pow_add, ← Nat.le_log2 ne]
  rw [scaleOfUnits] at pos ⊢
  omega

/-- Rounding is monotone. -/
theorem nearestRank_le (pos : 0 < den) (pos' : 0 < den') (h : num * den' ≤ num' * den) :
    nearestRank num den ≤ nearestRank num' den' := by
  rw [nearestRank_eq, nearestRank_eq]
  have units : num * unitsOfOne * den' ≤ num' * unitsOfOne * den := by
    calc num * unitsOfOne * den' = num * den' * unitsOfOne := by ring
      _ ≤ num' * den * unitsOfOne := Nat.mul_le_mul_right _ h
      _ = num' * unitsOfOne * den := by ring
  generalize num * unitsOfOne = a at *
  generalize num' * unitsOfOne = a' at *
  have floors : a / den ≤ a' / den' := by
    rw [Nat.le_div_iff_mul_le pos']
    refine le_of_mul_le_mul_right ?_ pos
    calc a / den * den' * den = a / den * den * den' := by ring
      _ ≤ a * den' := Nat.mul_le_mul_right den' (Nat.div_mul_le_self a den)
      _ ≤ a' * den := units
  have spaced (k : Nat) {d : Nat} (pos : 0 < d) : 0 < d * 2 ^ k := Nat.mul_pos pos (by simp)
  rcases Nat.lt_or_eq_of_le (scaleOfUnits_le floors) with less | same
  · -- the rank is at most that at which the next binade begins
    generalize hs : scaleOfUnits (a / den) = s at *
    generalize hs' : scaleOfUnits (a' / den') = s' at *
    have low : roundHalfEven a (den * 2 ^ s) ≤ 2 ^ 53 := by
      refine roundHalfEven_le_of_le (spaced s pos) ?_
      have below := lt_of_scaleOfUnits (a / den)
      rw [hs, Nat.div_lt_iff_lt_mul pos] at below
      calc a ≤ 2 ^ 53 * 2 ^ s * den := Nat.le_of_lt below
        _ = 2 ^ 53 * (den * 2 ^ s) := by ring
    have high : 2 ^ 52 ≤ roundHalfEven a' (den' * 2 ^ s') := by
      refine le_roundHalfEven_of_le (spaced s' pos') ?_
      have above := le_of_scaleOfUnits (hs' ▸ Nat.zero_lt_of_lt less)
      rw [hs', Nat.le_div_iff_mul_le pos'] at above
      calc 2 ^ 52 * (den' * 2 ^ s') = 2 ^ 52 * 2 ^ s' * den' := by ring
        _ ≤ a' := above
    have step : (s + 1) * 2 ^ 52 ≤ s' * 2 ^ 52 := Nat.mul_le_mul_right _ less
    omega
  · -- within a binade rounding is that of one quotient
    rw [same]
    generalize scaleOfUnits (a' / den') = s
    refine Nat.add_le_add_left (roundHalfEven_le (spaced s pos) (spaced s pos') ?_) _
    calc a * (den' * 2 ^ s) = a * den' * 2 ^ s := by ring
      _ ≤ a' * den * 2 ^ s := Nat.mul_le_mul_right _ units
      _ = a' * (den * 2 ^ s) := by ring

/-- Quotients of one value are rounded alike. -/
theorem nearestRank_eq_of_eq (pos : 0 < den) (pos' : 0 < den') (h : num * den' = num' * den) :
    nearestRank num den = nearestRank num' den' :=
  Nat.le_antisymm (nearestRank_le pos pos' (Nat.le_of_eq h))
    (nearestRank_le pos' pos (Nat.le_of_eq h.symm))

theorem scaleOfUnits_eq {units s : Nat} (below : units < 2 ^ 53 * 2 ^ s)
    (above : s = 0 ∨ 2 ^ 52 * 2 ^ s ≤ units) : scaleOfUnits units = s := by
  rw [scaleOfUnits]
  by_cases zero : units = 0
  · subst zero
    have none : s = 0 := above.resolve_right (by simp)
    simp [none]
  · rw [← Nat.pow_add, ← Nat.log2_lt zero] at below
    rw [← Nat.pow_add, ← Nat.le_log2 zero] at above
    omega

/-- A rank is the binades below the one that it stands in, but for the first, and the place among
the multiples of its spacing. -/
theorem exists_unitsOfRank (rank : Nat) : ∃ s k, rank = s * 2 ^ 52 + k ∧
    unitsOfRank rank = k * 2 ^ s ∧ k < 2 ^ 53 ∧ (s = 0 ∨ 2 ^ 52 ≤ k) := by
  have scale : scaleOfRank rank = rank / 2 ^ 52 - 1 := rfl
  refine ⟨scaleOfRank rank, rank - scaleOfRank rank * 2 ^ 52, ?_, rfl, ?_⟩ <;> omega

/-- Doubles are not rounded. -/
theorem nearestRank_unitsOfRank (rank : Nat) :
    nearestRank (unitsOfRank rank) unitsOfOne = rank := by
  obtain ⟨s, k, eq, units, below, above⟩ := exists_unitsOfRank rank
  have scale : scaleOfUnits (k * 2 ^ s) = s :=
    scaleOfUnits_eq (Nat.mul_lt_mul_of_pos_right below (by simp))
      (above.imp_right (Nat.mul_le_mul_right _))
  have pos : 0 < unitsOfOne := by decide +kernel
  rw [nearestRank_eq, units, eq]
  generalize unitsOfOne = one at *
  have whole : k * 2 ^ s * one = k * (one * 2 ^ s) := by ring
  rw [Nat.mul_div_cancel _ pos, scale, whole, roundHalfEven_mul (Nat.mul_pos pos (by simp))]

end

/-! ### Decimals -/

section

variable {m m' : Nat} {e e' : Int}

theorem pow_toNat (e : Int) : (10 : ℚ) ^ e.toNat = 10 ^ e * 10 ^ (-e).toNat := by
  rw [← zpow_natCast, ← zpow_natCast, ← zpow_add₀ (by norm_num)]
  congr 1
  omega

/-- Decimals in order are rounded in order. -/
theorem rankOfDecimal_le (h : (m : ℚ) * 10 ^ e ≤ m' * 10 ^ e') :
    rankOfDecimal m e ≤ rankOfDecimal m' e' := by
  have pos (k : Nat) : 0 < 10 ^ k := Nat.pow_pos (by decide)
  refine nearestRank_le (pos _) (pos _) ?_
  have scaled : (m : ℚ) * 10 ^ e.toNat * 10 ^ (-e').toNat ≤
      m' * 10 ^ e'.toNat * 10 ^ (-e).toNat := by
    calc (m : ℚ) * 10 ^ e.toNat * 10 ^ (-e').toNat
        = m * 10 ^ e * (10 ^ (-e).toNat * 10 ^ (-e').toNat) := by rw [pow_toNat]; ring
      _ ≤ m' * 10 ^ e' * (10 ^ (-e).toNat * 10 ^ (-e').toNat) :=
        mul_le_mul_of_nonneg_right h (by positivity)
      _ = m' * 10 ^ e'.toNat * 10 ^ (-e).toNat := by rw [pow_toNat e']; ring
  exact_mod_cast scaled

/-- Decimals of one value are rounded alike. -/
theorem rankOfDecimal_eq (h : (m : ℚ) * 10 ^ e = m' * 10 ^ e') :
    rankOfDecimal m e = rankOfDecimal m' e' :=
  Nat.le_antisymm (rankOfDecimal_le h.le) (rankOfDecimal_le h.ge)

end

end Scriptlet.Binary64
