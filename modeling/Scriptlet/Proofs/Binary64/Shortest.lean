import Mathlib.Data.List.DropRight
import Scriptlet.Binary64.Text
import Scriptlet.Proofs.Binary64.Rounding

/-!
# Doubles in writing

The digits found for a double denote a decimal that is rounded to this double. Written around a
point they denote the same decimal, with zeros where digits are missing. Whether a double is written
so or with an exponent is decided by its size: the bounds are `1e-4` and `1e16`, and for these
themselves the point is found where it should be.

## Main definitions

* `Decimal.value` — the number that a decimal stands for
* `Decimal.whole`, `Decimal.fraction` — the digits before and after the point

## Main results

* `Decimal.value_ofCoefficient` — the zeros left out do not count
* `Binary64.exists_shortest` — what is found for a rank reads back as this rank
* `Binary64.ofDigits_shortest` — so it does when it is written around a point
* `Binary64.point_shortest_iff` — which ranks are written so
-/

namespace Scriptlet

/-! ### Digits and zeros -/

namespace Text

theorem digitsValue_append (digits others : List Char) :
    digitsValue (digits ++ others) =
      digitsValue digits * 10 ^ others.length + digitsValue others := by
  induction others using List.reverseRecOn with
  | nil => simp
  | append_singleton others d ih =>
    rw [← List.append_assoc, digitsValue_concat, ih, digitsValue_concat, List.length_append]
    simp only [List.length_singleton]
    ring

theorem digitsValue_zeros (k : Nat) : digitsValue (List.replicate k '0') = 0 := by
  induction k with
  | zero => rfl
  | succ k ih => rw [List.replicate_succ', digitsValue_concat, ih]; rfl

end Text

open Text

namespace Decimal

/-- The number that a decimal stands for. -/
def value (d : Decimal) : ℚ := digitsValue d.digits * 10 ^ (d.point - d.digits.length)

/-- The digits of a coefficient are those that are kept, and zeros. -/
theorem exists_zeros (m : Nat) (e : Int) :
    ∃ k, Nat.toDigits 10 m = (ofCoefficient m e).digits ++ List.replicate k '0' := by
  let isZero (c : Char) : Bool := c == '0'
  have zeros : ∀ c ∈ (Nat.toDigits 10 m).rtakeWhile isZero, c = '0' := fun c mem =>
    beq_iff_eq.mp (List.mem_rtakeWhile_imp mem :)
  refine ⟨((Nat.toDigits 10 m).rtakeWhile isZero).length, ?_⟩
  rw [← List.eq_replicate_of_mem zeros]
  exact List.rdropWhile_append_rtakeWhile.symm

theorem isDigit_of_mem_digits {m : Nat} {e : Int} {c : Char}
    (mem : c ∈ (ofCoefficient m e).digits) : c.isDigit := by
  obtain ⟨k, split⟩ := exists_zeros m e
  have all : c ∈ Nat.toDigits 10 m := split ▸ List.mem_append_left _ mem
  exact Nat.isDigit_of_mem_toDigits (by decide) (by decide) all

/-- The zeros left out do not count. -/
theorem value_ofCoefficient (m : Nat) (e : Int) : (ofCoefficient m e).value = m * 10 ^ e := by
  obtain ⟨k, split⟩ := exists_zeros m e
  have coefficient : m = digitsValue (ofCoefficient m e).digits * 10 ^ k := by
    have all : digitsValue (Nat.toDigits 10 m) = m :=
      Nat.ofDigitChars_toDigits (by decide) (by decide)
    rw [split, digitsValue_append, digitsValue_zeros, List.length_replicate, Nat.add_zero] at all
    exact all.symm
  have point : (ofCoefficient m e).point - (ofCoefficient m e).digits.length = k + e := by
    have lengths := congrArg List.length split
    rw [List.length_append, List.length_replicate] at lengths
    rw [show (ofCoefficient m e).point = (Nat.toDigits 10 m).length + e from rfl, lengths]
    push_cast
    ring
  rw [value, point, zpow_add₀ (by norm_num), zpow_natCast, ← mul_assoc]
  congr 1
  exact_mod_cast coefficient.symm

/-- The digits before the point. -/
def whole (d : Decimal) : List Char :=
  d.digits.take d.point.toNat ++ List.replicate (d.point - d.digits.length).toNat '0'

/-- The digits after the point. -/
def fraction (d : Decimal) : List Char :=
  List.replicate (-d.point).toNat '0' ++ d.digits.drop d.point.toNat

/-- Digits, or a zero if there are none. -/
def orZero (digits : List Char) : List Char := if digits.isEmpty then ['0'] else digits

theorem positional_eq (d : Decimal) : d.positional = orZero d.whole ++ '.' :: orZero d.fraction :=
  rfl

section

variable {d : Decimal} {P : Char → Prop} (zero : P '0')

include zero

theorem forall_mem_zeros (n : Nat) : ∀ c ∈ List.replicate n '0', P c :=
  fun _ mem => List.eq_of_mem_replicate mem ▸ zero

theorem forall_mem_orZero {digits : List Char} (all : ∀ c ∈ digits, P c) :
    ∀ c ∈ orZero digits, P c := by
  unfold orZero
  split
  · exact List.forall_mem_singleton.mpr zero
  · exact all

/-- What holds of all digits and of a zero holds of all that is written before the point. -/
theorem forall_mem_whole (all : ∀ c ∈ d.digits, P c) : ∀ c ∈ orZero d.whole, P c :=
  forall_mem_orZero zero (List.forall_mem_append.mpr
    ⟨fun c mem => all c (List.mem_of_mem_take mem), forall_mem_zeros zero _⟩)

/-- And so it does of all that is written after the point. -/
theorem forall_mem_fraction (all : ∀ c ∈ d.digits, P c) : ∀ c ∈ orZero d.fraction, P c :=
  forall_mem_orZero zero (List.forall_mem_append.mpr
    ⟨forall_mem_zeros zero _, fun c mem => all c (List.mem_of_mem_drop mem)⟩)

end

theorem orZero_ne_nil (digits : List Char) : orZero digits ≠ [] := by
  cases digits <;> exact List.cons_ne_nil _ _

/-- The number with these digits before and after the point. -/
def around (whole fraction : List Char) : ℚ :=
  digitsValue (whole ++ fraction) * 10 ^ (-(fraction.length : Int))

/-- A zero in the place of missing digits does not count. -/
theorem around_orZero (whole fraction : List Char) :
    around (orZero whole) (orZero fraction) = around whole fraction := by
  have front : around (orZero whole) (orZero fraction) = around whole (orZero fraction) := by
    cases whole with
    | nil => rfl
    | cons c whole => rfl
  rw [front]
  cases fraction with
  | nil =>
    have zero : '0'.toNat - '0'.toNat = 0 := rfl
    simp only [orZero, around, List.isEmpty_nil, if_true, digitsValue_concat, zero, List.append_nil]
    simp
    ring
  | cons c fraction => rfl

/-- Where the point stands among the digits, or how many zeros are put between them and the point,
makes no difference. -/
theorem around_whole_fraction (d : Decimal) : around d.whole d.fraction = d.value := by
  obtain ⟨digits, point⟩ := d
  simp only [around, whole, fraction, value]
  rcases lt_or_ge 0 point with positive | none
  · have noZeros : (-point).toNat = 0 := by omega
    rw [noZeros, List.replicate_zero, List.nil_append]
    -- the point stands behind all digits, with zeros between, or among them
    rcases lt_or_ge (digits.length : Int) point with beyond | within
    · have all : digits.length ≤ point.toNat := by omega
      have zeros : ((point - digits.length).toNat : Int) = point - digits.length := by omega
      rw [List.take_of_length_le all, List.drop_eq_nil_of_le all, List.append_nil,
        digitsValue_append, digitsValue_zeros, List.length_replicate, ← zeros, zpow_natCast]
      simp
    · have noZeros : (point - digits.length).toNat = 0 := by omega
      have behind : -((digits.drop point.toNat).length : Int) = point - digits.length := by
        rw [List.length_drop]
        omega
      rw [noZeros, List.replicate_zero, List.append_nil, List.take_append_drop, behind]
  · -- no digit stands before the point
    have noDigits : point.toNat = 0 ∧ (point - digits.length).toNat = 0 := by omega
    have behind : -((List.replicate (-point).toNat '0' ++ digits).length : Int) =
        point - digits.length := by
      rw [List.length_append, List.length_replicate]
      omega
    rw [noDigits.1, noDigits.2, List.take_zero, List.drop_zero, List.replicate_zero,
      List.nil_append, List.nil_append, behind, digitsValue_append, digitsValue_zeros,
      Nat.zero_mul, Nat.zero_add]

section

variable (m : Nat) (e : Int)

theorem point_ofCoefficient : (ofCoefficient m e).point = (Nat.toDigits 10 m).length + e := rfl

/-- The point stands behind the last digit that counts ones, if the exponent is zero. -/
theorem lt_pow_point : (m : ℚ) * 10 ^ e < 10 ^ (ofCoefficient m e).point := by
  have some : 0 < (Nat.toDigits 10 m).length := List.length_pos_iff.mpr Nat.toDigits_ne_nil
  have below := (Nat.length_toDigits_le_iff (by decide) some).mp (Nat.le_refl _)
  rw [point_ofCoefficient, zpow_add₀ (by norm_num), zpow_natCast]
  exact mul_lt_mul_of_pos_right (by exact_mod_cast below) (by positivity)

variable {m}

theorem pow_point_le (pos : 0 < m) : (10 : ℚ) ^ ((ofCoefficient m e).point - 1) ≤ m * 10 ^ e := by
  have some : 0 < (Nat.toDigits 10 m).length := List.length_pos_iff.mpr Nat.toDigits_ne_nil
  have above : 10 ^ ((Nat.toDigits 10 m).length - 1) ≤ m := by
    rcases Nat.eq_zero_or_pos ((Nat.toDigits 10 m).length - 1) with one | more
    · rw [one]
      exact pos
    · by_contra less
      have fewer := (Nat.length_toDigits_le_iff (by decide) more).mpr (Nat.lt_of_not_le less)
      omega
  have exponent : (ofCoefficient m e).point - 1 = ((Nat.toDigits 10 m).length - 1 : Nat) + e := by
    rw [point_ofCoefficient]
    omega
  rw [exponent, zpow_add₀ (by norm_num), zpow_natCast]
  exact mul_le_mul_of_nonneg_right (by exact_mod_cast above) (by positivity)

end

end Decimal

namespace Binary64

theorem rankOfDecimal_zero (e : Int) : rankOfDecimal 0 e = 0 := by
  have same : rankOfDecimal 0 e = rankOfDecimal 0 0 := rankOfDecimal_eq (by simp)
  have zero : rankOfDecimal 0 0 = 0 := by decide +kernel
  rw [same, zero]

/-! ### What is found for a rank -/

theorem rankOfDecimal_of_neighbour? {rank m : Nat} {e : Int} (h : neighbour? rank e = some m) :
    rankOfDecimal m e = rank := by
  simp only [neighbour?] at h
  split at h
  · next upper =>
    cases h
    exact beq_iff_eq.mp (Bool.and_eq_true_iff.mp upper).1
  split at h
  · next lower =>
    cases h
    exact beq_iff_eq.mp lower
  · cases h

/-- A magnitude is a decimal with as many places as a unit has, since ten is five times two. -/
theorem nearestRank_places {units one five ten : Nat} (split : ten = five * one) (pos : 0 < ten) :
    nearestRank (units * five * 1) ten = nearestRank units one := by
  subst split
  refine nearestRank_eq_of_eq pos (Nat.pos_of_mul_pos_left pos) ?_
  ring

/-- What is found for a rank is a decimal that is rounded to it. -/
theorem exists_shortest (rank : Nat) :
    ∃ m e, shortest rank = .ofCoefficient m e ∧ rankOfDecimal m e = rank := by
  -- what holds of all that is found and of what stands in for it holds of the outcome
  have first {P : Decimal → Prop} {f : Nat → Option Decimal} {other : Decimal} (n : Nat)
      (found : ∀ n d, f n = some d → P d) (otherwise : P other) :
      P (((List.range n).findSome? f).getD other) := by
    cases attempt : (List.range n).findSome? f with
    | none => exact otherwise
    | some d =>
      obtain ⟨k, -, eq⟩ := List.exists_of_findSome?_eq_some attempt
      exact found k d eq
  rw [shortest]
  refine first (P := fun d => ∃ m e, d = .ofCoefficient m e ∧ rankOfDecimal m e = rank) 17
    (fun n d eq => ?_) ⟨_, _, rfl, ?_⟩
  · obtain ⟨m, found, rfl⟩ := Option.map_eq_some_iff.mp eq
    exact ⟨m, _, rfl, rankOfDecimal_of_neighbour? found⟩
  · -- the decimal of all places is the number itself, and that is rounded to its own rank
    have places : rankOfDecimal (unitsOfRank rank * Nat.pow 5 1074) (-1074) =
        nearestRank (unitsOfRank rank) unitsOfOne :=
      nearestRank_places (by decide +kernel) (by decide +kernel)
    rw [places, nearestRank_unitsOfRank]

theorem isDigit_of_mem_shortest {rank : Nat} {c : Char} (mem : c ∈ (shortest rank).digits) :
    c.isDigit := by
  obtain ⟨m, e, found, -⟩ := exists_shortest rank
  rw [found] at mem
  exact Decimal.isDigit_of_mem_digits mem

/-! ### Written around a point -/

/-- What is found for a rank reads back as this rank where it is written around a point. -/
theorem ofDigits_shortest (rank : Nat) :
    let d := shortest rank
    ofDigits false (Decimal.orZero d.whole) (Decimal.orZero d.fraction) = .ofRank false rank := by
  obtain ⟨m, e, found, reads⟩ := exists_shortest rank
  intro d
  have value : d.value = m * 10 ^ e := by
    rw [show d = .ofCoefficient m e from found, Decimal.value_ofCoefficient]
  rw [← Decimal.around_whole_fraction, ← Decimal.around_orZero] at value
  rw [ofDigits, ofDecimal, rankOfDecimal_eq value, reads]

/-! ### The sizes of what is written so -/

theorem point_shortest_lower : (shortest (rankOfDecimal 1 (-4))).point = -3 := by decide +kernel

theorem point_shortest_upper : (shortest (rankOfDecimal 1 16)).point = 17 := by decide +kernel

/-- A positive rank is written around a point from that of `1e-4` up to that of `1e16`. -/
theorem point_shortest_iff {rank : Nat} (pos : 0 < rank) :
    -4 < (shortest rank).point ∧ (shortest rank).point ≤ 16 ↔
      rankOfDecimal 1 (-4) ≤ rank ∧ rank < rankOfDecimal 1 16 := by
  obtain ⟨m, e, found, reads⟩ := exists_shortest rank
  have some : 0 < m := by
    rcases Nat.eq_zero_or_pos m with rfl | some
    · rw [← reads, rankOfDecimal_zero] at pos
      exact absurd pos (Nat.lt_irrefl 0)
    · exact some
  have below := Decimal.lt_pow_point m e
  have above := Decimal.pow_point_le e some
  rw [← found] at below above
  -- the bounds themselves have the points that they should
  have notLower (eq : rank = rankOfDecimal 1 (-4)) : (shortest rank).point = -3 := by
    rw [eq, point_shortest_lower]
  have notUpper (eq : rank = rankOfDecimal 1 16) : (shortest rank).point = 17 := by
    rw [eq, point_shortest_upper]
  have le_of {p : Int} (le : (shortest rank).point ≤ p) : rank ≤ rankOfDecimal 1 p := by
    rw [← reads]
    refine rankOfDecimal_le (le_trans (le_of_lt below) ?_)
    simpa using zpow_le_zpow_right₀ (by norm_num : (1 : ℚ) ≤ 10) le
  have of_lt {p : Int} (lt : p < (shortest rank).point) : rankOfDecimal 1 p ≤ rank := by
    rw [← reads]
    refine rankOfDecimal_le (le_trans ?_ above)
    simpa using zpow_le_zpow_right₀ (by norm_num : (1 : ℚ) ≤ 10) (Int.le_sub_one_of_lt lt)
  constructor
  · rintro ⟨lower, upper⟩
    refine ⟨of_lt lower, Nat.lt_of_le_of_ne (le_of upper) fun eq => ?_⟩
    have point := notUpper eq
    omega
  · rintro ⟨lower, upper⟩
    constructor
    · by_contra small
      have point := notLower (Nat.le_antisymm (le_of (Int.not_lt.mp small)) lower)
      omega
    · by_contra large
      exact Nat.not_lt_of_le (of_lt (Int.not_le.mp large)) upper

end Binary64

end Scriptlet
