/-!
# Decimal digits

## Main definitions

* `Text.digitsValue` — the number that a run of digits denotes
-/

namespace Scriptlet.Text

/-- The number that a run of decimal digits denotes. -/
def digitsValue (digits : List Char) : Nat :=
  digits.foldl (fun n d => 10 * n + (d.toNat - '0'.toNat)) 0

@[simp] theorem digitsValue_nil : digitsValue [] = 0 := rfl

theorem digitsValue_concat (digits : List Char) (d : Char) :
    digitsValue (digits ++ [d]) = 10 * digitsValue digits + (d.toNat - '0'.toNat) := by
  simp [digitsValue]

theorem isDigit_of_mem_repr {n : Nat} {c : Char} (mem : c ∈ n.repr.toList) : c.isDigit := by
  rw [Nat.toList_repr] at mem
  exact Nat.isDigit_of_mem_toDigits (by decide) (by decide) mem

/-- A number in writing denotes this number. -/
@[simp] theorem digitsValue_repr (n : Nat) : digitsValue n.repr.toList = n := by
  rw [Nat.toList_repr]
  exact Nat.ofDigitChars_toDigits (by decide) (by decide)

/-- No digit is a letter. -/
theorem not_isAlpha_of_isDigit {c : Char} (h : c.isDigit) : c.isAlpha = false := by
  rw [← Bool.not_eq_true]
  intro letter
  -- digits come before all letters
  have high := (Char.isDigit_iff_toNat.mp h).2
  rcases Bool.or_eq_true_iff.mp letter with upper | lower
  · have low : 'A'.val ≤ c.val := (of_decide_eq_true upper).1
    exact absurd (Nat.le_trans (UInt32.le_iff_toNat_le.mp low) high) (by decide)
  · have low : 'a'.val ≤ c.val := of_decide_eq_true (Bool.and_eq_true_iff.mp lower).1
    exact absurd (Nat.le_trans (UInt32.le_iff_toNat_le.mp low) high) (by decide)

end Scriptlet.Text
