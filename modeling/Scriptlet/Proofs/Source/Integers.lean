import Scriptlet.Proofs.Source.Content
import Scriptlet.Proofs.Source.Writing

/-!
# Integers of any width

A run of digits is an integer, however long it is. One that 64 bits hold with a sign is kept as a
number, and written anew without the zeros in front; a longer one is kept as it is spelled. What
decides is the number and not how many digits there are. Either way the digits in messages and in
code denote the number of the digits in the script.

## Main definitions

* `Text.Decimal` — a text of decimal digits that denotes a number

## Main results

* `Source.compile_integer` — the tokens and the code of an integer
-/

namespace Scriptlet

/-- A text of decimal digits, one at least, that denotes the number `n`. -/
structure Text.Decimal (text : String) (n : Nat) : Prop where
  ne_nil : text.toList ≠ []
  isDigit : ∀ c ∈ text.toList, c.isDigit
  value : digitsValue text.toList = n

/-- Numbers are written in decimal digits. -/
theorem Text.decimal_repr (n : Nat) : Decimal n.repr n where
  ne_nil := by
    rw [Nat.toList_repr]
    exact Nat.toDigits_ne_nil
  isDigit _ := isDigit_of_mem_repr
  value := digitsValue_repr n

section

variable {digits : String} {n : Nat}

namespace Text.Decimal

theorem integerValue_of_lt (h : Decimal digits n) (small : n < 2 ^ 63) :
    Lexeme.integerValue digits.toList = .int (Int64.ofNat n) := by
  simp only [Lexeme.integerValue, h.value]
  exact if_pos (show n < Nat.pow 2 63 from small)

theorem integerValue_of_le (h : Decimal digits n) (wide : 2 ^ 63 ≤ n) :
    Lexeme.integerValue digits.toList = .wideInt digits := by
  simp only [Lexeme.integerValue, h.value, String.ofList_toList]
  exact if_neg (show ¬ n < Nat.pow 2 63 from Nat.not_lt.mpr wide)

/-- Digits are a numeral. -/
theorem numeral (h : Decimal digits n) :
    Numeral digits.toList .int (Lexeme.integerValue digits.toList) := by
  rcases Nat.lt_or_ge n (2 ^ 63) with small | wide
  · have numeral := Numeral.integer h.ne_nil h.isDigit (h.value.symm ▸ small)
    rwa [h.value, ← h.integerValue_of_lt small] at numeral
  · have numeral := Numeral.wideInteger h.ne_nil h.isDigit (h.value.symm ▸ wide)
    rwa [String.ofList_toList, ← h.integerValue_of_le wide] at numeral

/-- The value of digits is written in digits that denote the same number. -/
theorem toText_integerValue (h : Decimal digits n) :
    Decimal (Lexeme.integerValue digits.toList).toText n := by
  rcases Nat.lt_or_ge n (2 ^ 63) with small | wide
  · have written : Token.Value.toText (.int (Int64.ofNat n)) = n.repr := by
      rw [Token.Value.toText, Int64.toInt_ofNat_of_lt small]
      rfl
    rw [h.integerValue_of_lt small, written]
    exact decimal_repr n
  · rw [h.integerValue_of_le wide]
    exact h

/-- What is no text is quoted as its value is written. -/
theorem lexeme_integerValue (h : Decimal digits n) (start stop : Position) :
    Token.lexeme ⟨.int, some (Lexeme.integerValue digits.toList), start, stop⟩ =
      (Lexeme.integerValue digits.toList).toText := by
  rcases Nat.lt_or_ge n (2 ^ 63) with small | wide
  · rw [h.integerValue_of_lt small]
    rfl
  · rw [h.integerValue_of_le wide]
    rfl

end Text.Decimal

/-- A source that is a numeral is cut into it alone. -/
theorem Cut.numeral {p : Position} {word : List Char} {kind : Token.Kind} {value : Token.Value}
    (h : Numeral word kind value) : Cut p word [⟨kind, some value, p, p.advanceAll word⟩] :=
  .single (Lexeme.Fits.longest_self (.numeral List.prefix_rfl h))

/-- An expression is a script of one statement. -/
theorem Spells.script {t : Token} {tree : Tree} (h : Spells .expression [t] tree) :
    Spells .statements [t] (.sequence [tree] t.start t.stop) :=
  .statements (List.forall_mem_nil _) h (.noStatements (List.forall_mem_nil _)) ⟨rfl, rfl⟩

theorem Instruction.listing_load (value : String) :
    listing [.load ⟨0⟩ value] = "t0 = " ++ value ++ "\n" := by
  have zero : (Temp.mk 0).toText ++ " = " = "t0 = " := by decide
  simp [listing, toText, zero]

/-- A run of digits is one integer, whose value is the number that it denotes or, if this is above
the greatest integer of 64 bits, the digits themselves. Its lexeme denotes the same number, and so
does what its code loads. -/
theorem Source.compile_integer (h : Text.Decimal digits n) (name : String) :
    let s : Source := ⟨name, digits⟩
    ∃ value text root,
      s.tokens = .ok [⟨.int, some value, .start s, s.stop⟩,
        ⟨.endOfInput, none, s.stop, s.stop⟩] ∧
      (n ≤ 2 ^ 63 - 1 → ∃ i : Int64, i.toInt = n ∧ value = .int i) ∧
      (2 ^ 63 - 1 < n → value = .wideInt digits) ∧
      Text.Decimal (Token.lexeme ⟨.int, some value, .start s, s.stop⟩) n ∧
      s.tree = .ok root ∧ root.code = [.load ⟨0⟩ text] ∧
      s.compile = .ok ("t0 = " ++ text ++ "\n") ∧ Text.Decimal text n := by
  intro s
  let value := Lexeme.integerValue digits.toList
  -- the whole source is the one token, whose spelling is that of a script
  let t : Token := ⟨.int, some value, .start s, s.stop⟩
  have cut : Cut (.start s) s.text.toList [t] := .numeral h.numeral
  have spells : Spells .statements [t] (.sequence [.number t] t.start t.stop) :=
    Spells.script (.expression_of_atom (.number (.inl rfl)))
  have parsed := Source.tree_eq_ok_iff.mpr ⟨_, cut, spells⟩
  have decimal : Text.Decimal value.toText n := h.toText_integerValue
  have compiled : s.compile = .ok ("t0 = " ++ value.toText ++ "\n") := by
    rw [compile_of_tree parsed, ← Instruction.listing_load]
    rfl
  refine ⟨value, value.toText, _, Token.readFrom_eq_ok_iff.mpr ⟨_, cut, rfl⟩, fun small => ?_,
    fun wide => h.integerValue_of_le (by omega), ?_, parsed, rfl, compiled, decimal⟩
  · -- an integer of 64 bits is its own value
    have small : n < 2 ^ 63 := by omega
    exact ⟨.ofNat n, Int64.toInt_ofNat_of_lt small, h.integerValue_of_lt small⟩
  · rwa [h.lexeme_integerValue]

end

/-- Zeros in front make an integer longer and no wider. -/
theorem Source.compile_integer_widest :
    let s : Source := ⟨"", "0009223372036854775807"⟩
    Text.Decimal s.text (2 ^ 63 - 1) ∧ ∃ (i : Int64) (text : String),
      i.toInt = 9223372036854775807 ∧
      s.tokens = .ok [⟨.int, some (.int i), .start s, s.stop⟩,
        ⟨.endOfInput, none, s.stop, s.stop⟩] ∧
      s.compile = .ok ("t0 = " ++ text ++ "\n") ∧ Text.Decimal text (2 ^ 63 - 1) := by
  intro s
  have isDigit : ∀ c ∈ s.text.toList, c.isDigit := List.all_eq_true.mp (by decide)
  have decimal : Text.Decimal s.text (2 ^ 63 - 1) := ⟨by decide, isDigit, by decide +kernel⟩
  obtain ⟨value, text, root, read, small, -, -, -, -, compiled, denotes⟩ :=
    Source.compile_integer decimal ""
  obtain ⟨i, number, rfl⟩ := small (Nat.le_refl _)
  exact ⟨decimal, i, text, number, read, compiled, denotes⟩

end Scriptlet
