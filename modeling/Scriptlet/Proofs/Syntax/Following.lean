import Scriptlet.Proofs.Syntax.Reading

/-!
# Where phrases end

The loops of the parser are greedy: each goes on for as long as the next token allows. A
phrase is therefore read as far as it was meant to reach only where no token comes next with
which it could go on. Which tokens those are is fixed by the sort of the phrase; the tokens
that stand after an expression in its surroundings are never among them.

## Main definitions

* `Phrase.GoesOnWith`, `Cursor.EndsPhrase` — the tokens with which a phrase could go on, and a
  cursor where none of them comes next
* `Cursor.AtClosing` — what comes next belongs to the surroundings of an expression

## Main results

* `Cursor.AtClosing.endsPhrase` — expressions end before what belongs to their surroundings
* `Cursor.EndsPhrase.operand`, `Cursor.EndsPhrase.of_operator` — operands end where the chain
  ends, and before an operator of their level
-/

namespace Scriptlet

theorem Token.kind_of_isKeyword {t : Token} {k : Keyword} (h : t.isKeyword k) :
    t.kind = .keyword := by
  simp only [isKeyword, keyword?, beq_iff_eq] at h
  split at h
  · assumption
  · cases h

theorem Token.isKeyword_inj {t : Token} {k k' : Keyword} (h : t.isKeyword k)
    (h' : t.isKeyword k') : k = k' := by
  simp only [isKeyword, beq_iff_eq] at h h'
  exact Option.some.inj (h.symm.trans h')

theorem Token.BeginsAtom.kind_mem {t : Token} (h : t.BeginsAtom) :
    t.kind ∈ [.int, .float, .string, .identifier, .leftParen, .keyword] := by
  rcases h with kind | ⟨k, -, isWord⟩
  · exact List.mem_append_left [.keyword] kind
  · simp [kind_of_isKeyword isWord]

/-- No atom begins with a sign. -/
theorem Token.BeginsAtom.not_isAdditive {t : Token} (h : t.BeginsAtom) :
    Grammar.isAdditive t.kind = false := by
  have mem := h.kind_mem
  -- only the kind matters from here on, and there are finitely many
  generalize t.kind = k at mem ⊢
  cases k <;> first | rfl | simp at mem

/-- No factor begins with `!`. -/
theorem Token.BeginsFactor.kind_ne_not {t : Token} (h : t.BeginsFactor) : t.kind ≠ .not := by
  intro isNot
  rcases h with isPlus | isMinus | begins
  · simp [isNot] at isPlus
  · simp [isNot] at isMinus
  · have mem := begins.kind_mem
    simp [isNot] at mem

/-- No comparison begins with the word of an assignment. -/
theorem Token.BeginsComparison.not_isKeyword_letWord {t : Token} (h : t.BeginsComparison) :
    ¬ t.isKeyword .letWord := by
  intro isLet
  have kind := kind_of_isKeyword isLet
  rcases h with isNot | isPlus | isMinus | kind' | ⟨k, mem, isWord⟩
  · simp [kind] at isNot
  · simp [kind] at isPlus
  · simp [kind] at isMinus
  · simp [kind] at kind'
  · obtain rfl := isKeyword_inj isLet isWord
    simp at mem

/-- The signs that close an expression begin none. -/
theorem Token.BeginsExpression.kind_not_mem {t : Token} (h : t.BeginsExpression) :
    t.kind ∉ [.rightParen, .comma, .separator, .rightCurl] := by
  rcases h with isLet | isNot | isPlus | isMinus | kind | ⟨k, -, isWord⟩
  · simp [kind_of_isKeyword isLet]
  · simp [isNot]
  · simp [isPlus]
  · simp [isMinus]
  · generalize t.kind = k at kind ⊢
    cases k <;> simp at kind ⊢
  · simp [kind_of_isKeyword isWord]

/-! ### Where phrases end -/

/-- The levels of the operators that could join a phrase's end to something more. -/
def Phrase.levels : Phrase → List Level
  | joined .products => [.products]
  | joined .sums => [.sums, .products]
  | joined .relations | comparison => [.relations, .sums, .products]
  | joined .conditions | expression => [.conditions, .relations, .sums, .products]
  | statements | block | factor | call | atom => []

/-- The token could go on a phrase of this sort: `else` after a conditional, the bracket of a
call, or an operator. Statements could go on with anything but the bracket that closes them. -/
def Phrase.GoesOnWith (p : Phrase) (t : Token) : Prop :=
  match p with
  | statements => t.kind ≠ .rightCurl
  | block => False
  | atom => t.isKeyword .elseWord
  | p => t.isKeyword .elseWord ∨ t.kind = .leftParen ∨
      ∃ level ∈ p.levels, t.kind ∈ level.operators

/-- No token comes next with which a phrase of this sort could go on. -/
def Cursor.EndsPhrase (c : Cursor) (p : Phrase) : Prop :=
  ∀ t, c.ahead.head? = some t → ¬ p.GoesOnWith t

/-- What comes next, if anything, belongs to what is around an expression. -/
def Cursor.AtClosing (c : Cursor) : Prop :=
  ∀ t, c.ahead.head? = some t → t.kind ∈ [.rightParen, .comma, .separator, .rightCurl]

namespace Level

theorem mem_levels_joined (level : Level) : level ∈ (Phrase.joined level).levels := by
  cases level <;> decide

theorem not_mem_levels_operand (level : Level) : level ∉ level.operand.levels := by
  cases level <;> decide

theorem levels_operand_subset (level : Level) :
    level.operand.levels ⊆ (Phrase.joined level).levels := by
  cases level <;> decide

/-- No operator belongs to two levels. -/
theorem operators_inj {level level' : Level} {k : Token.Kind} (h : k ∈ level.operators)
    (h' : k ∈ level'.operators) : level = level' := by
  cases level <;> cases level' <;> first | rfl | (cases k <;> simp [operators] at h h')

/-- The signs that close an expression join no operands. -/
theorem not_mem_operators {k : Token.Kind}
    (h : k ∈ [.rightParen, .comma, .separator, .rightCurl]) (level : Level) :
    k ∉ level.operators := by
  cases k <;> first | (cases level <;> decide) | exact absurd h (by decide)

theorem goesOnWith_operand_iff {level : Level} {t : Token} :
    level.operand.GoesOnWith t ↔ t.isKeyword .elseWord ∨ t.kind = .leftParen ∨
      ∃ l ∈ level.operand.levels, t.kind ∈ l.operators := by
  cases level <;> simp [operand, Phrase.GoesOnWith]

/-- Joined operands go on with what their last operand goes on with. -/
theorem goesOnWith_of_operand {level : Level} {t : Token} (h : level.operand.GoesOnWith t) :
    (Phrase.joined level).GoesOnWith t := by
  rcases goesOnWith_operand_iff.mp h with isElse | left | ⟨l, mem, operator⟩
  · exact .inl isElse
  · exact .inr (.inl left)
  · exact .inr (.inr ⟨l, level.levels_operand_subset mem, operator⟩)

/-- No operand goes on with an operator that joins it to others. -/
theorem not_goesOnWith_of_operator {level : Level} {t : Token}
    (operator : t.kind ∈ level.operators) : ¬ level.operand.GoesOnWith t := by
  intro goesOn
  -- an operator is no word and no bracket, and it belongs to one level only
  rcases goesOnWith_operand_iff.mp goesOn with isElse | left | ⟨l, mem, operator'⟩
  · rw [Token.kind_of_isKeyword isElse] at operator
    cases level <;> exact absurd operator (by decide)
  · rw [left] at operator
    cases level <;> exact absurd operator (by decide)
  · obtain rfl := operators_inj operator operator'
    exact level.not_mem_levels_operand mem

end Level

/-- The signs around an expression do not belong to it. -/
theorem Phrase.not_goesOnWith_of_closing {p : Phrase} (ne : p ≠ .statements) {t : Token}
    (kind : t.kind ∈ [.rightParen, .comma, .separator, .rightCurl]) : ¬ p.GoesOnWith t := by
  have notElse : ¬ t.isKeyword .elseWord := by
    intro isElse
    simp [Token.kind_of_isKeyword isElse] at kind
  -- the signs around an expression are neither words nor brackets that open, and join nothing
  have none : ¬ (t.isKeyword .elseWord ∨ t.kind = .leftParen ∨
      ∃ level ∈ p.levels, t.kind ∈ level.operators) := by
    rintro (isElse | left | ⟨level, -, operator⟩)
    · exact notElse isElse
    · simp [left] at kind
    · exact Level.not_mem_operators kind level operator
  cases p with
  | statements => exact absurd rfl ne
  | block => exact id
  | atom => exact notElse
  | _ => exact none

namespace Cursor

variable {c c₁ : Cursor} {t : Token}

theorem AtClosing.of_take? (taken : c.take? = some (t, c₁))
    (kind : t.kind ∈ [.rightParen, .comma, .separator, .rightCurl]) : c.AtClosing := by
  intro u head
  obtain rfl : t = u := Cursor.eq_of_take? taken head
  exact kind

theorem AtClosing.endsPhrase (closing : c.AtClosing) {p : Phrase} (ne : p ≠ .statements) :
    c.EndsPhrase p :=
  fun t head => Phrase.not_goesOnWith_of_closing ne (closing t head)

/-- Statements end at the end of input or before the bracket that closes them. -/
theorem endsPhrase_statements_iff :
    c.EndsPhrase .statements ↔ ∀ t, c.ahead.head? = some t → t.kind = .rightCurl :=
  forall_congr' fun _ => forall_congr' fun _ => Classical.not_not

/-- Joined operands end where their last operand does. -/
theorem EndsPhrase.operand {level : Level} (ends : c.EndsPhrase (.joined level)) :
    c.EndsPhrase level.operand :=
  fun t head goesOn => ends t head (Level.goesOnWith_of_operand goesOn)

/-- An operand ends where an operator of its level comes next. -/
theorem EndsPhrase.of_operator {level : Level} (taken : c.take? = some (t, c₁))
    (operator : t.kind ∈ level.operators) : c.EndsPhrase level.operand := by
  intro u head
  obtain rfl : t = u := Cursor.eq_of_take? taken head
  exact Level.not_goesOnWith_of_operator operator

end Cursor

end Scriptlet
