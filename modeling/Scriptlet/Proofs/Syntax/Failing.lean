import Scriptlet.Proofs.Syntax.Reading

/-!
# How rules fail

The other half of what a rule does at a cursor. A composed rule fails where one of its parts
does, and each way of building a rule gets an equivalence that says which part that was.

## Main definitions

* `Rule.Fails` — how a rule fails at a cursor
* `Grammar.afterInitial` — what may follow the first part of the header of a `for` loop

## Main results

* `Rule.fails_bind`, `Rule.fails_onNext`, `Rule.fails_pin` — how composed rules fail
* `Rule.fails_furtherStatements` — how further statements fail
* `Grammar.script_eq_error_iff` — how a whole script fails
-/

namespace Scriptlet

namespace Rule

variable {m n : Nat} {α β : Type} {c c' : Cursor} {a b : α} {f f' : Failure}

/-- At `c` the rule fails with `f`. -/
def Fails (rule : Rule n α) (c : Cursor) (f : Failure) : Prop := ∃ h, rule c h = .error f

theorem Fails.lt {rule : Rule n α} (h : rule.Fails c f) : c.left < n := h.1

/-- A rule fails in one way. -/
theorem Fails.unique {rule : Rule n α} (h : rule.Fails c f) (h' : rule.Fails c f') : f = f' := by
  obtain ⟨lt, failed⟩ := h
  obtain ⟨_, failed'⟩ := h'
  exact Except.error.inj (failed.symm.trans failed')

/-- A rule reads one thing. -/
theorem Yields.unique {rule : Rule n α} {d : Cursor} (h : rule.Yields c a c')
    (h' : rule.Yields c b d) : a = b ∧ c' = d := by
  obtain ⟨lt, le, ok⟩ := h
  obtain ⟨_, le', ok'⟩ := h'
  cases ok.symm.trans ok'
  exact ⟨rfl, rfl⟩

/-- A rule that reads something does not fail. -/
theorem Yields.not_fails {rule : Rule n α} (h : rule.Yields c a c') : ¬ rule.Fails c f := by
  obtain ⟨lt, le, ok⟩ := h
  rintro ⟨_, failed⟩
  rw [ok] at failed
  cases failed

/-- To refuse is to fail with no token read. -/
theorem refuses_iff {rule : Rule n α} :
    rule.Refuses c ↔ ∃ f, rule.Fails c f ∧ f.cursor.left = c.left := by
  constructor
  · rintro ⟨h, f, failed, same⟩
    exact ⟨f, ⟨h, failed⟩, same⟩
  · rintro ⟨f, ⟨h, failed⟩, same⟩
    exact ⟨h, f, failed, same⟩

/-! ### Rules without a loop -/

theorem map_later_eq_error {c₁ : Cursor} {le : c₁.left ≤ c.left}
    {result : Except Failure (Parsed c₁ α)} :
    result.map (later le) = .error f ↔ result = .error f := by
  cases result <;> simp [Except.map]

@[simp] theorem not_fails_pure : ¬ (pure a : Rule n α).Fails c f := by
  rintro ⟨_, failed⟩
  cases failed

/-- One rule after another fails where the first does, or where the second does behind what the
first reads. -/
theorem fails_bind {rule : Rule n α} {next : α → Rule n β} :
    (rule >>= next).Fails c f ↔
      rule.Fails c f ∨ ∃ a c₁, rule.Yields c a c₁ ∧ (next a).Fails c₁ f := by
  constructor
  · rintro ⟨h, failed⟩
    rw [bind_apply] at failed
    split at failed
    · next first =>
      cases failed
      exact .inl ⟨h, first⟩
    · next r ok =>
      exact .inr ⟨r.value, r.next, ⟨h, r.left_le, ok⟩, _, map_later_eq_error.mp failed⟩
  · rintro (⟨h, failed⟩ | ⟨a, c₁, ⟨h, le, ok⟩, ⟨h', failed⟩⟩)
    · exact ⟨h, by rw [bind_apply, failed]⟩
    · refine ⟨h, ?_⟩
      rw [bind_apply, ok]
      simp only [failed]
      rfl

@[simp] theorem fails_fail {cause : Failure.Cause} :
    (fail cause : Rule n α).Fails c f ↔ c.left < n ∧ f = ⟨cause, c⟩ := by
  constructor
  · rintro ⟨h, failed⟩
    cases failed
    exact ⟨h, rfl⟩
  · rintro ⟨h, rfl⟩
    exact ⟨h, rfl⟩

@[simp] theorem fails_missing {kind : ParseError.Kind} :
    (missing kind : Rule n α).Fails c f ↔ c.left < n ∧ f = ⟨.missing kind, c⟩ :=
  fails_fail

@[simp] theorem not_fails_here : ¬ (here : Rule n Position).Fails c f := by
  rintro ⟨_, failed⟩
  cases failed

@[simp] theorem not_fails_lastStop : ¬ (lastStop : Rule n Position).Fails c f := by
  rintro ⟨_, failed⟩
  cases failed

@[simp] theorem not_fails_skipSeparators : ¬ (skipSeparators : Rule n Unit).Fails c f := by
  rintro ⟨_, failed⟩
  cases failed

/-! ### Rules that decide by the next token -/

/-- The rule chosen by the next token fails, or none was chosen and `other` fails. -/
theorem fails_onNext {room : n ≤ m + 1} {choose : Token → Option (Rule m α)} {other : Rule n α} :
    (onNext room choose other).Fails c f ↔
      (c.left < n ∧ ∃ t c₁ rule, c.take? = some (t, c₁) ∧ choose t = some rule ∧
        rule.Fails c₁ f) ∨
      (∀ t, c.ahead.head? = some t → choose t = none) ∧ other.Fails c f := by
  constructor
  · rintro ⟨h, failed⟩
    -- the next token settles which of the two equations for `onNext` applies
    by_cases none : ∀ t, c.ahead.head? = some t → choose t = none
    · rw [onNext_eq_other h none] at failed
      exact .inr ⟨none, h, failed⟩
    · simp only [Classical.not_forall] at none
      obtain ⟨t, head, chosen⟩ := none
      obtain ⟨rule, chosen⟩ := Option.ne_none_iff_exists'.mp chosen
      obtain ⟨c₁, taken⟩ := Cursor.take?_of_head? head
      have h₁ : c₁.left < m := by
        have := Cursor.left_lt_of_take? taken
        omega
      rw [onNext_eq_chosen h taken chosen h₁] at failed
      exact .inl ⟨h, t, c₁, rule, taken, chosen, h₁, map_later_eq_error.mp failed⟩
  · rintro (⟨h, t, c₁, rule, taken, chosen, h₁, failed⟩ | ⟨none, h, failed⟩)
    · refine ⟨h, ?_⟩
      rw [onNext_eq_chosen h taken chosen h₁, failed]
      rfl
    · exact ⟨h, by rw [onNext_eq_other h none, failed]⟩

/-! ### Reporting failures -/

/-- A pinned rule fails where the rule does; a failure at once is reported in its own terms. -/
theorem fails_pin {kind : ParseError.Kind} {rule : Rule n α} :
    (pin kind rule).Fails c f ↔
      ∃ f', rule.Fails c f' ∧
        f = if f'.cursor.left = c.left then ⟨.missing kind, c⟩ else f' := by
  constructor
  · rintro ⟨h, failed⟩
    rw [pin] at failed
    cases result : rule c h with
    | ok r =>
      rw [result] at failed
      cases failed
    | error f' =>
      rw [result] at failed
      exact ⟨f', ⟨h, result⟩, (Except.error.inj failed).symm⟩
  · rintro ⟨f', ⟨h, failed⟩, rfl⟩
    exact ⟨h, by rw [pin, failed]; rfl⟩

/-! ### Statements -/

/-- Further statements fail where one of them fails behind separators, and not at once. -/
theorem fails_furtherStatements {statement : Rule n Tree} :
    (furtherStatements statement).Fails c f ↔
      c.skipSeparators.left < c.left ∧ c.left < n ∧
        ((statement.Fails c.skipSeparators f ∧ f.cursor.left ≠ c.skipSeparators.left) ∨
          ∃ tree c₁, statement.Yields c.skipSeparators tree c₁ ∧
            (furtherStatements statement).Fails c₁ f) := by
  constructor
  · rintro ⟨h, failed⟩
    rw [furtherStatements] at failed
    split at failed
    · next shorter =>
      refine ⟨shorter, h, ?_⟩
      split at failed
      · next f' result =>
        split at failed
        · cases failed
        · next further =>
          cases failed
          exact .inl ⟨⟨_, result⟩, further⟩
      · next tree c₁ le₁ ok =>
        cases others : furtherStatements statement c₁ (by omega) with
        | ok r => simp [others, Except.map] at failed
        | error f' =>
          simp only [others, Except.map, Except.error.injEq] at failed
          exact .inr ⟨tree, c₁, ⟨_, le₁, ok⟩, _, failed ▸ others⟩
    · cases failed
  · rintro ⟨shorter, h, ⟨⟨h₁, failed⟩, further⟩ | ⟨tree, c₁, ⟨h₁, le₁, ok⟩, h₂, failed⟩⟩
    · refine ⟨h, ?_⟩
      rw [furtherStatements]
      simp only [dif_pos shorter, failed, if_neg further]
    · refine ⟨h, ?_⟩
      rw [furtherStatements]
      simp only [dif_pos shorter, ok, failed, Except.map]

end Rule

/-! ### The header of a `for` loop -/

namespace Grammar

open Rule

variable {n : Nat} (g : Grammar n) (start : Position)

/-- Reads what follows the assignment in the header of a `for` loop. -/
def afterAssignment (letStart : Position) (name : Token) (initial : Tree) : Rule n Tree := do
  let _ ← expect .comma .comma
  let condition ← g.comparison
  let _ ← expect .comma .comma
  let update ← g.arithmetic
  let _ ← expect .rightParen .rightParen
  let (body, stop) ← g.block
  return .forLoop letStart name initial condition update body start stop

/-- Reads what follows the first part of the header of a `for` loop. -/
def afterInitial : Tree → Rule n Tree
  | .assignment letStart name initial => g.afterAssignment start letStart name initial
  | other => fail (.notAssignment other)

theorem forLoop_eq : g.forLoop start = (do
    let _ ← expect .leftParen .leftParen
    g.afterInitial start (← g.expression)) :=
  rfl

/-- Only after an assignment does the header go on. -/
theorem afterInitial_eq_fail {initial : Tree}
    (other : ∀ letStart name value, initial ≠ .assignment letStart name value) :
    g.afterInitial start initial = fail (.notAssignment initial) := by
  cases initial <;> first | rfl | exact absurd rfl (other _ _ _)

/-- A script fails where its statements do, or where something comes next behind them. -/
theorem script_eq_error_iff {c : Cursor} {f : Failure} :
    script c = .error f ↔
      (statements (upTo (c.left + 1)).expression).Fails c f ∨
        ∃ tree c', (statements (upTo (c.left + 1)).expression).Yields c tree c' ∧
          c'.ahead ≠ [] ∧ f = ⟨.missing .trailingInput, c'⟩ := by
  have h : c.left < c.left + 1 := Nat.lt_succ_self _
  constructor
  · intro eq
    unfold script at eq
    split at eq
    · next failed =>
      cases eq
      exact .inl ⟨h, failed⟩
    next r ok =>
    split at eq
    · cases eq
    · next notAtEnd =>
      cases eq
      exact .inr ⟨r.value, r.next, ⟨h, r.left_le, ok⟩, mt List.isEmpty_iff.mpr notAtEnd, rfl⟩
  · rintro (⟨_, failed⟩ | ⟨tree, c', ⟨_, le, ok⟩, ne, rfl⟩)
    · rw [script, failed]
    · rw [script, ok]
      exact if_neg (mt List.isEmpty_iff.mp ne)

end Grammar

end Scriptlet
