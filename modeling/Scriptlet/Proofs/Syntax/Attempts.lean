import Scriptlet.Proofs.Syntax.Viable

/-!
# Attempts at an expression

Where statements may end, an expression is tried. Whether the attempt has failed at once is all that
tells the end of the statements from an error in the next one. It tells them apart because every
level of the grammar, from atoms up, reads a token before it fails where an expression begins, and
none where no expression does.

## Main definitions

* `Rule.Onward`, `Rule.Advances` — a rule does not fail further back than where it begins, and it
  neither ends nor fails there
* `Cursor.AtSeparator`, `Cursor.AtExpression` — a separator or an expression comes next
* `Rule.ReadsEach` — statements are read one after another
* `Cursor.StopsAt` — where statements end behind the last of them

## Main results

* `Grammar.advances_upTo` — where an expression begins, a token is read
* `Grammar.fails_upTo` — where none begins, the failure is that an expression is missing
* `Rule.yields_statements_iff`, `Rule.fails_statements_iff` — how statements end and fail
* `Grammar.attempts_upTo` — attempts, and the statements that are read by them
-/

namespace Scriptlet

/-- The pairing by which all places correspond. -/
def Pairing.any : Pairing := ⟨fun _ _ => True, [], []⟩

namespace Rule

variable {m n : Nat} {α β : Type} {c : Cursor} {rule other : Rule n α}

/-! ### Rules that move on -/

/-- The rule does not fail further back than where it begins. -/
def Onward (rule : Rule n α) : Prop := ∀ ⦃c f⦄, rule.Fails c f → f.cursor.left ≤ c.left

/-- At `c` the rule neither ends nor fails without having read a token. -/
structure Advances (rule : Rule n α) (c : Cursor) : Prop where
  yields {a c'} : rule.Yields c a c' → c'.left < c.left
  fails {f} : rule.Fails c f → f.cursor.left < c.left

/-- No rule that is like another one turns back. -/
theorem Alike.isOnward {R : α → α → Prop} {rule' : Rule n α}
    (alike : ∀ {size}, Alike .any size False R rule rule') : rule.Onward :=
  fun c _ failed => alike.onward (Nat.lt_succ_self c.left) failed

theorem onward_pure {a : α} : (pure a : Rule n α).Onward :=
  fun _ _ failed => absurd failed not_fails_pure

theorem onward_expect {kind : Token.Kind} {what : Expectation} :
    (expect kind what : Rule n Token).Onward :=
  Alike.isOnward Alike.expect

theorem Onward.bind {next : α → Rule n β} (first : rule.Onward) (second : ∀ a, (next a).Onward) :
    (rule >>= next).Onward := by
  intro c f failed
  rcases fails_bind.mp failed with failed | ⟨a, c₁, yields, failed⟩
  · exact first failed
  · exact Nat.le_trans (second a failed) yields.left_le

theorem Onward.onNext (room : n ≤ m + 1) {choose : Token → Option (Rule m α)}
    (chosen : ∀ t rule, choose t = some rule → rule.Onward) (others : other.Onward) :
    (onNext room choose other).Onward := by
  intro c f failed
  rcases fails_onNext.mp failed with ⟨-, t, c₁, rule, taken, eq, failed⟩ | ⟨-, failed⟩
  · exact Nat.le_trans (chosen t rule eq failed) (Nat.le_of_lt (Cursor.left_lt_of_take? taken))
  · exact others failed

/-- Where the first of two rules moves on, so do both together. -/
theorem Advances.bind {next : α → Rule n β} (first : rule.Advances c)
    (second : ∀ a, (next a).Onward) : (rule >>= next).Advances c where
  yields yields := by
    obtain ⟨a, c₁, yields, further⟩ := yields_bind.mp yields
    exact Nat.lt_of_le_of_lt further.left_le (first.yields yields)
  fails failed := by
    rcases fails_bind.mp failed with failed | ⟨a, c₁, yields, failed⟩
    · exact first.fails failed
    · exact Nat.lt_of_le_of_lt (second a failed) (first.yields yields)

/-- The token that decides has been read by then. -/
theorem Advances.onNext (room : n ≤ m + 1) {choose : Token → Option (Rule m α)}
    (chosen : ∀ t rule, choose t = some rule → rule.Onward)
    (others : (∀ t, c.ahead.head? = some t → choose t = none) → other.Advances c) :
    (onNext room choose other).Advances c where
  yields yields := by
    rcases yields_onNext.mp yields with ⟨-, t, c₁, rule, taken, -, yields⟩ | ⟨none, yields⟩
    · exact Nat.lt_of_le_of_lt yields.left_le (Cursor.left_lt_of_take? taken)
    · exact (others none).yields yields
  fails failed := by
    rcases fails_onNext.mp failed with ⟨-, t, c₁, rule, taken, eq, failed⟩ | ⟨none, failed⟩
    · exact Nat.lt_of_le_of_lt (chosen t rule eq failed) (Cursor.left_lt_of_take? taken)
    · exact (others none).fails failed

theorem fails_within {asked : Token → Bool} {after : Token → Rule n α} {other : Rule (n + 1) α}
    {f : Failure} :
    (within asked after other).Fails c f ↔
      (c.left < n + 1 ∧ ∃ t c₁, c.take? = some (t, c₁) ∧ asked t ∧ (after t).Fails c₁ f) ∨
      (∀ t, c.ahead.head? = some t → asked t = false) ∧ other.Fails c f := by
  simp [within, dispatch, fails_onNext, and_assoc]

theorem Onward.within {asked : Token → Bool} {after : Token → Rule n α} {other : Rule (n + 1) α}
    (behind : ∀ t, (after t).Onward) (others : other.Onward) :
    (within asked after other).Onward := by
  refine .onNext (Nat.le_refl _) (fun t rule eq => ?_) others
  split at eq
  · cases eq
    exact behind t
  · cases eq

theorem Advances.within {asked : Token → Bool} {after : Token → Rule n α}
    {other : Rule (n + 1) α} (behind : ∀ t, (after t).Onward)
    (others : (∀ t, c.ahead.head? = some t → ¬ asked t) → other.Advances c) :
    (within asked after other).Advances c := by
  refine .onNext (Nat.le_refl _) (fun t rule eq => ?_) fun none => others fun t head => ?_
  · split at eq
    · cases eq
      exact behind t
    · cases eq
  · simpa using none t head

/-- A rule that moves on is pinned in vain. -/
theorem Advances.pin {kind : ParseError.Kind} (h : rule.Advances c) :
    (pin kind rule).Advances c where
  yields yields := h.yields (yields_pin.mp yields)
  fails failed := by
    obtain ⟨f', inside, rfl⟩ := fails_pin.mp failed
    have less := h.fails inside
    rwa [if_neg (Nat.ne_of_lt less)]

/-- Where the first operand moves on, so do the operands joined to it. -/
theorem Advances.binaryChain {isOperator : Token.Kind → Bool} {operand : Rule n Tree}
    (alike : ∀ {size given}, Alike .any size given (Tree.Alike .any) operand operand)
    (first : operand.Advances c) : (binaryChain isOperator operand).Advances c :=
  first.bind fun left => Alike.isOnward fun {_} =>
    (Alike.binaryChainFrom alike False.elim :
      Alike .any _ False (Tree.Alike .any) _ (binaryChainFrom isOperator operand left))

end Rule

/-! ### Where an expression begins, and where none does -/

/-- A separator comes next. -/
def Cursor.AtSeparator (c : Cursor) : Prop := ∃ t, c.ahead.head? = some t ∧ t.kind = .separator

/-- What comes next can begin an expression. -/
def Cursor.AtExpression (c : Cursor) : Prop :=
  ∃ t, c.ahead.head? = some t ∧ t.BeginsExpression

theorem Cursor.not_atExpression_iff {c : Cursor} :
    ¬ c.AtExpression ↔ ∀ t, c.ahead.head? = some t → ¬ t.BeginsExpression := by
  simp [AtExpression]

namespace Grammar

open Rule

variable {n : Nat} {g : Grammar n} {c : Cursor} {t : Token}

/-! The levels of the grammar from atoms up. A token that begins a phrase of one level is a sign of
that level, which is read, or begins a phrase of the tighter one. -/

section Levels

variable (alike : g.Alike .any g) (head : c.ahead.head? = some t)

include alike

theorem onward_afterFirst? {rule : Rule n Tree} (chosen : g.afterFirst? t = some rule) :
    rule.Onward := by
  intro c f failed
  have related : Option.Rel (Rule.Alike .any (c.left + 1) (False ∧ t.Alike .any t)
      (Tree.Alike .any)) (g.afterFirst? t) (g.afterFirst? t) := alike.afterFirst? rfl
  rw [chosen] at related
  cases related with
  | some alike => exact alike.onward (Nat.lt_succ_self _) failed

include head

theorem advances_atom (begins : t.BeginsAtom) : g.atom.Advances c := by
  refine .onNext (Nat.le_refl _) (fun _ _ => onward_afterFirst? alike) fun none => ?_
  obtain ⟨rule, chosen⟩ := exists_afterFirst (g := g) begins
  rw [none t head] at chosen
  cases chosen

theorem advances_call (begins : t.BeginsAtom) : g.call.Advances c := by
  have arguments : g.arguments.Onward := Rule.Alike.isOnward (alike.arguments)
  exact (advances_atom alike head begins).bind fun callee =>
    .within (fun _ => arguments.bind fun _ => onward_pure) onward_pure

theorem advances_factor (begins : t.BeginsFactor) : g.next.factor.Advances c := by
  have factor : g.factor.Onward := Rule.Alike.isOnward (alike.factor)
  refine .within (fun _ => factor.bind fun _ => onward_pure) fun none => ?_
  have noSign := none t head
  rcases begins with plus | minus | begins
  · simp [isAdditive, plus] at noSign
  · simp [isAdditive, minus] at noSign
  · exact advances_call alike head begins

theorem advances_arithmetic (begins : t.BeginsFactor) : g.next.arithmetic.Advances c :=
  .binaryChain (.binaryChain alike.next.factor)
    (.binaryChain alike.next.factor (advances_factor alike head begins))

theorem advances_comparison (begins : t.BeginsComparison) : g.next.comparison.Advances c := by
  have comparison : g.comparison.Onward := Rule.Alike.isOnward (alike.comparison)
  refine .within (fun _ => comparison.bind fun _ => onward_pure) fun none => ?_
  have noSign := none t head
  rcases begins with isNot | begins
  · simp [isNot] at noSign
  · exact .pin (.binaryChain alike.next.arithmetic (advances_arithmetic alike head begins))

theorem advances_expression (begins : t.BeginsExpression) : g.next.expression.Advances c := by
  have expression : g.expression.Onward := Rule.Alike.isOnward (alike.expression)
  refine .within (fun _ => onward_expect.bind fun _ => onward_expect.bind fun _ =>
    expression.bind fun _ => onward_pure) fun none => ?_
  rcases begins with isLet | begins
  · exact absurd isLet (none t head)
  · exact .pin (.binaryChain alike.next.comparison (advances_comparison alike head begins))

end Levels

/-- Where an expression begins, a token of it is read before the attempt succeeds or fails. -/
theorem advances_upTo (at' : c.AtExpression) : (upTo n).expression.Advances c := by
  obtain ⟨t, head, begins⟩ := at'
  cases n with
  | zero =>
    exact ⟨fun yields => absurd yields.lt (Nat.not_lt_zero _),
      fun failed => absurd failed.lt (Nat.not_lt_zero _)⟩
  | succ n => exact advances_expression (alike_upTo n n) head begins

/-- Where none begins, what is missing is an expression. -/
theorem fails_upTo (room : c.left < n) (none : ¬ c.AtExpression) :
    (upTo n).expression.Fails c ⟨.missing .expectedExpression, c⟩ := by
  cases n with
  | zero => exact absurd room (Nat.not_lt_zero _)
  | succ n =>
    have none := Cursor.not_atExpression_iff.mp none
    obtain ⟨f, failed, atOnce⟩ := refuses_iff.mp (refuses_next (g := upTo n) room none)
    -- no `let` comes next, so that the failure is that of the pinned operands
    rcases fails_within.mp failed with ⟨-, t, c₁, taken, isLet, -⟩ | ⟨-, inside⟩
    · exact absurd (.inl isLet) (none t (Cursor.head?_of_take? taken))
    · obtain ⟨f', -, eq⟩ := fails_pin.mp inside
      split at eq
      · rwa [eq] at failed
      · next further => exact absurd (eq ▸ atOnce) further

/-- An attempt fails at once just where no expression begins. -/
theorem refuses_upTo_iff (room : c.left < n) :
    (upTo n).expression.Refuses c ↔ ¬ c.AtExpression := by
  rw [refuses_iff]
  constructor
  · rintro ⟨f, failed, atOnce⟩ begins
    exact Nat.ne_of_lt ((advances_upTo begins).fails failed) atOnce
  · intro none
    exact ⟨_, fails_upTo room none, rfl⟩

end Grammar

/-! ### Statements -/

/-- Statements end behind one of them where no separator comes next, and otherwise behind the
separators if no statement follows these. -/
inductive Cursor.StopsAt : Cursor → Cursor → Prop
  | here {c : Cursor} : ¬ c.AtSeparator → c.StopsAt c
  | behind {c : Cursor} : c.AtSeparator → ¬ c.skipSeparators.AtSeparator →
    ¬ c.skipSeparators.AtExpression → c.StopsAt c.skipSeparators

namespace Cursor

variable {c : Cursor}

theorem not_atSeparator_skipSeparators : ¬ c.skipSeparators.AtSeparator :=
  fun ⟨_, head, kind⟩ => kind_ne_separator head kind

theorem skipSeparators_left_lt_iff : c.skipSeparators.left < c.left ↔ c.AtSeparator := by
  obtain ⟨passed, ahead, final⟩ := c
  cases ahead with
  | nil => simp [AtSeparator, skipSeparators, left]
  | cons t rest =>
    have le := (List.dropWhile_sublist (l := rest) (·.kind == .separator)).length_le
    by_cases kind : t.kind = .separator
    · simp [AtSeparator, skipSeparators, left, kind]
      omega
    · simp [AtSeparator, skipSeparators, left, kind]

end Cursor

namespace Rule

variable {n : Nat} {statement : Rule n Tree} {c c₁ c' : Cursor} {trees : List Tree} {f : Failure}

/-- Statements are read one after another, each behind separators. -/
inductive ReadsEach (statement : Rule n Tree) : Cursor → List Tree → Cursor → Prop
  | nil {c : Cursor} : ReadsEach statement c [] c
  | cons {c c₁ c' : Cursor} {tree : Tree} {trees : List Tree} : c.AtSeparator →
    statement.Yields c.skipSeparators tree c₁ → ReadsEach statement c₁ trees c' →
    ReadsEach statement c (tree :: trees) c'

section FurtherStatements

variable (attempts : ∀ {c}, c.left < n → (statement.Refuses c ↔ ¬ c.AtExpression))

include attempts

/-- Further statements are read up to where they end. -/
theorem yields_furtherStatements_iff :
    (furtherStatements statement).Yields c trees c' ↔
      c.left < n ∧ ∃ c₁, statement.ReadsEach c trees c₁ ∧ c₁.StopsAt c' := by
  constructor
  · intro yields
    refine ⟨yields.lt, ?_⟩
    induction trees generalizing c with
    | nil =>
      refine ⟨c, .nil, ?_⟩
      rcases yields_furtherStatements.mp yields with ⟨-, -, _, _, _, eq, -⟩ |
        ⟨shorter, room, refuses, -, rfl⟩ | ⟨same, -, -, rfl⟩
      · cases eq
      · -- the separators have been read, and what refuses behind them begins no expression
        have roomBehind := Nat.lt_of_le_of_lt c.left_skipSeparators_le room
        exact .behind (Cursor.skipSeparators_left_lt_iff.mp shorter)
          Cursor.not_atSeparator_skipSeparators ((attempts roomBehind).mp refuses)
      · exact .here (mt Cursor.skipSeparators_left_lt_iff.mpr same)
    | cons tree trees ih =>
      rcases yields_furtherStatements.mp yields with ⟨shorter, -, _, c₂, _, eq, first, further⟩ |
        ⟨-, -, -, eq, -⟩ | ⟨-, -, eq, -⟩
      · cases eq
        obtain ⟨c₁, each, stops⟩ := ih further
        exact ⟨c₁, .cons (Cursor.skipSeparators_left_lt_iff.mp shorter) first each, stops⟩
      · cases eq
      · cases eq
  · rintro ⟨room, c₁, each, stops⟩
    induction each with
    | nil =>
      cases stops with
      | here none =>
        exact yields_furtherStatements.mpr
          (.inr (.inr ⟨mt Cursor.skipSeparators_left_lt_iff.mp none, room, rfl, rfl⟩))
      | behind separator _ none =>
        have shorter := Cursor.skipSeparators_left_lt_iff.mpr separator
        have refuses := (attempts (Nat.lt_trans shorter room)).mpr none
        exact yields_furtherStatements.mpr (.inr (.inl ⟨shorter, room, refuses, rfl, rfl⟩))
    | cons separator first _ ih =>
      have shorter := Cursor.skipSeparators_left_lt_iff.mpr separator
      have roomBehind := Nat.lt_of_le_of_lt first.left_le (Nat.lt_trans shorter room)
      exact yields_furtherStatements.mpr
        (.inl ⟨shorter, room, _, _, _, rfl, first, ih roomBehind stops⟩)

/-- Further statements fail where one of them does that has begun, and as it does. -/
theorem fails_furtherStatements_iff :
    (furtherStatements statement).Fails c f ↔
      c.left < n ∧ ∃ trees c₁, statement.ReadsEach c trees c₁ ∧ c₁.AtSeparator ∧
        c₁.skipSeparators.AtExpression ∧ statement.Fails c₁.skipSeparators f := by
  constructor
  · intro failed
    refine ⟨failed.lt, ?_⟩
    -- a failure does not tell the statements before it, but each of them has read a token
    induction left : c.left using Nat.strongRecOn generalizing c with
    | ind size ih =>
    obtain ⟨shorter, room, ⟨failed, further⟩ | ⟨tree, c₂, first, failed⟩⟩ :=
      fails_furtherStatements.mp failed
    · have separator := Cursor.skipSeparators_left_lt_iff.mp shorter
      refine ⟨[], c, .nil, separator, ?_, failed⟩
      -- if none began, this attempt would fail at once, and the statements end
      by_contra none
      obtain ⟨f', failed', atOnce⟩ :=
        refuses_iff.mp ((attempts (Nat.lt_trans shorter room)).mpr none)
      obtain rfl := failed.unique failed'
      exact further atOnce
    · have less : c₂.left < size := left ▸ Nat.lt_of_le_of_lt first.left_le shorter
      obtain ⟨trees, c₁, each, behind⟩ := ih _ less failed rfl
      exact ⟨tree :: trees, c₁, .cons (Cursor.skipSeparators_left_lt_iff.mp shorter) first each,
        behind⟩
  · rintro ⟨room, trees, c₁, each, separator, begins, failed⟩
    induction each with
    | nil =>
      have shorter := Cursor.skipSeparators_left_lt_iff.mpr separator
      refine fails_furtherStatements.mpr ⟨shorter, room, .inl ⟨failed, fun atOnce => ?_⟩⟩
      have refuses := refuses_iff.mpr ⟨f, failed, atOnce⟩
      exact (attempts (Nat.lt_trans shorter room)).mp refuses begins
    | cons separator' first _ ih =>
      have shorter := Cursor.skipSeparators_left_lt_iff.mpr separator'
      have roomBehind := Nat.lt_of_le_of_lt first.left_le (Nat.lt_trans shorter room)
      exact fails_furtherStatements.mpr
        ⟨shorter, room, .inr ⟨_, _, first, ih roomBehind separator begins failed⟩⟩

/-- Statements are read up to where they end behind the last of them. -/
theorem yields_statements_iff {tree : Tree} :
    (statements statement).Yields c tree c' ↔
      c.left < n ∧ ∃ first c₁ others c₂, statement.Yields c.skipSeparators first c₁ ∧
        statement.ReadsEach c₁ others c₂ ∧ c₂.StopsAt c' ∧
        tree = .sequence (first :: others) c.current.start c'.lastStop := by
  constructor
  · intro yields
    simp only [statements, yields_bind, yields_here, yields_skipSeparators, yields_lastStop,
      yields_pure, yields_furtherStatements_iff attempts] at yields
    obtain ⟨_, _, ⟨room, rfl, rfl⟩, _, _, ⟨-, rfl⟩, first, c₁, yields, others, _,
      ⟨-, c₂, each, stops⟩, _, _, ⟨-, rfl, rfl⟩, -, rfl, rfl⟩ := yields
    exact ⟨room, first, c₁, others, c₂, yields, each, stops, rfl⟩
  · rintro ⟨room, first, c₁, others, c₂, yields, each, stops, rfl⟩
    have room₁ : c₁.left < n := Nat.lt_of_le_of_lt yields.left_le yields.lt
    have further := (yields_furtherStatements_iff attempts).mpr ⟨room₁, c₂, each, stops⟩
    have room' : c'.left < n := Nat.lt_of_le_of_lt further.left_le room₁
    refine yields_bind.mpr ⟨_, c, yields_here.mpr ⟨room, rfl, rfl⟩, ?_⟩
    refine yields_bind.mpr ⟨(), _, yields_skipSeparators.mpr ⟨room, rfl⟩, ?_⟩
    refine yields_bind.mpr ⟨first, c₁, yields, yields_bind.mpr ⟨others, c', further, ?_⟩⟩
    exact yields_bind.mpr ⟨_, c', yields_lastStop.mpr ⟨room', rfl, rfl⟩,
      yields_pure.mpr ⟨room', rfl, rfl⟩⟩

/-- Statements fail where the first of them does, or further on where another one does that has
begun. -/
theorem fails_statements_iff :
    (statements statement).Fails c f ↔
      c.left < n ∧ (statement.Fails c.skipSeparators f ∨
        ∃ first c₁ trees c₂, statement.Yields c.skipSeparators first c₁ ∧
          statement.ReadsEach c₁ trees c₂ ∧ c₂.AtSeparator ∧ c₂.skipSeparators.AtExpression ∧
          statement.Fails c₂.skipSeparators f) := by
  constructor
  · intro failed
    refine ⟨failed.lt, ?_⟩
    -- only the first statement and the further ones can fail
    simp only [statements, fails_bind, not_fails_here, not_fails_skipSeparators,
      not_fails_lastStop, not_fails_pure, yields_here, yields_skipSeparators, false_or, or_false,
      and_false, exists_false] at failed
    obtain ⟨_, _, ⟨-, rfl, rfl⟩, _, _, ⟨-, rfl⟩, failed | ⟨first, c₁, yields, failed⟩⟩ := failed
    · exact .inl failed
    · obtain ⟨-, trees, c₂, behind⟩ := (fails_furtherStatements_iff attempts).mp failed
      exact .inr ⟨first, c₁, trees, c₂, yields, behind⟩
  · rintro ⟨room, failed⟩
    refine fails_bind.mpr (.inr ⟨_, c, yields_here.mpr ⟨room, rfl, rfl⟩, ?_⟩)
    refine fails_bind.mpr (.inr ⟨(), _, yields_skipSeparators.mpr ⟨room, rfl⟩, ?_⟩)
    rcases failed with failed | ⟨first, c₁, trees, c₂, yields, behind⟩
    · exact fails_bind.mpr (.inl failed)
    · have room₁ : c₁.left < n := Nat.lt_of_le_of_lt yields.left_le yields.lt
      have further := (fails_furtherStatements_iff attempts).mpr ⟨room₁, trees, c₂, behind⟩
      exact fails_bind.mpr (.inr ⟨first, c₁, yields, fails_bind.mpr (.inl further)⟩)

end FurtherStatements

end Rule

/-- An attempt at an expression fails at once just where none begins; the failure is then that an
expression is missing, with the cursor where it was. Every attempt that succeeds has read a token.
Statements therefore end where they should: no separator comes next behind the last of them, or no
expression begins behind the separators. They fail as their first statement does, or as another one
that has begun. -/
theorem Grammar.attempts_upTo {n : Nat} {c : Cursor} (room : c.left < n) :
    let expression := (upTo n).expression
    ((∃ f, expression.Fails c f ∧ f.cursor.left = c.left) ↔ ¬ c.AtExpression) ∧
      (∀ f, expression.Fails c f → f.cursor.left = c.left →
        f = ⟨.missing .expectedExpression, c⟩) ∧
      (∀ tree c', expression.Yields c tree c' → c'.left < c.left) ∧
      (∀ tree c', (Rule.statements expression).Yields c tree c' ↔
        ∃ first c₁ others c₂, expression.Yields c.skipSeparators first c₁ ∧
          expression.ReadsEach c₁ others c₂ ∧ c₂.StopsAt c' ∧
          tree = .sequence (first :: others) c.current.start c'.lastStop) ∧
      ∀ f, (Rule.statements expression).Fails c f ↔
        expression.Fails c.skipSeparators f ∨
          ∃ first c₁ others c₂, expression.Yields c.skipSeparators first c₁ ∧
            expression.ReadsEach c₁ others c₂ ∧ c₂.AtSeparator ∧
            c₂.skipSeparators.AtExpression ∧ expression.Fails c₂.skipSeparators f := by
  intro expression
  have attempts {c : Cursor} (room : c.left < n) : expression.Refuses c ↔ ¬ c.AtExpression :=
    refuses_upTo_iff room
  have atOnce {f : Failure} (failed : expression.Fails c f) (same : f.cursor.left = c.left) :
      f = ⟨.missing .expectedExpression, c⟩ :=
    failed.unique (fails_upTo room ((attempts room).mp (Rule.refuses_iff.mpr ⟨f, failed, same⟩)))
  -- an attempt that reads nothing would fail at once
  have advances (tree : Tree) (c' : Cursor) (yields : expression.Yields c tree c') :
      c'.left < c.left := by
    refine (advances_upTo (c := c) ?_).yields yields
    by_contra none
    exact yields.not_fails (fails_upTo room none)
  refine ⟨Rule.refuses_iff.symm.trans (attempts room), fun f => atOnce, advances,
    fun tree c' => ?_, fun f => ?_⟩
  · rw [Rule.yields_statements_iff attempts]
    exact and_iff_right room
  · rw [Rule.fails_statements_iff attempts]
    exact and_iff_right room

theorem Grammar.attempts_upTo_closing :
    let c : Cursor := ⟨[], [⟨.rightParen, none, .nowhere, .nowhere⟩],
      ⟨.endOfInput, none, .nowhere, .nowhere⟩⟩
    c.left < 2 ∧ ∃ f, (upTo 2).expression.Fails c f ∧ f.cursor.left = c.left := by
  intro c
  have room : c.left < 2 := by decide
  refine ⟨room, (Grammar.attempts_upTo room).1.mpr ?_⟩
  rintro ⟨t, head, begins⟩
  cases head
  exact Token.BeginsExpression.kind_not_mem begins (by decide)

end Scriptlet
