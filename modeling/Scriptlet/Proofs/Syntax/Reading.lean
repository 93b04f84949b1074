import Scriptlet.Parse.Program
import Scriptlet.Proofs.Syntax.Phrase

/-!
# What rules read

A rule is a function with a bound on the tokens ahead. Here it becomes a relation between a
cursor, what is read there and the cursor afterwards, and each way of building a rule gets an
equivalence for that relation. Nothing later has to open a rule.

## Main definitions

* `Cursor.Reads` — one cursor stands behind another by these tokens
* `Rule.Yields` — what a rule reads at a cursor, and the cursor after it
* `Rule.Refuses` — a rule fails without having read anything
* `Level.test` — the parser's test for the operators of a level

## Main results

* `Rule.yields_bind`, `Rule.yields_onNext`, `Rule.yields_pin` — what composed rules read
* `Rule.binaryChainFrom_eq`, `Rule.afterCommas_eq`, `Rule.yields_furtherStatements` — one round
  of each loop
-/

namespace Scriptlet

namespace Cursor

/-- Reading the tokens `w` leads from `c` to `c'`. -/
structure Reads (c : Cursor) (w : List Token) (c' : Cursor) : Prop where
  ahead : c.ahead = w ++ c'.ahead
  passed : c'.passed = w.reverse ++ c.passed
  final : c'.final = c.final

variable {c c₁ c₂ : Cursor} {w v : List Token} {t : Token}

theorem Reads.refl (c : Cursor) : c.Reads [] c := ⟨rfl, rfl, rfl⟩

theorem Reads.trans (h : c.Reads w c₁) (h' : c₁.Reads v c₂) : c.Reads (w ++ v) c₂ where
  ahead := by rw [h.ahead, h'.ahead, List.append_assoc]
  passed := by rw [h'.passed, h.passed, List.reverse_append, List.append_assoc]
  final := h'.final.trans h.final

@[simp] theorem reads_nil_iff : c.Reads [] c₁ ↔ c₁ = c := by
  constructor
  · rintro ⟨ahead, passed, final⟩
    obtain ⟨passed₀, ahead₀, final₀⟩ := c
    obtain ⟨passed₁, ahead₁, final₁⟩ := c₁
    simp_all
  · rintro rfl
    exact .refl _

/-- Reading more can be cut where the tokens are cut. -/
theorem reads_append_iff : c.Reads (w ++ v) c₂ ↔ ∃ c₁, c.Reads w c₁ ∧ c₁.Reads v c₂ := by
  constructor
  · intro h
    -- the cursor between the two parts has `w` behind it and `v` still ahead
    refine ⟨⟨w.reverse ++ c.passed, v ++ c₂.ahead, c.final⟩, ⟨?_, rfl, rfl⟩, rfl, ?_, h.final⟩
    · rw [h.ahead, List.append_assoc]
    · rw [h.passed, List.reverse_append, List.append_assoc]
  · rintro ⟨c₁, h, h'⟩
    exact h.trans h'

/-- To read one token is to take it. -/
theorem reads_singleton_iff : c.Reads [t] c₁ ↔ c.take? = some (t, c₁) := by
  rw [take?_eq_some_iff]
  constructor
  · intro h
    exact ⟨h.ahead, h.passed, h.final⟩
  · rintro ⟨ahead, passed, final⟩
    exact ⟨ahead, passed, final⟩

theorem reads_cons_iff :
    c.Reads (t :: w) c₂ ↔ ∃ c₁, c.take? = some (t, c₁) ∧ c₁.Reads w c₂ := by
  rw [← List.singleton_append, reads_append_iff]
  simp only [reads_singleton_iff]

theorem Reads.behind (h : c₁.Reads w c₂) (taken : c.take? = some (t, c₁)) :
    c.Reads (t :: w) c₂ :=
  reads_cons_iff.mpr ⟨c₁, taken, h⟩

theorem Reads.andTake (h : c.Reads w c₁) (taken : c₁.take? = some (t, c₂)) :
    c.Reads (w ++ [t]) c₂ :=
  h.trans (reads_singleton_iff.mpr taken)

theorem Reads.left_eq (h : c.Reads w c₁) : c.left = w.length + c₁.left := by
  simp [left, h.ahead]

theorem Reads.left_le (h : c.Reads w c₁) : c₁.left ≤ c.left := by
  rw [h.left_eq]
  exact Nat.le_add_left ..

/-- Fewer tokens are ahead just where some have been read. -/
theorem Reads.left_lt_iff (h : c.Reads w c₁) : c₁.left < c.left ↔ w ≠ [] := by
  rw [h.left_eq, ← List.length_pos_iff]
  omega

/-- A bound on the tokens ahead holds of what is ahead later, too. -/
theorem Reads.left_lt {n : Nat} (h : c.Reads w c₁) (lt : c.left < n) : c₁.left < n :=
  Nat.lt_of_le_of_lt h.left_le lt

theorem left_lt_trans {n : Nat} (taken : c.take? = some (t, c₁)) (lt : c.left < n) :
    c₁.left < n :=
  Nat.lt_trans (left_lt_of_take? taken) lt

/-- Reading a token makes room in a bound that allows for one more. -/
theorem left_lt_of_succ {n : Nat} (taken : c.take? = some (t, c₁)) (lt : c.left < n + 1) :
    c₁.left < n :=
  Nat.lt_of_lt_of_le (left_lt_of_take? taken) (Nat.le_of_lt_succ lt)

/-- The tokens read after the last, as the cursor reports where they end. -/
theorem Reads.lastStop_eq (h : c.Reads (w ++ [t]) c₁) : c₁.lastStop = t.stop := by
  simp [lastStop, h.passed]

theorem head?_of_take? (h : c.take? = some (t, c₁)) : c.ahead.head? = some t := by
  rw [(take?_eq_some_iff.mp h).1, List.head?_cons]

theorem eq_of_take? {u : Token} (h : c.take? = some (t, c₁)) (head : c.ahead.head? = some u) :
    t = u :=
  Option.some.inj ((head?_of_take? h).symm.trans head)

/-- The first token that is read is the one that comes next. -/
theorem Reads.eq_head {u : Token} (h : c.Reads (t :: w) c₁) (head : c.ahead.head? = some u) :
    t = u := by
  rw [h.ahead] at head
  exact Option.some.inj head

theorem take?_of_head? (h : c.ahead.head? = some t) : ∃ c₁, c.take? = some (t, c₁) := by
  obtain ⟨passed, ahead, final⟩ := c
  cases ahead with
  | nil => simp at h
  | cons u rest =>
    obtain rfl : u = t := by simpa using h
    exact ⟨_, rfl⟩

theorem current_of_ahead (h : c.ahead = t :: w) : c.current = t := by
  simp [current, h]

/-- The separators that come next are read, and none comes after them. -/
theorem reads_skipSeparators (c : Cursor) :
    c.Reads (c.ahead.takeWhile (·.kind == .separator)) c.skipSeparators :=
  ⟨List.takeWhile_append_dropWhile.symm, rfl, rfl⟩

/-- All separators are read where none comes next behind them. -/
theorem skipSeparators_eq {w : List Token} (reads : c.Reads w c₁) (separators : Separators w)
    (ended : ∀ t, c₁.ahead.head? = some t → t.kind ≠ .separator) : c.skipSeparators = c₁ := by
  obtain ⟨passed₁, ahead₁, final₁⟩ := c₁
  have all : ∀ t ∈ w, (t.kind == .separator) = true := fun t mem => by simp [separators t mem]
  have rest : ahead₁.takeWhile (·.kind == .separator) = [] ∧
      ahead₁.dropWhile (·.kind == .separator) = ahead₁ := by
    cases ahead₁ with
    | nil => exact ⟨rfl, rfl⟩
    | cons t rest => simp [ended t rfl]
  simp only [skipSeparators, reads.ahead, List.takeWhile_append_of_pos all,
    List.dropWhile_append_of_pos all, rest, List.append_nil, mk.injEq, true_and]
  exact ⟨reads.passed.symm, reads.final.symm⟩

end Cursor

namespace Rule

variable {m n : Nat} {α β : Type} {c c' : Cursor} {a b : α}

/-- At `c` the rule reads `a`, and leaves the cursor at `c'`. -/
def Yields (rule : Rule n α) (c : Cursor) (a : α) (c' : Cursor) : Prop :=
  ∃ h le, rule c h = .ok ⟨a, c', le⟩

/-- At `c` the rule fails without having read a token. -/
def Refuses (rule : Rule n α) (c : Cursor) : Prop :=
  ∃ h f, rule c h = .error f ∧ f.cursor.left = c.left

theorem Yields.lt {rule : Rule n α} (h : rule.Yields c a c') : c.left < n := h.1

theorem Yields.left_le {rule : Rule n α} (h : rule.Yields c a c') : c'.left ≤ c.left := h.2.1

theorem map_later_eq_ok {c₁ : Cursor} {le : c₁.left ≤ c.left}
    {result : Except Failure (Parsed c₁ α)} {le' : c'.left ≤ c.left}
    (h : result.map (later le) = .ok ⟨a, c', le'⟩) : ∃ le₁, result = .ok ⟨a, c', le₁⟩ := by
  cases result with
  | error f => cases h
  | ok r =>
    cases h
    exact ⟨r.left_le, rfl⟩

/-! ### Rules without a loop -/

@[simp] theorem yields_pure : (pure a : Rule n α).Yields c b c' ↔ c.left < n ∧ b = a ∧ c' = c := by
  constructor
  · rintro ⟨h, _, eq⟩
    cases eq
    exact ⟨h, rfl, rfl⟩
  · rintro ⟨h, rfl, rfl⟩
    exact ⟨h, Nat.le_refl _, rfl⟩

/-- One rule after another reads what the two read in turn. -/
@[simp] theorem yields_bind {rule : Rule n α} {next : α → Rule n β} {b : β} :
    (rule >>= next).Yields c b c' ↔ ∃ a c₁, rule.Yields c a c₁ ∧ (next a).Yields c₁ b c' := by
  constructor
  · rintro ⟨h, le, eq⟩
    rw [bind_apply] at eq
    split at eq
    · cases eq
    · next r ok =>
      exact ⟨r.value, r.next, ⟨h, r.left_le, ok⟩, _, map_later_eq_ok eq⟩
  · rintro ⟨a, c₁, ⟨h, le, ok⟩, ⟨h', le', ok'⟩⟩
    refine ⟨h, Nat.le_trans le' le, ?_⟩
    rw [bind_apply, ok]
    simp only [ok']
    rfl

@[simp] theorem not_yields_fail {cause : Failure.Cause} :
    ¬ (fail cause : Rule n α).Yields c a c' := by
  rintro ⟨_, _, eq⟩
  cases eq

@[simp] theorem not_yields_missing {kind : ParseError.Kind} :
    ¬ (missing kind : Rule n α).Yields c a c' :=
  not_yields_fail

@[simp] theorem yields_here {p : Position} :
    (here : Rule n Position).Yields c p c' ↔ c.left < n ∧ p = c.current.start ∧ c' = c := by
  constructor
  · rintro ⟨h, _, eq⟩
    cases eq
    exact ⟨h, rfl, rfl⟩
  · rintro ⟨h, rfl, rfl⟩
    exact ⟨h, Nat.le_refl _, rfl⟩

@[simp] theorem yields_lastStop {p : Position} :
    (lastStop : Rule n Position).Yields c p c' ↔ c.left < n ∧ p = c.lastStop ∧ c' = c := by
  constructor
  · rintro ⟨h, _, eq⟩
    cases eq
    exact ⟨h, rfl, rfl⟩
  · rintro ⟨h, rfl, rfl⟩
    exact ⟨h, Nat.le_refl _, rfl⟩

@[simp] theorem yields_skipSeparators {u : Unit} :
    (skipSeparators : Rule n Unit).Yields c u c' ↔ c.left < n ∧ c' = c.skipSeparators := by
  constructor
  · rintro ⟨h, _, eq⟩
    cases eq
    exact ⟨h, rfl⟩
  · rintro ⟨h, rfl⟩
    exact ⟨h, c.left_skipSeparators_le, rfl⟩

/-! ### Rules that decide by the next token -/

section Next

variable {room : n ≤ m + 1} {choose : Token → Option (Rule m α)} {other : Rule n α}

/-- Where the next token chooses no rule, `other` reads from that token on. -/
theorem onNext_eq_other (h : c.left < n) (none : ∀ t, c.ahead.head? = some t → choose t = none) :
    onNext room choose other c h = other c h := by
  unfold onNext
  split
  · rfl
  · next t c₁ taken =>
    rw [none t (Cursor.head?_of_take? taken)]

/-- Where the next token chooses a rule, that rule reads behind it. -/
theorem onNext_eq_chosen (h : c.left < n) {t : Token} {c₁ : Cursor} {rule : Rule m α}
    (taken : c.take? = some (t, c₁)) (chosen : choose t = some rule) (h₁ : c₁.left < m) :
    onNext room choose other c h =
      (rule c₁ h₁).map (later (Nat.le_of_lt (Cursor.left_lt_of_take? taken))) := by
  unfold onNext
  split
  · next taken' => simp [taken] at taken'
  · next t' c₁' taken' =>
    obtain ⟨rfl, rfl⟩ : t = t' ∧ c₁ = c₁' := by simpa [taken] using taken'
    simp only [chosen]

/-- A rule was chosen by the next token, or none was and `other` reads. -/
theorem yields_onNext :
    (onNext room choose other).Yields c a c' ↔
      (c.left < n ∧ ∃ t c₁ rule, c.take? = some (t, c₁) ∧ choose t = some rule ∧
        rule.Yields c₁ a c') ∨
      (∀ t, c.ahead.head? = some t → choose t = none) ∧ other.Yields c a c' := by
  constructor
  · rintro ⟨h, le, eq⟩
    -- the next token settles which of the two equations for `onNext` applies
    by_cases none : ∀ t, c.ahead.head? = some t → choose t = none
    · rw [onNext_eq_other h none] at eq
      exact .inr ⟨none, h, le, eq⟩
    · simp only [Classical.not_forall] at none
      obtain ⟨t, head, chosen⟩ := none
      obtain ⟨rule, chosen⟩ := Option.ne_none_iff_exists'.mp chosen
      obtain ⟨c₁, taken⟩ := Cursor.take?_of_head? head
      have h₁ : c₁.left < m := by
        have := Cursor.left_lt_of_take? taken
        omega
      rw [onNext_eq_chosen h taken chosen h₁] at eq
      exact .inl ⟨h, t, c₁, rule, taken, chosen, h₁, map_later_eq_ok eq⟩
  · rintro (⟨h, t, c₁, rule, taken, chosen, h₁, le, ok⟩ | ⟨none, h, le, ok⟩)
    · refine ⟨h, Nat.le_trans le (Nat.le_of_lt (Cursor.left_lt_of_take? taken)), ?_⟩
      rw [onNext_eq_chosen h taken chosen h₁, ok]
      rfl
    · exact ⟨h, le, by rw [onNext_eq_other h none, ok]⟩

/-- A rule that decides by the next token refuses where the token chooses no rule and `other`
refuses. -/
theorem Refuses.onNext (room : n ≤ m + 1) (refuses : other.Refuses c)
    (none : ∀ t, c.ahead.head? = some t → choose t = none) :
    (onNext room choose other).Refuses c := by
  obtain ⟨h, f, failed, same⟩ := refuses
  exact ⟨h, f, by rw [onNext_eq_other h none, failed], same⟩

end Next

section Asked

variable {asked : Token → Bool}

/-- A rule that asks for the next token goes on behind it or leaves it to the other rule. -/
theorem yields_ifNext {after : Token → Rule n α} {other : Rule n α} :
    (ifNext asked after other).Yields c a c' ↔
      (c.left < n ∧ ∃ t c₁, c.take? = some (t, c₁) ∧ asked t ∧ (after t).Yields c₁ a c') ∨
      (∀ t, c.ahead.head? = some t → asked t = false) ∧ other.Yields c a c' := by
  simp [ifNext, yields_onNext, and_assoc]

theorem yields_dispatch {choose : Token → Option (Rule n α)} {other : Rule (n + 1) α} :
    (dispatch choose other).Yields c a c' ↔
      (c.left < n + 1 ∧ ∃ t c₁ rule, c.take? = some (t, c₁) ∧ choose t = some rule ∧
        rule.Yields c₁ a c') ∨
      (∀ t, c.ahead.head? = some t → choose t = none) ∧ other.Yields c a c' :=
  yields_onNext

theorem yields_within {after : Token → Rule n α} {other : Rule (n + 1) α} :
    (within asked after other).Yields c a c' ↔
      (c.left < n + 1 ∧ ∃ t c₁, c.take? = some (t, c₁) ∧ asked t ∧ (after t).Yields c₁ a c') ∨
      (∀ t, c.ahead.head? = some t → asked t = false) ∧ other.Yields c a c' := by
  simp [within, yields_dispatch, and_assoc]

/-- Where the next token is not the one asked for, the other rule decides whether to refuse. -/
theorem Refuses.within {after : Token → Rule n α} {other : Rule (n + 1) α}
    (refuses : other.Refuses c) (none : ∀ t, c.ahead.head? = some t → asked t = false) :
    (within asked after other).Refuses c := by
  refine Refuses.onNext (Nat.le_refl _) refuses fun t head => ?_
  rw [none t head]
  rfl

/-- Exactly one token of the kind is read. -/
@[simp] theorem yields_expect {kind : Token.Kind} {what : Expectation} {t : Token} :
    (expect kind what : Rule n Token).Yields c t c' ↔
      c.left < n ∧ t.kind = kind ∧ c.take? = some (t, c') := by
  simp only [expect, yields_ifNext, yields_pure, not_yields_missing, and_false, or_false]
  constructor
  · rintro ⟨h, u, c₁, taken, asked, -, rfl, rfl⟩
    exact ⟨h, by simpa using asked, taken⟩
  · rintro ⟨h, kind, taken⟩
    have := Cursor.left_lt_of_take? taken
    exact ⟨h, t, c', taken, by simpa using kind, by omega, rfl, rfl⟩

end Asked

theorem refuses_missing {kind : ParseError.Kind} (h : c.left < n) :
    (missing kind : Rule n α).Refuses c :=
  ⟨h, ⟨.missing kind, c⟩, rfl, rfl⟩

/-- A rule followed by another refuses where it refuses itself. -/
theorem Refuses.bind {rule : Rule n α} {next : α → Rule n β} (refuses : rule.Refuses c) :
    (rule >>= next).Refuses c := by
  obtain ⟨h, f, failed, same⟩ := refuses
  exact ⟨h, f, by rw [bind_apply, failed], same⟩

/-! ### Reporting failures -/

/-- What a rule reads does not depend on how its failures are reported. -/
@[simp] theorem yields_pin {kind : ParseError.Kind} {rule : Rule n α} :
    (pin kind rule).Yields c a c' ↔ rule.Yields c a c' := by
  have pinned (h : c.left < n) (le : c'.left ≤ c.left) :
      pin kind rule c h = .ok ⟨a, c', le⟩ ↔ rule c h = .ok ⟨a, c', le⟩ := by
    -- pinning changes the report of a failure and leaves successes alone
    unfold pin
    cases rule c h with
    | error f => exact ⟨nofun, nofun⟩
    | ok r => exact Iff.rfl
  simp only [Yields, pinned]

theorem Refuses.pin {kind : ParseError.Kind} {rule : Rule n α} (refuses : rule.Refuses c) :
    (pin kind rule).Refuses c := by
  obtain ⟨h, f, failed, same⟩ := refuses
  refine ⟨h, ⟨.missing kind, c⟩, ?_, rfl⟩
  rw [Rule.pin, failed]
  exact congrArg Except.error (if_pos same)

/-! ### One round of a loop -/

/-- A rule decides by the next token if it does so at every cursor. -/
theorem eq_ifNext {asked : Token → Bool} {after : Token → Rule n α} {rule other : Rule n α}
    (other_eq : ∀ c h, (∀ t, c.ahead.head? = some t → asked t = false) → rule c h = other c h)
    (after_eq : ∀ c h t c₁ h₁ (taken : c.take? = some (t, c₁)), asked t →
      rule c h = (after t c₁ h₁).map (later (Nat.le_of_lt (Cursor.left_lt_of_take? taken)))) :
    rule = ifNext asked after other := by
  funext c h
  -- no token that is asked for comes next, or one does and is read
  by_cases none : ∀ t, c.ahead.head? = some t → asked t = false
  · rw [other_eq c h none, ifNext, onNext_eq_other h fun t head => by simp [none t head]]
  · simp only [Classical.not_forall, Bool.not_eq_false] at none
    obtain ⟨t, head, yes⟩ := none
    obtain ⟨c₁, taken⟩ := Cursor.take?_of_head? head
    have h₁ : c₁.left < n := Cursor.left_lt_trans taken h
    rw [after_eq c h t c₁ h₁ taken yes, ifNext, onNext_eq_chosen h taken (if_pos yes) h₁]

/-- A chain goes on with an operator and an operand, or ends. -/
theorem binaryChainFrom_eq (isOperator : Token.Kind → Bool) (operand : Rule n Tree)
    (left : Tree) :
    binaryChainFrom isOperator operand left =
      ifNext (isOperator ·.kind)
        (fun t => do
          let right ← operand
          binaryChainFrom isOperator operand (.binary left t right))
        (pure left) := by
  apply eq_ifNext
  -- the chain ends with the operands joined so far
  · intro c h none
    rw [binaryChainFrom]
    split
    · rfl
    · next t c₁ taken =>
      rw [if_neg (by simp [none t (Cursor.head?_of_take? taken)])]
      rfl
  -- the chain goes on, and its recursive call is the last rule of the bind
  · intro c h t c₁ h₁ taken operator
    rw [binaryChainFrom]
    split
    · next taken' => simp [taken] at taken'
    next t' c₁' taken' =>
    obtain ⟨rfl, rfl⟩ : t = t' ∧ c₁ = c₁' := by simpa [taken] using taken'
    rw [if_pos operator, bind_apply]
    split
    · next failed => simp [failed, Except.map]
    · next ok =>
      simp only [ok]
      cases binaryChainFrom isOperator operand _ _ _ <;> rfl

/-- A list goes on with a comma and an item, or ends. -/
theorem afterCommas_eq (item : Rule n α) :
    afterCommas item =
      ifNext (·.kind == .comma)
        (fun _ => do
          let value ← item
          let others ← afterCommas item
          return value :: others)
        (pure []) := by
  apply eq_ifNext
  -- the list ends
  · intro c h none
    rw [afterCommas]
    split
    · rfl
    · next t c₁ taken =>
      rw [if_neg (by simpa using none t (Cursor.head?_of_take? taken))]
      rfl
  -- the list goes on, and what follows is put behind the item
  · intro c h t c₁ h₁ taken comma
    rw [afterCommas]
    split
    · next taken' => simp [taken] at taken'
    next t' c₁' taken' =>
    obtain ⟨rfl, rfl⟩ : t = t' ∧ c₁ = c₁' := by simpa [taken] using taken'
    rw [if_pos (by simpa using comma), bind_apply]
    split
    · next failed => simp [failed, Except.map]
    · next ok =>
      simp only [ok, bind_apply]
      cases afterCommas item _ _ <;> rfl

/-- Nothing more is read where no comma comes next. -/
theorem yields_afterCommas_nil {item : Rule n α} :
    (afterCommas item).Yields c [] c' ↔
      c.left < n ∧ c' = c ∧ ∀ t, c.ahead.head? = some t → t.kind ≠ .comma := by
  rw [afterCommas_eq, yields_ifNext]
  simp only [yields_bind, yields_pure, beq_eq_false_iff_ne]
  constructor
  · rintro (⟨_, _, _, _, _, _, _, _, _, _, _, _, eq, _⟩ | ⟨none, h, _, rfl⟩)
    · cases eq
    · exact ⟨h, rfl, none⟩
  · rintro ⟨h, rfl, none⟩
    exact .inr ⟨none, h, trivial, rfl⟩

/-- A value is read behind each comma. -/
theorem yields_afterCommas_cons {item : Rule n α} {others : List α} :
    (afterCommas item).Yields c (a :: others) c' ↔
      c.left < n ∧ ∃ comma c₁ c₂, c.take? = some (comma, c₁) ∧ comma.kind = .comma ∧
        item.Yields c₁ a c₂ ∧ (afterCommas item).Yields c₂ others c' := by
  constructor
  · intro yields
    rw [afterCommas_eq, yields_ifNext] at yields
    simp only [yields_bind, yields_pure, beq_iff_eq] at yields
    rcases yields with ⟨h, comma, c₁, taken, kind, _, c₂, item, _, c₃, further, -, eq, rfl⟩ |
      ⟨_, _, eq, _⟩
    · cases eq
      exact ⟨h, comma, c₁, c₂, taken, kind, item, further⟩
    · cases eq
  · rintro ⟨h, comma, c₁, c₂, taken, kind, item, further⟩
    have h' : c'.left < n := Nat.lt_of_le_of_lt further.left_le further.lt
    rw [afterCommas_eq, yields_ifNext]
    simp only [yields_bind, yields_pure, beq_iff_eq]
    exact .inl ⟨h, comma, c₁, taken, kind, a, c₂, item, others, c', further, h', rfl, rfl⟩

/-- Statements go on behind separators, end with separators that no statement follows, or end
where no separator comes next. -/
theorem yields_furtherStatements {statement : Rule n Tree} {trees : List Tree} :
    (furtherStatements statement).Yields c trees c' ↔
      (c.skipSeparators.left < c.left ∧ c.left < n ∧ ∃ tree c₁ others, trees = tree :: others ∧
        statement.Yields c.skipSeparators tree c₁ ∧
        (furtherStatements statement).Yields c₁ others c') ∨
      (c.skipSeparators.left < c.left ∧ c.left < n ∧ statement.Refuses c.skipSeparators ∧
        trees = [] ∧ c' = c.skipSeparators) ∨
      (¬ c.skipSeparators.left < c.left ∧ c.left < n ∧ trees = [] ∧ c' = c) := by
  constructor
  · rintro ⟨h, le, eq⟩
    rw [furtherStatements] at eq
    split at eq
    · next shorter =>
      split at eq
      -- a failure ends the series only where nothing was read before it
      · next f failed =>
        split at eq
        · next atOnce =>
          cases eq
          exact .inr (.inl ⟨shorter, h, ⟨_, f, failed, atOnce⟩, rfl, rfl⟩)
        · cases eq
      -- a statement was read, and the series goes on behind it
      · next tree c₁ le₁ ok =>
        cases further : furtherStatements statement c₁ (by omega) with
        | error f => simp [further, Except.map] at eq
        | ok r =>
          simp only [further, Except.map, Except.ok.injEq, Parsed.mk.injEq] at eq
          obtain ⟨rfl, rfl⟩ := eq
          exact .inl ⟨shorter, h, tree, c₁, r.value, rfl, ⟨_, le₁, ok⟩, _, r.left_le, further⟩
    · next shorter =>
      cases eq
      exact .inr (.inr ⟨shorter, h, rfl, rfl⟩)
  · rintro (⟨shorter, h, tree, c₁, others, rfl, ⟨h₁, le₁, ok⟩, h₂, le₂, further⟩ |
      ⟨shorter, h, ⟨h₁, f, failed, atOnce⟩, rfl, rfl⟩ | ⟨shorter, h, rfl, rfl⟩)
    · refine ⟨h, by omega, ?_⟩
      rw [furtherStatements]
      simp only [dif_pos shorter, ok, further, Except.map]
    · refine ⟨h, by omega, ?_⟩
      rw [furtherStatements]
      simp only [dif_pos shorter, failed, if_pos atOnce]
    · refine ⟨h, Nat.le_refl _, ?_⟩
      rw [furtherStatements]
      simp only [dif_neg shorter]

end Rule

/-! ### Levels of operators -/

/-- The test of the parser for the operators of a level. -/
def Level.test : Level → Token.Kind → Bool
  | conditions => Grammar.isLogical
  | relations => Grammar.isRelational
  | sums => Grammar.isAdditive
  | products => Grammar.isMultiplicative

theorem Level.test_iff (level : Level) (k : Token.Kind) : level.test k ↔ k ∈ level.operators := by
  cases level <;> cases k <;> decide

namespace Grammar

variable {n : Nat} (g : Grammar n)

theorem next_factor : g.next.factor = underOperator isAdditive g.factor g.call := rfl

theorem next_comparison :
    g.next.comparison = underOperator (· == .not) g.comparison
      (Rule.pin .expectedOperand (Rule.binaryChain Level.relations.test g.next.arithmetic)) := rfl

end Grammar

end Scriptlet
