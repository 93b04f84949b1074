import Scriptlet.Proofs.Syntax.Viable
import Scriptlet.Tokenizing

/-!
# The end of input

A list of tokens is parsed up to its first end of input. That the others are put aside beforehand is
no more than a convenience: with all tokens in view no rule reads an end of input, and so none ever
comes to what stands behind it. Nor does it matter whether the end is in the list. Where it is
missing, it is taken to stand where the last token ends, and a token of the list that stands there
is read as the same.

Two cursors are compared, one with nothing ahead from the end of input on, the other with all that
the list has. Rules read the same tokens at both and fail in the same way.

## Main definitions

* `Tree.ofTokensInFull` — parsing with all tokens in view
* `Cursor.Ends` — a cursor for which the tokens end where another sees an end of input
* `Rule.Agree` — rules that do the same at two such cursors

## Main results

* `Rule.Agree.bind`, `Rule.Agree.onNext`, `Rule.Agree.pin` — rules composed of rules that agree
* `Grammar.agree_upTo` — the rules of the grammar agree, whatever their bounds
* `Tree.ofTokens_append_endOfInput` — the end of input is treated alike however it is given
-/

namespace Scriptlet

/-! ### All tokens in view -/

/-- The place before the first of all tokens. Behind the last stands an end of input. -/
def Cursor.inFull (tokens : List Token) : Cursor :=
  let stop := match tokens.getLast? with
    | some t => t.stop
    | none => Position.start ⟨"", ""⟩
  ⟨[], tokens, ⟨.endOfInput, none, stop, stop⟩⟩

/-- A failure as an error about the source, where an end of input may come next as a token. -/
def Failure.toErrorInFull (f : Failure) : ParseError :=
  match f.cause with
  | .missing kind =>
    let next := f.cursor.current
    ⟨kind, if next.kind = .endOfInput then none else some next.lexeme, next.start, next.stop⟩
  | .notAssignment initial => ⟨.expected .letAssignment, none, initial.start, initial.stop⟩

theorem Cursor.left_lt_succ (c : Cursor) : c.left < c.left + 1 := Nat.lt_succ_self _

/-- Reads statements, behind which an end of input has to come next. -/
def Grammar.scriptInFull (c : Cursor) : Except ParseError Tree :=
  match Rule.statements (Grammar.upTo (c.left + 1)).expression c c.left_lt_succ with
  | .error f => .error f.toErrorInFull
  | .ok r =>
    if r.next.current.kind = .endOfInput then .ok r.value
    else .error (Failure.toErrorInFull ⟨.missing .trailingInput, r.next⟩)

/-- The tree of a list of tokens, or the error of syntax in it, with all tokens in view. -/
def Tree.ofTokensInFull (tokens : List Token) : Except ParseError Tree :=
  Grammar.scriptInFull (Cursor.inFull tokens)

/-! ### Cursors -/

/-- Two cursors behind the same tokens. For `c` the tokens end where `rest` is still ahead of `d`.
What comes next there for `d` is an end of input as well, and at the same place. -/
structure Cursor.Ends (rest : List Token) (c d : Cursor) : Prop where
  passed : d.passed = c.passed
  ahead : d.ahead = c.ahead ++ rest
  goesOn : ∀ t ∈ c.ahead, t.kind ≠ .endOfInput
  kind : (rest.headD d.final).kind = .endOfInput
  start : (rest.headD d.final).start = c.final.start
  stop : (rest.headD d.final).stop = c.final.stop

namespace Cursor.Ends

variable {rest : List Token} {c c₁ d d₁ : Cursor} {t : Token}

/-- As many tokens more are ahead of one cursor as it sees behind the end of input. -/
theorem left_eq (h : c.Ends rest d) : d.left = c.left + rest.length := by
  rw [left, h.ahead, List.length_append, left]

/-- A part that reads nothing on one side reads nothing on the other. -/
theorem left_eq_iff (h : c.Ends rest d) (h₁ : c₁.Ends rest d₁) :
    d₁.left = d.left ↔ c₁.left = c.left := by
  rw [h.left_eq, h₁.left_eq, Nat.add_right_cancel_iff]

/-- What is read on one side is read on the other. -/
theorem take? (h : c.Ends rest d) (taken : c.take? = some (t, c₁)) :
    ∃ d₁, d.take? = some (t, d₁) ∧ c₁.Ends rest d₁ := by
  obtain ⟨ahead, passed, final⟩ := take?_eq_some_iff.mp taken
  refine ⟨⟨t :: d.passed, c₁.ahead ++ rest, d.final⟩, ?_, ?_⟩
  · rw [take?_eq_some_iff, h.ahead, ahead]
    exact ⟨rfl, rfl, rfl⟩
  · refine ⟨by rw [passed, h.passed], rfl, fun u mem => h.goesOn u ?_, h.kind, ?_, ?_⟩
    · rw [ahead]
      exact List.mem_cons_of_mem t mem
    · exact final ▸ h.start
    · exact final ▸ h.stop

/-- What comes next on one side comes next on the other, or it is the end of input. -/
theorem head? (h : c.Ends rest d) (head : d.ahead.head? = some t) :
    c.ahead.head? = some t ∨ t.kind = .endOfInput := by
  rw [h.ahead] at head
  cases ahead : c.ahead with
  | cons u others =>
    rw [ahead] at head
    exact .inl head
  | nil =>
    have kind := h.kind
    rw [ahead, List.nil_append] at head
    rw [List.headD_eq_head?_getD, head] at kind
    exact .inr kind

/-- Both cursors are in front of the same token, or in front of ends of input. -/
theorem current (h : c.Ends rest d) :
    (c.ahead = [] ∧ d.current.kind = .endOfInput ∧ d.current.start = c.current.start ∧
      d.current.stop = c.current.stop) ∨
    ∃ t others, c.ahead = t :: others ∧ d.current = t ∧ t.kind ≠ .endOfInput := by
  cases ahead : c.ahead with
  | nil =>
    have here : c.current = c.final := by rw [Cursor.current, ahead]; rfl
    have there : d.current = rest.headD d.final := by rw [Cursor.current, h.ahead, ahead]; rfl
    rw [here, there]
    exact .inl ⟨rfl, h.kind, h.start, h.stop⟩
  | cons t others =>
    have there : d.current = t := by rw [Cursor.current, h.ahead, ahead]; rfl
    exact .inr ⟨t, others, rfl, there, h.goesOn t (ahead ▸ List.mem_cons_self)⟩

/-- What comes next begins at the same place on both sides. -/
theorem current_start (h : c.Ends rest d) : d.current.start = c.current.start := by
  rcases h.current with ⟨-, -, start, -⟩ | ⟨t, others, ahead, there, -⟩
  · exact start
  · rw [there, current_of_ahead ahead]

theorem lastStop (h : c.Ends rest d) : d.lastStop = c.lastStop := by
  unfold Cursor.lastStop
  rw [h.passed]
  split
  · rfl
  · exact h.current_start

/-- The same separators are skipped, as an end of input is none. -/
theorem skipSeparators (h : c.Ends rest d) : c.skipSeparators.Ends rest d.skipSeparators := by
  have reads := c.reads_skipSeparators
  let d₁ : Cursor := ⟨c.skipSeparators.passed, c.skipSeparators.ahead ++ rest, d.final⟩
  have ends : c.skipSeparators.Ends rest d₁ :=
    ⟨rfl, rfl, fun t mem => h.goesOn t ((List.dropWhile_sublist _).subset mem), h.kind, h.start,
      h.stop⟩
  have reads' : d.Reads (c.ahead.takeWhile (·.kind == .separator)) d₁ := by
    refine ⟨?_, by rw [h.passed, ← reads.passed], rfl⟩
    rw [h.ahead, ← List.append_assoc, ← reads.ahead]
  have ended (t : Token) (head : d₁.ahead.head? = some t) : t.kind ≠ .separator := by
    rcases ends.head? head with head | isEnd
    · have not := List.head?_dropWhile_not (·.kind == .separator) c.ahead
      rw [show c.ahead.dropWhile (·.kind == .separator) = c.skipSeparators.ahead from rfl, head]
        at not
      simpa using not
    · rw [isEnd]
      decide
  rwa [skipSeparators_eq reads' c.separators_takeWhile ended]

end Cursor.Ends

/-! ### Rules -/

namespace Rule

variable {rest : List Token} {n k i j size : Nat} {α β : Type} {rule other : Rule n α}
  {rule' other' : Rule k α}

/-- The rules do the same at a cursor with fewer than `size` tokens ahead and at one that still sees
`rest` where the tokens of the first end: they read the same and miss the same. -/
structure Agree (rest : List Token) (size : Nat) (rule : Rule n α) (rule' : Rule k α) : Prop where
  yields {c d a c'} : c.left < size → c.Ends rest d → d.left < k → rule.Yields c a c' →
    ∃ d', rule'.Yields d a d' ∧ c'.Ends rest d'
  fails {c d f} : c.left < size → c.Ends rest d → d.left < k → rule.Fails c f →
    ∃ d', rule'.Fails d ⟨f.cause, d'⟩ ∧ f.cursor.Ends rest d'

namespace Agree

protected theorem pure (a : α) : Agree rest size (pure a : Rule n α) (pure a : Rule k α) where
  yields _ ends room yields := by
    obtain ⟨-, rfl, rfl⟩ := yields_pure.mp yields
    exact ⟨_, yields_pure.mpr ⟨room, rfl, rfl⟩, ends⟩
  fails _ _ _ failed := absurd failed not_fails_pure

/-- Both rules fail where they stand. -/
theorem fail (cause : Failure.Cause) :
    Agree rest size (fail cause : Rule n α) (Rule.fail cause : Rule k α) where
  yields _ _ _ yields := absurd yields not_yields_fail
  fails _ ends room failed := by
    obtain ⟨-, rfl⟩ := fails_fail.mp failed
    exact ⟨_, fails_fail.mpr ⟨room, rfl⟩, ends⟩

theorem missing {kind : ParseError.Kind} :
    Agree rest size (missing kind : Rule n α) (Rule.missing kind : Rule k α) :=
  fail (.missing kind)

theorem here : Agree rest size (here : Rule n Position) (Rule.here : Rule k Position) where
  yields _ ends room yields := by
    obtain ⟨-, rfl, rfl⟩ := yields_here.mp yields
    exact ⟨_, yields_here.mpr ⟨room, ends.current_start.symm, rfl⟩, ends⟩
  fails _ _ _ failed := absurd failed not_fails_here

theorem lastStop :
    Agree rest size (lastStop : Rule n Position) (Rule.lastStop : Rule k Position) where
  yields _ ends room yields := by
    obtain ⟨-, rfl, rfl⟩ := yields_lastStop.mp yields
    exact ⟨_, yields_lastStop.mpr ⟨room, ends.lastStop.symm, rfl⟩, ends⟩
  fails _ _ _ failed := absurd failed not_fails_lastStop

theorem skipSeparators :
    Agree rest size (skipSeparators : Rule n Unit) (Rule.skipSeparators : Rule k Unit) where
  yields _ ends room yields := by
    obtain ⟨-, rfl⟩ := yields_skipSeparators.mp yields
    exact ⟨_, yields_skipSeparators.mpr ⟨room, rfl⟩, ends.skipSeparators⟩
  fails _ _ _ failed := absurd failed not_fails_skipSeparators

protected theorem bind {next : α → Rule n β} {next' : α → Rule k β}
    (first : Agree rest size rule rule') (second : ∀ a, Agree rest size (next a) (next' a)) :
    Agree rest size (rule >>= next) (rule' >>= next') where
  yields lt ends room yields := by
    obtain ⟨a, c₁, read, further⟩ := yields_bind.mp yields
    obtain ⟨d₁, read', ends₁⟩ := first.yields lt ends room read
    obtain ⟨d', further', ends'⟩ := (second a).yields (Nat.lt_of_le_of_lt read.left_le lt) ends₁
      (Nat.lt_of_le_of_lt read'.left_le room) further
    exact ⟨d', yields_bind.mpr ⟨a, d₁, read', further'⟩, ends'⟩
  fails lt ends room failed := by
    rcases fails_bind.mp failed with failed | ⟨a, c₁, read, failed⟩
    · obtain ⟨d', failed', ends'⟩ := first.fails lt ends room failed
      exact ⟨d', fails_bind.mpr (.inl failed'), ends'⟩
    · obtain ⟨d₁, read', ends₁⟩ := first.yields lt ends room read
      obtain ⟨d', failed', ends'⟩ := (second a).fails (Nat.lt_of_le_of_lt read.left_le lt) ends₁
        (Nat.lt_of_le_of_lt read'.left_le room) failed
      exact ⟨d', fails_bind.mpr (.inr ⟨a, d₁, read', failed'⟩), ends'⟩

/-- Rules that decide by the next token agree if they do so for each token, and if an end of input
that comes next is not read. -/
theorem onNext (room : n ≤ i + 1) (room' : k ≤ j + 1) {choose : Token → Option (Rule i α)}
    {choose' : Token → Option (Rule j α)}
    (chosen : ∀ {size'}, size' < size → ∀ t, Option.Rel (Agree rest size') (choose t) (choose' t))
    (ended : ∀ t, t.kind = .endOfInput → choose' t = none) (others : Agree rest size other other') :
    Agree rest size (onNext room choose other) (Rule.onNext room' choose' other') := by
  -- what is chosen on one side is chosen on the other
  have chooses {c : Cursor} {t : Token} {rule : Rule i α} (lt : c.left < size)
      (eq : choose t = some rule) :
      ∃ rule', choose' t = some rule' ∧ Agree rest c.left rule rule' := by
    have related := chosen lt t
    rw [eq] at related
    generalize choose' t = chosen' at related
    cases related with
    | some agree => exact ⟨_, rfl, agree⟩
  -- and nothing more, as only an end of input comes next for the other where the tokens end
  have choosesNone {c d : Cursor} (lt : c.left < size) (ends : c.Ends rest d)
      (none : ∀ t, c.ahead.head? = some t → choose t = none) (t : Token)
      (head : d.ahead.head? = some t) : choose' t = Option.none := by
    rcases ends.head? head with head | isEnd
    · have related := chosen lt t
      rw [none t head] at related
      generalize choose' t = chosen' at related
      cases related
      rfl
    · exact ended t isEnd
  constructor
  case yields =>
    intro c d a c' lt ends isRoom yields
    rcases yields_onNext.mp yields with ⟨-, t, c₁, rule, taken, eq, yields⟩ | ⟨none, yields⟩
    · obtain ⟨rule', eq', agree⟩ := chooses lt eq
      obtain ⟨d₁, taken', ends₁⟩ := ends.take? taken
      have shorter := Cursor.left_lt_of_take? taken'
      obtain ⟨d', yields', ends'⟩ :=
        agree.yields (Cursor.left_lt_of_take? taken) ends₁ (by omega) yields
      exact ⟨d', yields_onNext.mpr (.inl ⟨isRoom, t, d₁, rule', taken', eq', yields'⟩), ends'⟩
    · obtain ⟨d', yields', ends'⟩ := others.yields lt ends isRoom yields
      exact ⟨d', yields_onNext.mpr (.inr ⟨choosesNone lt ends none, yields'⟩), ends'⟩
  case fails =>
    intro c d f lt ends isRoom failed
    rcases fails_onNext.mp failed with ⟨-, t, c₁, rule, taken, eq, failed⟩ | ⟨none, failed⟩
    · obtain ⟨rule', eq', agree⟩ := chooses lt eq
      obtain ⟨d₁, taken', ends₁⟩ := ends.take? taken
      have shorter := Cursor.left_lt_of_take? taken'
      obtain ⟨d', failed', ends'⟩ :=
        agree.fails (Cursor.left_lt_of_take? taken) ends₁ (by omega) failed
      exact ⟨d', fails_onNext.mpr (.inl ⟨isRoom, t, d₁, rule', taken', eq', failed'⟩), ends'⟩
    · obtain ⟨d', failed', ends'⟩ := others.fails lt ends isRoom failed
      exact ⟨d', fails_onNext.mpr (.inr ⟨choosesNone lt ends none, failed'⟩), ends'⟩

theorem onNextIf (room : n ≤ i + 1) (room' : k ≤ j + 1) {asked : Token → Bool}
    {after : Token → Rule i α} {after' : Token → Rule j α}
    (ended : ∀ t, t.kind = .endOfInput → asked t = false)
    (behind : ∀ {size'}, size' < size → ∀ t, Agree rest size' (after t) (after' t))
    (others : Agree rest size other other') :
    Agree rest size (Rule.onNext room (fun t => if asked t then some (after t) else none) other)
      (Rule.onNext room' (fun t => if asked t then some (after' t) else none) other') := by
  refine onNext room room' (fun smaller t => ?_) (fun t isEnd => by simp [ended t isEnd]) others
  split
  · exact .some (behind smaller t)
  · exact .none

theorem ifNext {asked : Token → Bool} {after : Token → Rule n α} {after' : Token → Rule k α}
    (ended : ∀ t, t.kind = .endOfInput → asked t = false)
    (behind : ∀ {size'}, size' < size → ∀ t, Agree rest size' (after t) (after' t))
    (others : Agree rest size other other') :
    Agree rest size (ifNext asked after other) (Rule.ifNext asked after' other') :=
  onNextIf (Nat.le_succ n) (Nat.le_succ k) ended behind others

theorem within {asked : Token → Bool} {after : Token → Rule n α} {after' : Token → Rule k α}
    {other : Rule (n + 1) α} {other' : Rule (k + 1) α}
    (ended : ∀ t, t.kind = .endOfInput → asked t = false)
    (behind : ∀ {size'}, size' < size → ∀ t, Agree rest size' (after t) (after' t))
    (others : Agree rest size other other') :
    Agree rest size (within asked after other) (Rule.within asked after' other') :=
  onNextIf (Nat.le_refl _) (Nat.le_refl _) ended behind others

/-- A token is expected alike as long as it is no end of input. -/
theorem expect {kind : Token.Kind} {what : Expectation} (ordinary : kind ≠ .endOfInput) :
    Agree rest size (expect kind what : Rule n Token) (Rule.expect kind what : Rule k Token) :=
  ifNext (fun _ isEnd => by simpa [isEnd] using ordinary.symm) (fun _ _ => .pure _) missing

/-- A failure at once on one side is one at once on the other. -/
theorem pin {kind : ParseError.Kind} (agree : Agree rest size rule rule') :
    Agree rest size (pin kind rule) (Rule.pin kind rule') where
  yields lt ends room yields := by
    obtain ⟨d', yields', ends'⟩ := agree.yields lt ends room (yields_pin.mp yields)
    exact ⟨d', yields_pin.mpr yields', ends'⟩
  fails {c d f} lt ends room failed := by
    obtain ⟨f₁, inside, rfl⟩ := fails_pin.mp failed
    obtain ⟨d', failed', ends'⟩ := agree.fails lt ends room inside
    by_cases atOnce : f₁.cursor.left = c.left
    · have atOnce' := (ends.left_eq_iff ends').mpr atOnce
      refine ⟨d, fails_pin.mpr ⟨_, failed', ?_⟩, ?_⟩
      · rw [if_pos atOnce, if_pos atOnce']
      · rwa [if_pos atOnce]
    · have further := mt (ends.left_eq_iff ends').mp atOnce
      refine ⟨d', fails_pin.mpr ⟨_, failed', ?_⟩, ?_⟩
      · rw [if_neg atOnce, if_neg further]
      · rwa [if_neg atOnce]

/-! ### Loops

In each round a token is read, so that the induction is on the tokens ahead. -/

theorem binaryChainFrom {isOperator : Token.Kind → Bool} {operand : Rule n Tree}
    {operand' : Rule k Tree} (ended : isOperator .endOfInput = false)
    (operands : ∀ {size}, Agree rest size operand operand') (left : Tree) :
    Agree rest size (binaryChainFrom isOperator operand left)
      (Rule.binaryChainFrom isOperator operand' left) := by
  induction size using Nat.strongRecOn generalizing left with
  | ind size ih =>
    rw [binaryChainFrom_eq isOperator operand, binaryChainFrom_eq isOperator operand']
    exact ifNext (fun t isEnd => by rw [isEnd, ended])
      (fun smaller t => operands.bind fun right => ih _ smaller _) (.pure left)

theorem binaryChain {isOperator : Token.Kind → Bool} {operand : Rule n Tree}
    {operand' : Rule k Tree} (ended : isOperator .endOfInput = false)
    (operands : ∀ {size}, Agree rest size operand operand') :
    Agree rest size (binaryChain isOperator operand) (Rule.binaryChain isOperator operand') :=
  operands.bind fun left => binaryChainFrom ended operands left

theorem afterCommas (items : ∀ {size}, Agree rest size rule rule') :
    Agree rest size (afterCommas rule) (Rule.afterCommas rule') := by
  induction size using Nat.strongRecOn with
  | ind size ih =>
    rw [afterCommas_eq rule, afterCommas_eq rule']
    exact ifNext (fun t isEnd => by rw [isEnd]; rfl)
      (fun smaller t => items.bind fun a => (ih _ smaller).bind fun others => .pure (a :: others))
      (.pure [])

section Statements

variable {statement : Rule n Tree} {statement' : Rule k Tree}

/-- Statements are read on both sides until no separator is skipped or none begins. -/
theorem furtherStatements (agree : ∀ {size}, Agree rest size statement statement') :
    Agree rest size (furtherStatements statement) (Rule.furtherStatements statement') := by
  have skips {c d : Cursor} (ends : c.Ends rest d) :
      c.skipSeparators.left < c.left ↔ d.skipSeparators.left < d.left := by
    rw [ends.left_eq, ends.skipSeparators.left_eq, Nat.add_lt_add_iff_right]
  -- a round in which no separator is skipped is the last
  induction size using Nat.strongRecOn with
  | ind size ih =>
  constructor
  case yields =>
    intro c d trees c' lt ends room yields
    have ltSkip := Nat.lt_of_le_of_lt c.left_skipSeparators_le lt
    have roomSkip := Nat.lt_of_le_of_lt d.left_skipSeparators_le room
    rcases yields_furtherStatements.mp yields with
      ⟨shorter, -, tree, c₁, others, rfl, read, further⟩ | ⟨shorter, -, refuses, rfl, rfl⟩ |
      ⟨same, -, rfl, rfl⟩
    · obtain ⟨d₁, read', ends₁⟩ := agree.yields ltSkip ends.skipSeparators roomSkip read
      obtain ⟨d', further', ends'⟩ := (ih _ lt).yields (Nat.lt_of_le_of_lt read.left_le shorter)
        ends₁ (Nat.lt_of_le_of_lt read'.left_le roomSkip) further
      exact ⟨d', yields_furtherStatements.mpr (.inl
        ⟨(skips ends).mp shorter, room, tree, d₁, others, rfl, read', further'⟩), ends'⟩
    · obtain ⟨f, failed, atOnce⟩ := refuses_iff.mp refuses
      obtain ⟨d', failed', ends'⟩ := agree.fails ltSkip ends.skipSeparators roomSkip failed
      have refuses' := refuses_iff.mpr
        ⟨_, failed', (ends.skipSeparators.left_eq_iff ends').mpr atOnce⟩
      exact ⟨_, yields_furtherStatements.mpr (.inr (.inl
        ⟨(skips ends).mp shorter, room, refuses', rfl, rfl⟩)), ends.skipSeparators⟩
    · exact ⟨d, yields_furtherStatements.mpr (.inr (.inr
        ⟨mt (skips ends).mpr same, room, rfl, rfl⟩)), ends⟩
  case fails =>
    intro c d f lt ends room failed
    have ltSkip := Nat.lt_of_le_of_lt c.left_skipSeparators_le lt
    have roomSkip := Nat.lt_of_le_of_lt d.left_skipSeparators_le room
    obtain ⟨shorter, -, ⟨failed, further⟩ | ⟨tree, c₁, read, failed⟩⟩ :=
      fails_furtherStatements.mp failed
    · obtain ⟨d', failed', ends'⟩ := agree.fails ltSkip ends.skipSeparators roomSkip failed
      have further' := mt (ends.skipSeparators.left_eq_iff ends').mp further
      exact ⟨d', fails_furtherStatements.mpr
        ⟨(skips ends).mp shorter, room, .inl ⟨failed', further'⟩⟩, ends'⟩
    · obtain ⟨d₁, read', ends₁⟩ := agree.yields ltSkip ends.skipSeparators roomSkip read
      obtain ⟨d', failed', ends'⟩ := (ih _ lt).fails (Nat.lt_of_le_of_lt read.left_le shorter)
        ends₁ (Nat.lt_of_le_of_lt read'.left_le roomSkip) failed
      exact ⟨d', fails_furtherStatements.mpr
        ⟨(skips ends).mp shorter, room, .inr ⟨tree, d₁, read', failed'⟩⟩, ends'⟩

/-- Statements agree if each of them does. -/
theorem statements (agree : ∀ {size}, Agree rest size statement statement') :
    Agree rest size (statements statement) (Rule.statements statement') :=
  here.bind fun _ => skipSeparators.bind fun _ => agree.bind fun _ =>
    (furtherStatements agree).bind fun _ => lastStop.bind fun _ => .pure _

end Statements

end Agree

end Rule

/-! ### The grammar -/

namespace Grammar

open Rule

variable {rest : List Token} {n k size : Nat} {α : Type}

/-- The rules of two grammars do the same whether the tokens end or an end of input comes next. -/
structure Agree (rest : List Token) (g : Grammar n) (g' : Grammar k) : Prop where
  expression : ∀ {size}, Rule.Agree rest size g.expression g'.expression
  comparison : ∀ {size}, Rule.Agree rest size g.comparison g'.comparison
  arithmetic : ∀ {size}, Rule.Agree rest size g.arithmetic g'.arithmetic
  factor : ∀ {size}, Rule.Agree rest size g.factor g'.factor

variable {g : Grammar n} {g' : Grammar k}

/-- An end of input is no word. -/
theorem isKeyword_endOfInput {t : Token} (isEnd : t.kind = .endOfInput) (word : Keyword) :
    t.isKeyword word = false := by
  simp [Token.isKeyword, Token.keyword?, isEnd]

theorem agree_parenthesised {inside : Rule n α} {inside' : Rule k α}
    (agree : ∀ {size}, Rule.Agree rest size inside inside') :
    Rule.Agree rest size (parenthesised inside) (parenthesised inside') :=
  (Rule.Agree.expect (by decide)).bind fun _ => agree.bind fun _ =>
    (Rule.Agree.expect (by decide)).bind fun _ => .pure _

theorem Agree.block (agree : g.Agree rest g') : Rule.Agree rest size g.block g'.block :=
  (Rule.Agree.expect (by decide)).bind fun _ =>
    (Rule.Agree.statements agree.expression).bind fun _ =>
    (Rule.Agree.expect (by decide)).bind fun _ => .pure _

theorem Agree.arguments (agree : g.Agree rest g') :
    Rule.Agree rest size g.arguments g'.arguments :=
  .ifNext (fun _ isEnd => by simp [isEnd]) (fun _ _ => .pure _)
    (agree.expression.pin.bind fun _ => (Rule.Agree.afterCommas agree.expression).bind fun _ =>
      (Rule.Agree.expect (by decide)).bind fun _ => .pure _)

theorem agree_parameters :
    Rule.Agree rest size (parameters : Rule n (List Token)) (parameters : Rule k (List Token)) :=
  .ifNext (fun _ isEnd => by simp [isEnd])
    (fun _ _ => (Rule.Agree.afterCommas (Rule.Agree.expect (by decide))).bind fun _ =>
      (Rule.Agree.expect (by decide)).bind fun _ => .pure _)
    ((Rule.Agree.expect (by decide)).bind fun _ => .pure _)

section Compound

variable (start : Position)

theorem Agree.conditional (agree : g.Agree rest g') :
    Rule.Agree rest size (g.conditional start) (g'.conditional start) := by
  refine (agree_parenthesised agree.expression).bind fun _ => agree.block.bind fun ⟨_, _⟩ => ?_
  refine Rule.Agree.bind ?_ fun ⟨_, _⟩ => .pure _
  exact .ifNext (fun _ isEnd => isKeyword_endOfInput isEnd _)
    (fun _ _ => agree.block.bind fun ⟨_, _⟩ => .pure _) (.pure _)

theorem Agree.afterInitial (agree : g.Agree rest g') (initial : Tree) :
    Rule.Agree rest size (g.afterInitial start initial) (g'.afterInitial start initial) := by
  cases initial with
  | assignment letStart name value =>
    exact (Rule.Agree.expect (by decide)).bind fun _ => agree.comparison.bind fun _ =>
      (Rule.Agree.expect (by decide)).bind fun _ => agree.arithmetic.bind fun _ =>
      (Rule.Agree.expect (by decide)).bind fun _ => agree.block.bind fun ⟨_, _⟩ => .pure _
  | _ => exact .fail _

theorem Agree.forLoop (agree : g.Agree rest g') :
    Rule.Agree rest size (g.forLoop start) (g'.forLoop start) := by
  rw [forLoop_eq, forLoop_eq]
  exact (Rule.Agree.expect (by decide)).bind fun _ => agree.expression.bind fun initial =>
    agree.afterInitial start initial

theorem Agree.whileLoop (agree : g.Agree rest g') :
    Rule.Agree rest size (g.whileLoop start) (g'.whileLoop start) :=
  (agree_parenthesised agree.expression).bind fun _ => agree.block.bind fun ⟨_, _⟩ => .pure _

theorem Agree.function (agree : g.Agree rest g') :
    Rule.Agree rest size (g.function start) (g'.function start) :=
  (Rule.Agree.expect (by decide)).bind fun _ => (Rule.Agree.expect (by decide)).bind fun _ =>
    agree_parameters.bind fun _ => agree.block.bind fun ⟨_, _⟩ => .pure _

theorem Agree.afterWord? (agree : g.Agree rest g') (word : Keyword) :
    Option.Rel (Rule.Agree rest size) (g.afterWord? start word) (g'.afterWord? start word) := by
  cases word with
  | ifWord => exact .some (agree.conditional start)
  | forWord => exact .some (agree.forLoop start)
  | whileWord => exact .some (agree.whileLoop start)
  | funcWord => exact .some (agree.function start)
  | letWord => exact .none
  | elseWord => exact .none

end Compound

theorem Agree.afterFirst? (agree : g.Agree rest g') (t : Token) :
    Option.Rel (Rule.Agree rest size) (g.afterFirst? t) (g'.afterFirst? t) := by
  unfold Grammar.afterFirst?
  split
  · exact .some (.pure _)
  · exact .some (.pure _)
  · exact .some (.pure _)
  · exact .some (.pure _)
  · exact .some (agree.expression.bind fun _ =>
      (Rule.Agree.expect (by decide)).bind fun _ => .pure _)
  · cases t.keyword? with
    | none => exact .none
    | some word => exact agree.afterWord? t.start word
  · exact .none

theorem Agree.atom (agree : g.Agree rest g') : Rule.Agree rest size g.atom g'.atom :=
  .onNext (Nat.le_refl _) (Nat.le_refl _) (fun _ t => agree.afterFirst? t)
    (fun _ isEnd => by simp [Grammar.afterFirst?, isEnd]) .missing

theorem Agree.call (agree : g.Agree rest g') : Rule.Agree rest size g.call g'.call :=
  agree.atom.bind fun _ => .within (fun _ isEnd => by simp [isEnd])
    (fun _ _ => agree.arguments.bind fun ⟨_, _⟩ => .pure _) (.pure _)

theorem agree_underOperator {isOperator : Token.Kind → Bool} {operand : Rule n Tree}
    {operand' : Rule k Tree} {bare : Rule (n + 1) Tree} {bare' : Rule (k + 1) Tree}
    (ended : isOperator .endOfInput = false)
    (operands : ∀ {size}, Rule.Agree rest size operand operand')
    (bares : Rule.Agree rest size bare bare') :
    Rule.Agree rest size (underOperator isOperator operand bare)
      (underOperator isOperator operand' bare') :=
  .within (fun _ isEnd => by rw [isEnd, ended]) (fun _ _ => operands.bind fun _ => .pure _) bares

theorem Agree.assignmentOr (agree : g.Agree rest g') {other : Rule (n + 1) Tree}
    {other' : Rule (k + 1) Tree} (others : Rule.Agree rest size other other') :
    Rule.Agree rest size (g.assignmentOr other) (g'.assignmentOr other') :=
  .within (fun _ isEnd => isKeyword_endOfInput isEnd _)
    (fun _ _ => (Rule.Agree.expect (by decide)).bind fun _ =>
      (Rule.Agree.expect (by decide)).bind fun _ => agree.expression.bind fun _ => .pure _)
    others

/-- Grammars for one token more agree if those for nested parts do. -/
theorem Agree.next (agree : g.Agree rest g') : g.next.Agree rest g'.next := by
  have factor {size} : Rule.Agree rest size g.next.factor g'.next.factor :=
    agree_underOperator rfl agree.factor agree.call
  have arithmetic {size} : Rule.Agree rest size g.next.arithmetic g'.next.arithmetic :=
    .binaryChain rfl (.binaryChain rfl factor)
  have comparison {size} : Rule.Agree rest size g.next.comparison g'.next.comparison := by
    rw [next_comparison, next_comparison]
    exact agree_underOperator rfl agree.comparison (.pin (.binaryChain rfl arithmetic))
  exact ⟨agree.assignmentOr (.pin (.binaryChain rfl comparison)), comparison, arithmetic, factor⟩

/-- The rules of the grammar agree, whatever their bounds. -/
theorem agree_upTo (n k : Nat) : (upTo n).Agree rest (upTo k) := by
  induction n generalizing k with
  | zero =>
    have never {size} {rule : Rule 0 Tree} {rule' : Rule k Tree} :
        Rule.Agree rest size rule rule' :=
      ⟨fun _ _ _ yields => absurd yields.lt (Nat.not_lt_zero _),
        fun _ _ _ failed => absurd failed.lt (Nat.not_lt_zero _)⟩
    exact ⟨never, never, never, never⟩
  | succ n ih =>
    cases k with
    | zero =>
      have never {size} {rule : Rule (n + 1) Tree} {rule' : Rule 0 Tree} :
          Rule.Agree rest size rule rule' :=
        ⟨fun _ _ room => absurd room (Nat.not_lt_zero _),
          fun _ _ room => absurd room (Nat.not_lt_zero _)⟩
      exact ⟨never, never, never, never⟩
    | succ k => exact (ih k).next

/-- What is missed at both cursors is reported in the same way. -/
theorem toErrorInFull_eq {c d : Cursor} (ends : c.Ends rest d) (cause : Failure.Cause) :
    Failure.toErrorInFull ⟨cause, d⟩ = Failure.toError ⟨cause, c⟩ := by
  cases cause with
  | notAssignment initial => rfl
  | missing kind =>
    rcases ends.current with ⟨ahead, isEnd, start, stop⟩ | ⟨t, others, ahead, there, ordinary⟩
    · simp only [Failure.toErrorInFull, Failure.toError, ahead, isEnd, start, stop, if_true,
        List.head?_nil, Option.map_none]
    · simp only [Failure.toErrorInFull, Failure.toError, Cursor.current_of_ahead ahead, ahead,
        there, if_neg ordinary, List.head?_cons, Option.map_some]

/-- A script is the same where its tokens end and where an end of input comes next. -/
theorem scriptInFull_eq {c d : Cursor} (ends : c.Ends rest d) :
    scriptInFull d = (script c).mapError Failure.toError := by
  -- the bounds differ, but each leaves room for the tokens ahead of its cursor
  have rules : Rule.Agree rest (c.left + 1) (statements (upTo (c.left + 1)).expression)
      (statements (upTo (d.left + 1)).expression) :=
    .statements (agree_upTo _ _).expression
  have lt := c.left_lt_succ
  have room := d.left_lt_succ
  cases read : statements (upTo (c.left + 1)).expression c lt with
  | error f =>
    obtain ⟨d', ⟨_, failed⟩, ends'⟩ := rules.fails lt ends room ⟨lt, read⟩
    have failed' : script c = .error f := script_eq_error_iff.mpr (.inl ⟨lt, read⟩)
    rw [scriptInFull, failed, failed']
    exact congrArg Except.error (toErrorInFull_eq ends' f.cause)
  | ok r =>
    obtain ⟨d', ⟨_, le, ok⟩, ends'⟩ := rules.yields lt ends room ⟨lt, r.left_le, read⟩
    rw [scriptInFull, ok, script, read]
    rcases ends'.current with ⟨ahead, isEnd, -⟩ | ⟨t, others, ahead, next, ordinary⟩
    · simp only [ahead, isEnd, if_true, List.isEmpty_nil]
      rfl
    · -- something is left over on both sides
      have leftOver := toErrorInFull_eq ends' (.missing .trailingInput)
      simp only [next, if_neg ordinary, ahead, List.isEmpty_cons, leftOver]
      rfl

end Grammar

/-! ### Lists of tokens -/

namespace Cursor

variable {tokens rest : List Token} {last final : Token}

/-- Tokens behind an end of input are put aside. -/
theorem ofTokens_append (ordinary : ∀ t ∈ tokens, t.kind ≠ .endOfInput)
    (isEnd : final.kind = .endOfInput) (rest : List Token) :
    ofTokens (tokens ++ final :: rest) = ⟨[], tokens, final⟩ := by
  have words : ∀ t ∈ tokens, (t.kind != .endOfInput) := by simpa using ordinary
  rw [ofTokens, List.takeWhile_append_of_pos words, List.dropWhile_append_of_pos words]
  simp [isEnd]

/-- Nothing is put aside that is not behind an end of input. -/
theorem ends_inFull (tokens : List Token) :
    (ofTokens tokens).Ends (tokens.dropWhile (·.kind != .endOfInput)) (inFull tokens) where
  passed := rfl
  ahead := List.takeWhile_append_dropWhile.symm
  goesOn t mem := by simpa using List.mem_takeWhile_imp mem
  kind := kind_final_ofTokens tokens
  start := rfl
  stop := rfl

/-- Without an end of input the tokens end where the last of them does. -/
theorem ends_append (ordinary : ∀ t ∈ tokens, t.kind ≠ .endOfInput)
    (isLast : tokens.getLast? = some last) (isEnd : final.kind = .endOfInput)
    (start : final.start = last.stop) (stop : final.stop = last.stop) :
    (ofTokens tokens).Ends [] (ofTokens (tokens ++ [final])) := by
  have words : ∀ t ∈ tokens, (t.kind != .endOfInput) := by simpa using ordinary
  have whole : ofTokens tokens = ⟨[], tokens, ⟨.endOfInput, none, last.stop, last.stop⟩⟩ := by
    rw [ofTokens, List.takeWhile_eq_self_iff.mpr words, List.dropWhile_eq_nil_iff.mpr words, isLast]
    rfl
  rw [whole, ofTokens_append ordinary isEnd]
  exact ⟨rfl, (List.append_nil tokens).symm, ordinary, isEnd, start, stop⟩

end Cursor

/-- The end of input is treated alike however it is given. It makes no difference whether the tokens
behind the first end of input are in view, whether there are any, and whether the end of input is in
the list or where the last token ends. -/
theorem Tree.ofTokens_append_endOfInput :
    (∀ tokens, Tree.ofTokens tokens = Tree.ofTokensInFull tokens) ∧
    (∀ (tokens rest : List Token) (final : Token), final.kind = .endOfInput →
      Tree.ofTokens (tokens ++ final :: rest) = Tree.ofTokens (tokens ++ [final])) ∧
    ∀ (tokens : List Token) (last final : Token), (∀ t ∈ tokens, t.kind ≠ .endOfInput) →
      tokens.getLast? = some last → final.kind = .endOfInput → final.start = last.stop →
      final.stop = last.stop → Tree.ofTokens tokens = Tree.ofTokens (tokens ++ [final]) := by
  have inFull (tokens : List Token) : Tree.ofTokens tokens = Tree.ofTokensInFull tokens :=
    (Grammar.scriptInFull_eq (Cursor.ends_inFull tokens)).symm
  refine ⟨inFull, fun tokens rest final isEnd => ?_, fun tokens last final ordinary isLast isEnd
    start stop => ?_⟩
  · -- the first end of input is this one, or one in front of it
    have ordinary : ∀ t ∈ tokens.takeWhile (·.kind != .endOfInput), t.kind ≠ .endOfInput :=
      fun t mem => by simpa using List.mem_takeWhile_imp mem
    have first := List.head?_dropWhile_not (·.kind != .endOfInput) tokens
    have cursors : Cursor.ofTokens (tokens ++ final :: rest) =
        Cursor.ofTokens (tokens ++ [final]) := by
      rw [← List.takeWhile_append_dropWhile (p := (·.kind != .endOfInput)) (l := tokens),
        List.append_assoc, List.append_assoc]
      cases behind : tokens.dropWhile (·.kind != .endOfInput) with
      | nil =>
        rw [List.nil_append, List.nil_append, Cursor.ofTokens_append ordinary isEnd,
          Cursor.ofTokens_append ordinary isEnd]
      | cons earlier others =>
        rw [behind] at first
        have isEnd' : earlier.kind = .endOfInput := by simpa using first
        rw [List.cons_append, List.cons_append, Cursor.ofTokens_append ordinary isEnd',
          Cursor.ofTokens_append ordinary isEnd']
    rw [Tree.ofTokens, Tree.ofTokens, cursors]
  · have ends := Cursor.ends_append ordinary isLast isEnd start stop
    -- nothing stands behind the end of input in the list that has it
    have self : (Cursor.ofTokens (tokens ++ [final])).Ends []
        (Cursor.ofTokens (tokens ++ [final])) := by
      rw [Cursor.ofTokens_append ordinary isEnd]
      exact ⟨rfl, (List.append_nil tokens).symm, ordinary, isEnd, rfl, rfl⟩
    rw [Tree.ofTokens, Tree.ofTokens, ← Grammar.scriptInFull_eq ends, Grammar.scriptInFull_eq self]

/-- A call whose bracket stands behind an end of input has none. -/
theorem Tree.ofTokens_append_endOfInput_call :
    let s : Source := ⟨"", "f()"⟩
    let stop : Position := ⟨s, 2, 1, 3⟩
    let final : Token := ⟨.endOfInput, none, stop, stop⟩
    let tokens := (s.tokens.toOption.getD []).take 2
    let rest := (s.tokens.toOption.getD []).drop 2
    (Tree.ofTokens (tokens ++ rest)).toOption.isSome ∧
      Tree.ofTokens (tokens ++ final :: rest) = Tree.ofTokens (tokens ++ [final]) ∧
      Tree.ofTokens tokens = Tree.ofTokens (tokens ++ [final]) ∧
      (Tree.ofTokens tokens).map (fun _ => ()) = .error ⟨.expectedArgument, none, stop, stop⟩ := by
  intro s stop final tokens rest
  obtain ⟨-, behind, missing⟩ := Tree.ofTokens_append_endOfInput
  let last : Token := ⟨.leftParen, none, ⟨s, 1, 1, 2⟩, stop⟩
  exact ⟨by decide +kernel, behind tokens rest final rfl, missing tokens last final
    (by decide +kernel) (by decide +kernel) rfl rfl rfl, by decide +kernel⟩

end Scriptlet
