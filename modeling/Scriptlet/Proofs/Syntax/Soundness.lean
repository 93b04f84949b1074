import Scriptlet.Proofs.Syntax.Reading

/-!
# What is read is spelled

Every tree that a rule of the grammar reads is spelled by the tokens that the rule read.
Rules for scripts of fewer than `n` tokens are handled by induction on `n`: what one token
more allows is built from rules that are sound already.

## Main definitions

* `Rule.Sound`, `Grammar.Sound` — a rule reads only phrases of its sort

## Main results

* `Grammar.Sound.next` — one token more keeps rules sound
* `Grammar.sound_upTo` — the rules for any number of tokens are sound
-/

namespace Scriptlet

/-- A word that a token begins and a part with a known end closes. -/
theorem Spans.of_append {t : Token} {u v : List Token} {stop : Position}
    (h : v.getLast?.map Token.stop = some stop) : Spans (t :: u ++ v) t.start stop := by
  refine ⟨rfl, ?_⟩
  obtain ⟨z, last, rfl⟩ := Option.map_eq_some_iff.mp h
  rw [List.getLast?_append, last]
  rfl

/-- The places that a rule takes from its cursors are those that the tokens read reach between. -/
theorem Cursor.Reads.spans {c c' : Cursor} {w : List Token} (h : c.Reads w c') (ne : w ≠ []) :
    Spans w c.current.start c'.lastStop := by
  constructor
  · obtain ⟨t, v, rfl⟩ := List.exists_cons_of_ne_nil ne
    rw [current_of_ahead h.ahead]
    rfl
  · have reads : c.Reads (w.dropLast ++ [w.getLast ne]) c' := by
      rwa [List.dropLast_concat_getLast ne]
    rw [reads.lastStop_eq, List.getLast?_eq_some_getLast ne]
    rfl

theorem Cursor.separators_takeWhile (c : Cursor) :
    Separators (c.ahead.takeWhile (·.kind == .separator)) := by
  intro t mem
  have all := List.all_takeWhile (l := c.ahead) (p := (·.kind == .separator))
  exact beq_iff_eq.mp (List.all_eq_true.mp all t mem)

namespace Rule

variable {n : Nat}

/-- What the rule reads is a phrase of this sort. -/
def Sound (rule : Rule n Tree) (p : Phrase) : Prop :=
  ∀ ⦃c tree c'⦄, rule.Yields c tree c' → ∃ w, c.Reads w c' ∧ Spells p w tree

/-- A rule that is sound for one sort is sound for any other that these phrases belong to. -/
theorem Sound.mono {rule : Rule n Tree} {p q : Phrase} (sound : rule.Sound p)
    (spells : ∀ {w tree}, Spells p w tree → Spells q w tree) : rule.Sound q := by
  intro c tree c' yields
  obtain ⟨w, reads, spelled⟩ := sound yields
  exact ⟨w, reads, spells spelled⟩

theorem Sound.pin {rule : Rule n Tree} {p : Phrase} {kind : ParseError.Kind}
    (sound : rule.Sound p) : (pin kind rule).Sound p :=
  fun _ _ _ yields => sound (yields_pin.mp yields)

/-! ### Joined operands -/

section Chain

variable {isOperator : Token.Kind → Bool} {operand : Rule n Tree} {level : Level}

/-- A chain extends the operands joined so far. -/
theorem Sound.binaryChainFrom (sound : operand.Sound level.operand)
    (isOperator_iff : ∀ k, isOperator k ↔ k ∈ level.operators) {c₀ c c' : Cursor}
    {w : List Token} {left tree : Tree} (reads : c₀.Reads w c)
    (spells : Spells (.joined level) w left)
    (yields : (binaryChainFrom isOperator operand left).Yields c tree c') :
    ∃ v, c₀.Reads v c' ∧ Spells (.joined level) v tree := by
  -- each round reads an operator at least, so that the induction is on the tokens ahead
  induction size : c.left using Nat.strongRecOn generalizing c w left with
  | ind size' ih =>
    rw [binaryChainFrom_eq, yields_ifNext] at yields
    rcases yields with ⟨_, t, c₁, taken, operator, further⟩ | ⟨_, ended⟩
    · obtain ⟨right, c₂, yieldsRight, further⟩ := yields_bind.mp further
      obtain ⟨v, readsRight, spellsRight⟩ := sound yieldsRight
      have shorter : c₂.left < c.left :=
        Nat.lt_of_le_of_lt readsRight.left_le (Cursor.left_lt_of_take? taken)
      exact ih c₂.left (size ▸ shorter)
        (reads.trans (readsRight.behind taken))
        (.join spells ((isOperator_iff _).mp operator) spellsRight) further rfl
    · obtain ⟨-, rfl, rfl⟩ := yields_pure.mp ended
      exact ⟨w, reads, spells⟩

/-- A chain of operands of one level reads them joined by operators of that level. -/
theorem Sound.binaryChain (sound : operand.Sound level.operand)
    (isOperator_iff : ∀ k, isOperator k ↔ k ∈ level.operators) :
    (binaryChain isOperator operand).Sound (.joined level) := by
  intro c tree c' yields
  obtain ⟨first, c₁, yieldsFirst, further⟩ := yields_bind.mp yields
  obtain ⟨w, reads, spells⟩ := sound yieldsFirst
  exact sound.binaryChainFrom isOperator_iff reads (.operand spells) further

end Chain

/-! ### Statements -/

/-- The statements behind the first are read with separators before each, and perhaps some at the
end. -/
theorem Sound.furtherStatements {statement : Rule n Tree} (sound : statement.Sound .expression)
    {c c' : Cursor} {trees : List Tree}
    (yields : (furtherStatements statement).Yields c trees c') :
    ∃ w, c.Reads w c' ∧ SpellsEach .furtherStatements w trees := by
  have between := c.reads_skipSeparators
  have separators := c.separators_takeWhile
  induction trees generalizing c with
  | nil =>
    rcases yields_furtherStatements.mp yields with ⟨_, _, _, _, _, eq, _⟩ | ⟨_, _, _, _, rfl⟩ |
      ⟨_, _, _, rfl⟩
    · cases eq
    · exact ⟨_, between, .noStatements separators⟩
    · exact ⟨[], .refl _, .noStatements (by simp [Separators])⟩
  | cons tree others ih =>
    rcases yields_furtherStatements.mp yields with
      ⟨shorter, _, _, c₁, _, eq, yieldsTree, further⟩ | ⟨_, _, _, eq, _⟩ | ⟨_, _, eq, _⟩
    · cases eq
      obtain ⟨w, reads, spells⟩ := sound yieldsTree
      obtain ⟨v, readsOthers, spellsOthers⟩ := ih further c₁.reads_skipSeparators
        c₁.separators_takeWhile
      refine ⟨_, (between.trans reads).trans readsOthers,
        .statement separators ?_ spells spellsOthers⟩
      -- fewer tokens are ahead behind the separators, so that there was one
      exact between.left_lt_iff.mp shorter
    · cases eq
    · cases eq

theorem Sound.statements {statement : Rule n Tree} (sound : statement.Sound .expression) :
    (statements statement).Sound .statements := by
  intro c tree c' yields
  simp only [Rule.statements, yields_bind, yields_here, yields_skipSeparators, yields_lastStop,
    yields_pure] at yields
  obtain ⟨_, c₀, ⟨-, rfl, rfl⟩, _, _, ⟨-, rfl⟩, first, c₁, yieldsFirst, others, c₂, further, _, _,
    ⟨-, rfl, rfl⟩, -, rfl, rfl⟩ := yields
  obtain ⟨w, readsFirst, spellsFirst⟩ := sound yieldsFirst
  obtain ⟨v, readsOthers, spellsOthers⟩ := sound.furtherStatements further
  have reads := (c₀.reads_skipSeparators.trans readsFirst).trans readsOthers
  refine ⟨_, reads, .statements c₀.separators_takeWhile spellsFirst spellsOthers
    (reads.spans ?_)⟩
  obtain ⟨t, u, rfl, -⟩ := spellsFirst.begins
  simp

end Rule

namespace Grammar

open Rule

variable {n : Nat}

/-- The rules of a grammar read only phrases of their sorts. -/
structure Sound (g : Grammar n) : Prop where
  expression : g.expression.Sound .expression
  comparison : g.comparison.Sound .comparison
  arithmetic : g.arithmetic.Sound (.joined .sums)
  factor : g.factor.Sound .factor

variable {g : Grammar n} {c c' : Cursor}

/-! ### Brackets -/

/-- A block is read from one brace to the other, and the place returned with it is where it
ends. -/
theorem Sound.block (sound : g.Sound) {body : Tree} {stop : Position}
    (yields : g.block.Yields c (body, stop) c') :
    ∃ w, c.Reads w c' ∧ Spells .block w body ∧ w.getLast?.map Token.stop = some stop := by
  simp only [Grammar.block, yields_bind, yields_expect, yields_pure] at yields
  obtain ⟨opening, c₁, ⟨-, left, taken⟩, _, c₂, yieldsBody, closing, c₃, ⟨-, right, taken'⟩, -,
    eq, rfl⟩ := yields
  cases eq
  obtain ⟨w, reads, spells⟩ := sound.expression.statements yieldsBody
  refine ⟨opening :: w ++ [closing], ?_, .block left spells right, ?_⟩
  · exact (reads.behind taken).andTake taken'
  · rw [List.getLast?_concat]
    rfl

theorem Sound.afterCommas (sound : g.Sound) {trees : List Tree}
    (yields : (afterCommas g.expression).Yields c trees c') :
    ∃ w, c.Reads w c' ∧ SpellsEach .furtherArguments w trees := by
  induction trees generalizing c with
  | nil =>
    obtain ⟨-, rfl, -⟩ := yields_afterCommas_nil.mp yields
    exact ⟨[], .refl _, .noFurtherArguments⟩
  | cons tree others ih =>
    obtain ⟨-, comma, c₁, c₂, taken, isComma, yieldsTree, further⟩ :=
      yields_afterCommas_cons.mp yields
    obtain ⟨w, reads, spells⟩ := sound.expression yieldsTree
    obtain ⟨v, readsOthers, spellsOthers⟩ := ih further
    refine ⟨comma :: w ++ v, ?_, .furtherArgument isComma spells spellsOthers⟩
    exact (reads.behind taken).trans readsOthers

/-- Behind the opening bracket arguments are read up to the closing one and with it. -/
theorem Sound.arguments (sound : g.Sound) {trees : List Tree} {stop : Position}
    (yields : g.arguments.Yields c (trees, stop) c') :
    ∃ w closing, c.Reads (w ++ [closing]) c' ∧ SpellsEach .arguments w trees ∧
      closing.kind = .rightParen ∧ closing.stop = stop := by
  simp only [Grammar.arguments, yields_ifNext, yields_bind, yields_pin, yields_expect,
    yields_pure] at yields
  rcases yields with ⟨-, closing, c₁, taken, right, -, eq, rfl⟩ |
    ⟨-, first, c₁, yieldsFirst, others, c₂, further, closing, c₃, ⟨-, right, taken⟩, -, eq, rfl⟩
  · cases eq
    exact ⟨[], closing, Cursor.reads_singleton_iff.mpr taken, .noArguments, by simpa using right,
      rfl⟩
  · cases eq
    obtain ⟨w, reads, spells⟩ := sound.expression yieldsFirst
    obtain ⟨v, readsOthers, spellsOthers⟩ := sound.afterCommas further
    exact ⟨w ++ v, closing, (reads.trans readsOthers).andTake taken,
      .argument spells spellsOthers, right, rfl⟩

theorem further_sound {names : List Token}
    (yields : (afterCommas (expect .identifier .identifier) : Rule n _).Yields c names c') :
    ∃ w, c.Reads w c' ∧ FurtherParameters w names := by
  induction names generalizing c with
  | nil =>
    obtain ⟨-, rfl, -⟩ := yields_afterCommas_nil.mp yields
    exact ⟨[], .refl _, .none⟩
  | cons name others ih =>
    obtain ⟨-, comma, c₁, c₂, taken, isComma, yieldsName, further⟩ :=
      yields_afterCommas_cons.mp yields
    obtain ⟨-, isName, taken'⟩ := yields_expect.mp yieldsName
    obtain ⟨w, reads, parameters⟩ := ih further
    refine ⟨comma :: name :: w, ?_, .more isComma isName parameters⟩
    exact (reads.behind taken').behind taken

theorem parameters_sound {names : List Token}
    (yields : (parameters : Rule n _).Yields c names c') :
    ∃ w closing, c.Reads (w ++ [closing]) c' ∧ Parameters w names ∧
      closing.kind = .rightParen := by
  simp only [parameters, yields_ifNext, yields_bind, yields_expect, yields_pure] at yields
  rcases yields with ⟨-, name, c₁, taken, isName, others, c₂, further, closing, c₃,
    ⟨-, right, taken'⟩, -, rfl, rfl⟩ | ⟨-, closing, c₁, ⟨-, right, taken⟩, -, rfl, rfl⟩
  · obtain ⟨w, reads, parameters⟩ := further_sound further
    refine ⟨name :: w, closing, ?_, .some (by simpa using isName) parameters, right⟩
    exact (reads.behind taken).andTake taken'
  · exact ⟨[], closing, Cursor.reads_singleton_iff.mpr taken, .none, right⟩

/-! ### Compound expressions -/

theorem Sound.parenthesised (sound : g.Sound) {tree : Tree}
    (yields : (parenthesised g.expression).Yields c tree c') :
    ∃ opening w closing, c.Reads (opening :: w ++ [closing]) c' ∧ opening.kind = .leftParen ∧
      Spells .expression w tree ∧ closing.kind = .rightParen := by
  simp only [Grammar.parenthesised, yields_bind, yields_expect, yields_pure] at yields
  obtain ⟨opening, c₁, ⟨-, left, taken⟩, _, c₂, yieldsTree, closing, c₃, ⟨-, right, taken'⟩, -,
    rfl, rfl⟩ := yields
  obtain ⟨w, reads, spells⟩ := sound.expression yieldsTree
  refine ⟨opening, w, closing, ?_, left, spells, right⟩
  exact (reads.behind taken).andTake taken'

/-- Behind its first word a conditional is read with one arm, or with one and another after
`else`. -/
theorem Sound.conditional (sound : g.Sound) {word : Token} {tree : Tree}
    (isWord : word.isKeyword .ifWord) (yields : (g.conditional word.start).Yields c tree c') :
    ∃ w, c.Reads w c' ∧ Spells .atom (word :: w) tree := by
  simp only [Grammar.conditional, yields_bind, yields_ifNext, yields_pure, Prod.exists] at yields
  obtain ⟨condition, c₁, yieldsCondition, body, stop, c₂, yieldsBody, others, stop', c₃, yieldsElse,
    -, rfl, rfl⟩ := yields
  obtain ⟨opening, w, closing, reads, left, spells, right⟩ := sound.parenthesised yieldsCondition
  obtain ⟨v, readsBody, spellsBody, last⟩ := sound.block yieldsBody
  rcases yieldsElse with ⟨-, word', c₄, taken, isElse, body', stop'', c₅, yieldsElse, -, eq, rfl⟩ |
    ⟨-, -, eq, rfl⟩
  · cases eq
    obtain ⟨v', readsElse, spellsElse, last'⟩ := sound.block yieldsElse
    refine ⟨_, (reads.trans readsBody).trans (readsElse.behind taken), ?_⟩
    -- the word of the derivation is the one that was read, put together from other parts
    have spans := Spans.of_append (t := word) (u := opening :: w ++ closing :: v ++ [word']) last'
    simpa using Spells.conditionalElse isWord left spells right spellsBody isElse spellsElse
      (by simpa using spans)
  · cases eq
    refine ⟨_, reads.trans readsBody, ?_⟩
    have spans := Spans.of_append (t := word) (u := opening :: w ++ [closing]) last
    simpa using Spells.conditional isWord left spells right spellsBody (by simpa using spans)

/-- Behind its first word a `for` loop is read only if its header begins with an assignment. -/
theorem Sound.forLoop (sound : g.Sound) {word : Token} {tree : Tree}
    (isWord : word.isKeyword .forWord) (yields : (g.forLoop word.start).Yields c tree c') :
    ∃ w, c.Reads w c' ∧ Spells .atom (word :: w) tree := by
  simp only [Grammar.forLoop, yields_bind, yields_expect] at yields
  obtain ⟨opening, c₁, ⟨-, left, taken₁⟩, header, c₂, yieldsInitial, yields⟩ := yields
  obtain ⟨w₁, reads₁, spells₁⟩ := sound.expression yieldsInitial
  -- only an assignment may stand first in the header
  cases header with
  | assignment letStart name initial =>
    simp only [yields_bind, yields_expect, yields_pure, Prod.exists] at yields
    obtain ⟨comma, c₃, ⟨-, isComma, taken₂⟩, condition, c₄, yieldsCondition, comma', c₅,
      ⟨-, isComma', taken₃⟩, update, c₆, yieldsUpdate, closing, c₇, ⟨-, right, taken₄⟩, body, stop,
      c₈, yieldsBody, -, rfl, rfl⟩ := yields
    obtain ⟨w₂, reads₂, spells₂⟩ := sound.comparison yieldsCondition
    obtain ⟨w₃, reads₃, spells₃⟩ := sound.arithmetic yieldsUpdate
    obtain ⟨v, readsBody, spellsBody, last⟩ := sound.block yieldsBody
    refine ⟨_, (((reads₁.behind taken₁).trans (reads₂.behind taken₂)).trans
      (reads₃.behind taken₃)).trans (readsBody.behind taken₄), ?_⟩
    have spans := Spans.of_append (t := word)
      (u := opening :: w₁ ++ comma :: w₂ ++ comma' :: w₃ ++ [closing]) last
    simpa using Spells.forLoop isWord left spells₁ isComma spells₂ isComma' spells₃ right
      spellsBody (by simpa using spans)
  | _ => exact absurd yields not_yields_fail

theorem Sound.whileLoop (sound : g.Sound) {word : Token} {tree : Tree}
    (isWord : word.isKeyword .whileWord) (yields : (g.whileLoop word.start).Yields c tree c') :
    ∃ w, c.Reads w c' ∧ Spells .atom (word :: w) tree := by
  simp only [Grammar.whileLoop, yields_bind, yields_pure, Prod.exists] at yields
  obtain ⟨condition, c₁, yieldsCondition, body, stop, c₂, yieldsBody, -, rfl, rfl⟩ := yields
  obtain ⟨opening, w, closing, reads, left, spells, right⟩ := sound.parenthesised yieldsCondition
  obtain ⟨v, readsBody, spellsBody, last⟩ := sound.block yieldsBody
  refine ⟨_, reads.trans readsBody, ?_⟩
  have spans := Spans.of_append (t := word) (u := opening :: w ++ [closing]) last
  simpa using Spells.whileLoop isWord left spells right spellsBody (by simpa using spans)

theorem Sound.function (sound : g.Sound) {word : Token} {tree : Tree}
    (isWord : word.isKeyword .funcWord) (yields : (g.function word.start).Yields c tree c') :
    ∃ w, c.Reads w c' ∧ Spells .atom (word :: w) tree := by
  simp only [Grammar.function, yields_bind, yields_expect, yields_pure, Prod.exists] at yields
  obtain ⟨name, c₁, ⟨-, isName, taken₁⟩, opening, c₂, ⟨-, left, taken₂⟩, names, c₃, yieldsNames,
    body, stop, c₄, yieldsBody, -, rfl, rfl⟩ := yields
  obtain ⟨w, closing, reads, parameters, right⟩ := parameters_sound yieldsNames
  obtain ⟨v, readsBody, spellsBody, last⟩ := sound.block yieldsBody
  refine ⟨name :: opening :: (w ++ [closing] ++ v),
    ((reads.trans readsBody).behind taken₂).behind taken₁, ?_⟩
  have spans := Spans.of_append (t := word) (u := name :: opening :: w ++ [closing]) last
  simpa using Spells.function isWord isName left parameters right spellsBody (by simpa using spans)

/-- What is read behind a reserved word makes an atom together with the word. -/
theorem Sound.afterWord (sound : g.Sound) {word : Token} {k : Keyword} {rule : Rule n Tree}
    {tree : Tree} (isWord : word.isKeyword k) (chosen : g.afterWord? word.start k = some rule)
    (yields : rule.Yields c tree c') : ∃ w, c.Reads w c' ∧ Spells .atom (word :: w) tree := by
  cases k <;> simp only [afterWord?, Option.some.injEq, reduceCtorEq] at chosen <;> subst chosen
  case ifWord => exact sound.conditional isWord yields
  case forWord => exact sound.forLoop isWord yields
  case whileWord => exact sound.whileLoop isWord yields
  case funcWord => exact sound.function isWord yields

/-! ### Levels of operators -/

/-- What is read behind the first token of an atom makes an atom together with the token. -/
theorem Sound.afterFirst (sound : g.Sound) {t : Token} {rule : Rule n Tree} {tree : Tree}
    (chosen : g.afterFirst? t = some rule) (yields : rule.Yields c tree c') :
    ∃ w, c.Reads w c' ∧ Spells .atom (t :: w) tree := by
  -- one case for each kind of token with which an atom may begin
  unfold afterFirst? at chosen
  split at chosen
  case h_1 kind | h_2 kind =>
    cases chosen
    obtain ⟨-, rfl, rfl⟩ := yields_pure.mp yields
    exact ⟨[], .refl _, .number (by simp [kind])⟩
  case h_3 kind =>
    cases chosen
    obtain ⟨-, rfl, rfl⟩ := yields_pure.mp yields
    exact ⟨[], .refl _, .string kind⟩
  case h_4 kind =>
    cases chosen
    obtain ⟨-, rfl, rfl⟩ := yields_pure.mp yields
    exact ⟨[], .refl _, .reference kind⟩
  case h_5 kind =>
    cases chosen
    simp only [yields_bind, yields_expect, yields_pure] at yields
    obtain ⟨_, c₁, yieldsTree, closing, c₂, ⟨-, right, taken⟩, -, rfl, rfl⟩ := yields
    obtain ⟨w, reads, spells⟩ := sound.expression yieldsTree
    exact ⟨w ++ [closing], reads.andTake taken,
      .parenthesised kind spells right⟩
  case h_6 kind =>
    obtain ⟨k, isWord, chosen⟩ := Option.bind_eq_some_iff.mp chosen
    exact sound.afterWord (by simp [Token.isKeyword, isWord]) chosen yields
  case h_7 => cases chosen

theorem Sound.atom (sound : g.Sound) : g.atom.Sound .atom := by
  intro c tree c' yields
  simp only [Grammar.atom, yields_dispatch, not_yields_missing, and_false, or_false] at yields
  obtain ⟨-, t, c₁, rule, taken, chosen, yields⟩ := yields
  obtain ⟨w, reads, spells⟩ := sound.afterFirst chosen yields
  exact ⟨t :: w, reads.behind taken, spells⟩

theorem Sound.call (sound : g.Sound) : g.call.Sound .call := by
  intro c tree c' yields
  simp only [Grammar.call, yields_bind, yields_within, yields_pure, Prod.exists] at yields
  obtain ⟨callee, c₁, yieldsCallee, yields⟩ := yields
  obtain ⟨w, reads, spells⟩ := sound.atom yieldsCallee
  rcases yields with ⟨-, opening, c₂, taken, left, arguments, stop, c₃, yieldsArguments, -, rfl,
    rfl⟩ | ⟨-, -, rfl, rfl⟩
  · obtain ⟨v, closing, readsArguments, spellsEach, right, rfl⟩ := sound.arguments yieldsArguments
    refine ⟨_, reads.trans (readsArguments.behind taken), ?_⟩
    simpa using Spells.call spells (by simpa using left) spellsEach right
  · exact ⟨w, reads, .uncalled spells⟩

/-- A rule for operands that may stand under an operator is sound for both. -/
theorem Sound.underOperator {isOperator : Token.Kind → Bool} {operand : Rule n Tree}
    {bare : Rule (n + 1) Tree} {p : Phrase}
    (signed : ∀ {t w tree}, isOperator t.kind → Spells p w tree → Spells p (t :: w) (.unary t tree))
    (operandSound : operand.Sound p) (bareSound : bare.Sound p) :
    (underOperator isOperator operand bare).Sound p := by
  intro c tree c' yields
  simp only [Grammar.underOperator, yields_within, yields_bind, yields_pure] at yields
  rcases yields with ⟨-, t, c₁, taken, isOperator, _, c₂, yieldsOperand, -, rfl, rfl⟩ |
    ⟨-, yields⟩
  · obtain ⟨w, reads, spells⟩ := operandSound yieldsOperand
    exact ⟨t :: w, reads.behind taken, signed isOperator spells⟩
  · exact bareSound yields

theorem Sound.assignmentOr (sound : g.Sound) {other : Rule (n + 1) Tree}
    (otherSound : other.Sound .expression) : (g.assignmentOr other).Sound .expression := by
  intro c tree c' yields
  simp only [Grammar.assignmentOr, yields_within, yields_bind, yields_expect, yields_pure] at yields
  rcases yields with ⟨-, word, c₁, taken₁, isLet, name, c₂, ⟨-, isName, taken₂⟩, equals, c₃,
    ⟨-, isAssign, taken₃⟩, value, c₄, yieldsValue, -, rfl, rfl⟩ | ⟨-, yields⟩
  · obtain ⟨w, reads, spells⟩ := sound.expression yieldsValue
    refine ⟨_, ?_, .assignment isLet isName isAssign spells⟩
    simp only [Cursor.reads_cons_iff]
    exact ⟨c₁, taken₁, c₂, taken₂, c₃, taken₃, reads⟩
  · exact otherSound yields

/-- Rules for one token more are sound if the rules for nested parts are. -/
theorem Sound.next (sound : g.Sound) : g.next.Sound := by
  -- levels are built upon one another, from the tightest to the loosest
  have factor : g.next.factor.Sound .factor := by
    rw [next_factor]
    refine Sound.underOperator (fun operator => .signed ?_) sound.factor (sound.call.mono .unsigned)
    simpa [isAdditive] using operator
  have arithmetic : g.next.arithmetic.Sound (.joined .sums) :=
    (factor.binaryChain Level.products.test_iff).binaryChain Level.sums.test_iff
  have relations := (arithmetic.binaryChain Level.relations.test_iff).mono .relations
  have comparison : g.next.comparison.Sound .comparison := by
    rw [next_comparison]
    refine Sound.underOperator (fun operator => .negation ?_) sound.comparison relations.pin
    simpa using operator
  have conditions := (comparison.binaryChain Level.conditions.test_iff).mono .conditions
  exact ⟨sound.assignmentOr conditions.pin, comparison, arithmetic, factor⟩

/-- The rules for any number of tokens are sound. -/
theorem sound_upTo (n : Nat) : (upTo n).Sound := by
  induction n with
  | zero =>
    -- a rule with no room for a token reads nothing at all
    have never {rule : Rule 0 Tree} {p : Phrase} : rule.Sound p :=
      fun _ _ _ yields => absurd yields.lt (Nat.not_lt_zero _)
    exact ⟨never, never, never, never⟩
  | succ n sound => exact sound.next

end Grammar

end Scriptlet
