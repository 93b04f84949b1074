import Scriptlet.Proofs.Syntax.Following
import Scriptlet.Proofs.Syntax.Soundness

/-!
# What is spelled is read

The converse of soundness: where tokens spell a tree and the phrase ends behind them, the rule
reads just these tokens and that tree.

## Main definitions

* `Rule.Complete`, `Grammar.Complete` — a rule reads every phrase of its sort

## Main results

* `Grammar.refuses_next` — no expression is read where none begins
* `Grammar.Complete.next` — one token more keeps rules complete
* `Grammar.complete_upTo` — the rules for any number of tokens are complete
* `Tree.ofTokens_eq_ok_iff` — the trees of lists of tokens are those that the tokens spell
-/

namespace Scriptlet

/-! ### Joined operands -/

namespace Rule

variable {n : Nat}

/-- Every phrase of this sort is read, where it ends. -/
def Complete (rule : Rule n Tree) (p : Phrase) : Prop :=
  ∀ ⦃c w c' tree⦄, c.left < n → c.Reads w c' → Spells p w tree → c'.EndsPhrase p →
    rule.Yields c tree c'

theorem Complete.pin {rule : Rule n Tree} {p : Phrase} {kind : ParseError.Kind}
    (complete : rule.Complete p) : (pin kind rule).Complete p :=
  fun _ _ _ _ h reads spells ends => yields_pin.mpr (complete h reads spells ends)

section Chain

variable {operand : Rule n Tree} {level : Level}

/-- Reading a chain comes down to reading on behind any operands joined so far. The induction
is on the tokens of these operands, which shrink by the last operator and what follows it. -/
theorem Complete.yields_binaryChain (complete : operand.Complete level.operand) {c c₁ c' : Cursor}
    {w : List Token} {left tree : Tree} (h : c.left < n) (reads : c.Reads w c₁)
    (spells : Spells (.joined level) w left) (ends : c₁.EndsPhrase level.operand)
    (further : (binaryChainFrom level.test operand left).Yields c₁ tree c') :
    (binaryChain level.test operand).Yields c tree c' := by
  induction size : w.length using Nat.strongRecOn generalizing c₁ w left with
  | ind size' ih =>
    cases spells with
    | operand spells => exact yields_bind.mpr ⟨left, c₁, complete h reads spells ends, further⟩
    | @join _ u v first right operator spellsFirst isOperator spellsRight =>
      -- the last operator and its operand are one more round behind the operands before them
      obtain ⟨c₂, readsFirst, readsRight⟩ := Cursor.reads_append_iff.mp reads
      obtain ⟨c₃, taken, readsRight⟩ := Cursor.reads_cons_iff.mp readsRight
      have h₂ : c₂.left < n := readsFirst.left_lt h
      have h₃ : c₃.left < n := Cursor.left_lt_trans taken h₂
      have shorter : u.length < size' := by simp [← size]
      refine ih u.length shorter readsFirst spellsFirst (.of_operator taken isOperator) ?_ rfl
      rw [binaryChainFrom_eq, yields_ifNext]
      refine .inl ⟨h₂, operator, c₃, taken, (level.test_iff _).mpr isOperator, ?_⟩
      exact yields_bind.mpr ⟨right, c₁, complete h₃ readsRight spellsRight ends, further⟩

/-- A chain is read as far as operators of its level go. -/
theorem Complete.binaryChain (complete : operand.Complete level.operand) :
    (binaryChain level.test operand).Complete (.joined level) := by
  intro c w c' tree h reads spells ends
  refine complete.yields_binaryChain h reads spells ends.operand ?_
  rw [binaryChainFrom_eq, yields_ifNext]
  -- no operator of the level comes next, so that the loop stops where the phrase ends
  refine .inr ⟨fun t head => ?_, yields_pure.mpr ⟨reads.left_lt h, rfl, rfl⟩⟩
  rw [← Bool.not_eq_true]
  intro isOperator
  exact ends t head (.inr (.inr ⟨level, level.mem_levels_joined, (level.test_iff _).mp isOperator⟩))

end Chain

end Rule

namespace Grammar

open Rule

variable {n : Nat} {g : Grammar n} {c c' : Cursor}

/-! ### Where no expression begins -/

theorem afterFirst?_eq_none {t : Token} (h : ¬ t.BeginsAtom) : g.afterFirst? t = none := by
  unfold afterFirst?
  split
  case h_1 kind | h_2 kind | h_3 kind | h_4 kind | h_5 kind =>
    exact absurd (.inl (by simp [kind])) h
  case h_6 kind =>
    cases isWord : t.keyword? with
    | none => rfl
    | some k =>
      cases k with
      | letWord | elseWord => rfl
      | _ => exact absurd (.inr ⟨_, by simp, beq_iff_eq.mpr isWord⟩) h
  case h_7 => rfl

/-- No call is read where no atom begins, and no token is read in trying. -/
theorem refuses_call (h : c.left < n + 1)
    (none : ∀ t, c.ahead.head? = some t → ¬ t.BeginsAtom) : g.call.Refuses c := by
  have atom : g.atom.Refuses c :=
    Refuses.onNext (Nat.le_refl _) (refuses_missing h)
      fun t head => afterFirst?_eq_none (none t head)
  exact atom.bind

/-- No expression is read where none begins, and no token is read in trying. -/
theorem refuses_next (h : c.left < n + 1)
    (none : ∀ t, c.ahead.head? = some t → ¬ t.BeginsExpression) : g.next.expression.Refuses c := by
  -- each level refuses because the tighter one does and no sign of its own comes next
  have factor : g.next.factor.Refuses c := by
    refine .within (refuses_call h fun t head begins => none t head ?_) fun t head => ?_
    · exact .inr (.inr (.inr (.inr begins)))
    · rw [← Bool.not_eq_true]
      intro isSign
      rcases Bool.or_eq_true_iff.mp isSign with plus | minus
      · exact none t head (.inr (.inr (.inl (beq_iff_eq.mp plus))))
      · exact none t head (.inr (.inr (.inr (.inl (beq_iff_eq.mp minus)))))
  have arithmetic : g.next.arithmetic.Refuses c := factor.bind.bind
  have comparison : g.next.comparison.Refuses c := by
    refine .within arithmetic.bind.pin fun t head => ?_
    rw [← Bool.not_eq_true]
    exact fun isNot => none t head (.inr (.inl (beq_iff_eq.mp isNot)))
  refine .within comparison.bind.pin fun t head => ?_
  rw [← Bool.not_eq_true]
  exact fun isLet => none t head (.inl isLet)

/-! ### Series -/

/-- The rules of a grammar read every phrase of their sorts, and no expression where none
begins. -/
structure Complete (g : Grammar n) : Prop where
  expression : g.expression.Complete .expression
  comparison : g.comparison.Complete .comparison
  arithmetic : g.arithmetic.Complete (.joined .sums)
  factor : g.factor.Complete .factor
  refuses : ∀ ⦃c⦄, c.left < n → (∀ t, c.ahead.head? = some t → ¬ t.BeginsExpression) →
    g.expression.Refuses c

/-- Further arguments are read up to the bracket behind them. What stands in front of them ends
there, at a comma or at that bracket. -/
theorem Complete.furtherArguments (complete : g.Complete) {w : List Token} {trees : List Tree}
    (h : c.left < n) (reads : c.Reads w c') (spells : SpellsEach .furtherArguments w trees)
    (closing : ∀ t, c'.ahead.head? = some t → t.kind = .rightParen) :
    (afterCommas g.expression).Yields c trees c' ∧ c.AtClosing := by
  induction trees generalizing c w with
  | nil =>
    cases spells
    obtain rfl := Cursor.reads_nil_iff.mp reads
    constructor
    · exact yields_afterCommas_nil.mpr ⟨h, rfl, fun t head => by simp [closing t head]⟩
    · exact fun t head => by simp [closing t head]
  | cons tree others ih =>
    cases spells with
    | @furtherArgument comma w rest _ _ isComma spellsFirst spellsOthers =>
      simp only [List.cons_append, Cursor.reads_cons_iff, Cursor.reads_append_iff] at reads
      obtain ⟨c₁, taken, c₂, readsFirst, readsOthers⟩ := reads
      have h₁ : c₁.left < n := Cursor.left_lt_trans taken h
      have h₂ : c₂.left < n := readsFirst.left_lt h₁
      obtain ⟨yieldsOthers, closing₂⟩ := ih h₂ readsOthers spellsOthers
      -- an argument ends before the next comma, or before the bracket that closes the list
      have yieldsFirst :=
        complete.expression h₁ readsFirst spellsFirst (closing₂.endsPhrase (by decide))
      constructor
      · exact yields_afterCommas_cons.mpr
          ⟨h, comma, c₁, c₂, taken, isComma, yieldsFirst, yieldsOthers⟩
      · exact .of_take? taken (by simp [isComma])

/-- Further statements are read up to the end of all statements. What stands in front of them ends
there, at a separator or at that end. -/
theorem Complete.furtherStatements (complete : g.Complete) {w : List Token} {trees : List Tree}
    (h : c.left < n) (reads : c.Reads w c') (spells : SpellsEach .furtherStatements w trees)
    (ends : c'.EndsPhrase .statements) :
    (furtherStatements g.expression).Yields c trees c' ∧ c.AtClosing := by
  have right := Cursor.endsPhrase_statements_iff.mp ends
  induction trees generalizing c w with
  | nil =>
    cases spells with
    | noStatements separators =>
      have skipped : c.skipSeparators = c' :=
        Cursor.skipSeparators_eq reads separators fun t head => by simp [right t head]
      -- behind the last separator a statement is tried; it has to refuse without reading
      have refuses : g.expression.Refuses c' := by
        refine complete.refuses (reads.left_lt h) fun t head begins => ?_
        exact begins.kind_not_mem (by simp [right t head])
      cases w with
      | nil =>
        obtain rfl := Cursor.reads_nil_iff.mp reads
        constructor
        · exact yields_furtherStatements.mpr (.inr (.inr ⟨by simp [skipped], h, rfl, rfl⟩))
        · exact fun t head => by simp [right t head]
      | cons s w =>
        obtain ⟨c₁, taken, -⟩ := Cursor.reads_cons_iff.mp reads
        constructor
        · refine yields_furtherStatements.mpr (.inr (.inl ⟨?_, h, skipped ▸ refuses, rfl, ?_⟩))
          · rw [skipped, reads.left_eq]
            simp
          · exact skipped.symm
        · exact .of_take? taken (by simp [separators s List.mem_cons_self])
  | cons tree others ih =>
    cases spells with
    | @statement between w rest _ _ separators ne spellsFirst spellsOthers =>
      simp only [Cursor.reads_append_iff] at reads
      obtain ⟨c₂, ⟨c₁, readsBetween, readsFirst⟩, readsOthers⟩ := reads
      have h₁ : c₁.left < n := readsBetween.left_lt h
      have h₂ : c₂.left < n := readsFirst.left_lt h₁
      obtain ⟨yieldsOthers, closing₂⟩ := ih h₂ readsOthers spellsOthers
      have yieldsFirst :=
        complete.expression h₁ readsFirst spellsFirst (closing₂.endsPhrase (by decide))
      -- no expression begins with a separator, so that just those between are skipped
      have skipped : c.skipSeparators = c₁ := by
        refine Cursor.skipSeparators_eq readsBetween separators fun t head separator => ?_
        obtain ⟨u, v, rfl, begins⟩ := spellsFirst.begins
        obtain rfl : u = t := readsFirst.eq_head head
        exact Token.BeginsExpression.kind_not_mem begins (by simp [separator])
      obtain ⟨s, v, rfl⟩ := List.exists_cons_of_ne_nil ne
      obtain ⟨c₀, taken, -⟩ := Cursor.reads_cons_iff.mp readsBetween
      constructor
      · refine yields_furtherStatements.mpr (.inl ⟨?_, h, tree, c₂, others, rfl, ?_, yieldsOthers⟩)
        · rw [skipped, readsBetween.left_eq]
          simp
        · rwa [skipped]
      · exact .of_take? taken (by simp [separators s List.mem_cons_self])

/-! ### Statements and blocks -/

/-- Statements are read with the separators around them. -/
theorem Complete.statements (complete : g.Complete) :
    (statements g.expression).Complete .statements := by
  intro c w c' tree h reads spells ends
  cases spells with
  | @statements lead w rest first others start stop separators spellsFirst spellsOthers spans =>
    obtain ⟨t, v, rfl, begins⟩ := spellsFirst.begins
    -- the places in the derivation are the ones that the rule takes from the cursor
    have spans' := reads.spans (by simp)
    obtain ⟨c₂, readsBoth, readsOthers⟩ := Cursor.reads_append_iff.mp reads
    obtain ⟨c₁, readsLead, readsFirst⟩ := Cursor.reads_append_iff.mp readsBoth
    have h₁ : c₁.left < n := readsLead.left_lt h
    have h₂ : c₂.left < n := readsFirst.left_lt h₁
    have h' : c'.left < n := readsOthers.left_lt h₂
    obtain ⟨yieldsOthers, closing⟩ := complete.furtherStatements h₂ readsOthers spellsOthers ends
    have yieldsFirst :=
      complete.expression h₁ readsFirst spellsFirst (closing.endsPhrase (by decide))
    have skipped : c.skipSeparators = c₁ := by
      refine Cursor.skipSeparators_eq readsLead separators fun u head separator => ?_
      obtain rfl : t = u := readsFirst.eq_head head
      exact Token.BeginsExpression.kind_not_mem begins (by simp [separator])
    obtain ⟨rfl, rfl⟩ := spans.unique spans'
    simp only [Rule.statements, yields_bind, yields_here, yields_skipSeparators, yields_lastStop,
      yields_pure]
    exact ⟨_, c, ⟨h, rfl, rfl⟩, (), c₁, ⟨h, skipped.symm⟩, first, c₂, yieldsFirst, others, c',
      yieldsOthers, _, c', ⟨h', rfl, rfl⟩, h', rfl, rfl⟩

/-- A block is read whatever comes next, since its own brace ends it. -/
theorem Complete.block (complete : g.Complete) {w : List Token} {body : Tree} {stop : Position}
    (h : c.left < n) (reads : c.Reads w c') (spells : Spells .block w body)
    (last : w.getLast?.map Token.stop = some stop) : g.block.Yields c (body, stop) c' := by
  cases spells with
  | @block opening closing w _ left spellsBody right =>
    obtain ⟨c₂, readsBody, taken'⟩ := Cursor.reads_append_iff.mp reads
    obtain ⟨c₁, taken, readsBody⟩ := Cursor.reads_cons_iff.mp readsBody
    have taken' := Cursor.reads_singleton_iff.mp taken'
    have h₁ : c₁.left < n := Cursor.left_lt_trans taken h
    have h₂ : c₂.left < n := readsBody.left_lt h₁
    have h' : c'.left < n := Cursor.left_lt_trans taken' h₂
    -- statements go on with anything but the bracket that closes them
    have ends : c₂.EndsPhrase .statements := by
      refine Cursor.endsPhrase_statements_iff.mpr fun t head => ?_
      obtain rfl : closing = t := Cursor.eq_of_take? taken' head
      exact right
    have same : closing.stop = stop := by
      rw [List.getLast?_concat] at last
      simpa using last
    simp only [Grammar.block, yields_bind, yields_expect, yields_pure]
    exact ⟨opening, c₁, ⟨h, left, taken⟩, body, c₂,
      complete.statements h₁ readsBody spellsBody ends, closing, c', ⟨h₂, right, taken'⟩, h',
      by rw [same], rfl⟩

/-- Arguments are read whatever comes next, since the bracket behind them ends them. -/
theorem Complete.arguments (complete : g.Complete) {w : List Token} {closing : Token}
    {trees : List Tree} (h : c.left < n) (reads : c.Reads (w ++ [closing]) c')
    (spells : SpellsEach .arguments w trees) (right : closing.kind = .rightParen) :
    g.arguments.Yields c (trees, closing.stop) c' := by
  have h' : c'.left < n := reads.left_lt h
  obtain ⟨c₂, readsEach, taken⟩ := Cursor.reads_append_iff.mp reads
  rw [Cursor.reads_singleton_iff] at taken
  have h₂ : c₂.left < n := readsEach.left_lt h
  rw [Grammar.arguments, yields_ifNext]
  cases spells with
  | noArguments =>
    obtain rfl := Cursor.reads_nil_iff.mp readsEach
    exact .inl ⟨h, closing, c', taken, by simp [right], yields_pure.mpr ⟨h', rfl, rfl⟩⟩
  | @argument v rest first others spellsFirst spellsOthers =>
    obtain ⟨c₁, readsFirst, readsOthers⟩ := Cursor.reads_append_iff.mp readsEach
    have h₁ : c₁.left < n := readsFirst.left_lt h
    obtain ⟨yieldsOthers, closing₁⟩ := complete.furtherArguments h₁ readsOthers spellsOthers
      fun t head => by
        obtain rfl : closing = t := Cursor.eq_of_take? taken head
        exact right
    have yieldsFirst :=
      complete.expression h readsFirst spellsFirst (closing₁.endsPhrase (by decide))
    -- an expression never begins with the bracket that closes the list
    refine .inr ⟨fun t head => ?_, ?_⟩
    · obtain ⟨u, v, rfl, begins⟩ := spellsFirst.begins
      obtain rfl : u = t := readsFirst.eq_head head
      have kind := Token.BeginsExpression.kind_not_mem begins
      simp only [List.mem_cons, not_or] at kind
      exact beq_eq_false_iff_ne.mpr kind.1
    · simp only [yields_bind, yields_pin, yields_expect, yields_pure]
      exact ⟨first, c₁, yieldsFirst, others, c₂, yieldsOthers, closing, c', ⟨h₂, right, taken⟩, h',
        rfl, rfl⟩

theorem further_complete {w names : List Token} (h : c.left < n) (reads : c.Reads w c')
    (parameters : FurtherParameters w names)
    (closing : ∀ t, c'.ahead.head? = some t → t.kind = .rightParen) :
    (afterCommas (expect .identifier .identifier) : Rule n _).Yields c names c' := by
  induction parameters generalizing c with
  | none =>
    obtain rfl := Cursor.reads_nil_iff.mp reads
    exact yields_afterCommas_nil.mpr ⟨h, rfl, fun t head => by simp [closing t head]⟩
  | @more comma name w names isComma isName others ih =>
    simp only [Cursor.reads_cons_iff] at reads
    obtain ⟨c₁, taken₁, c₂, taken₂, readsOthers⟩ := reads
    have h₁ : c₁.left < n := Cursor.left_lt_trans taken₁ h
    have h₂ : c₂.left < n := Cursor.left_lt_trans taken₂ h₁
    have yieldsName : (expect .identifier .identifier : Rule n Token).Yields c₁ name c₂ :=
      yields_expect.mpr ⟨h₁, isName, taken₂⟩
    exact yields_afterCommas_cons.mpr
      ⟨h, comma, c₁, c₂, taken₁, isComma, yieldsName, ih h₂ readsOthers⟩

theorem parameters_complete {w names : List Token} {closing : Token} (h : c.left < n)
    (reads : c.Reads (w ++ [closing]) c') (parameters : Parameters w names)
    (right : closing.kind = .rightParen) :
    (Grammar.parameters : Rule n _).Yields c names c' := by
  have h' : c'.left < n := reads.left_lt h
  rw [Grammar.parameters, yields_ifNext]
  cases parameters with
  | none =>
    have taken := Cursor.reads_singleton_iff.mp reads
    refine .inr ⟨fun t head => ?_, ?_⟩
    · -- with no parameters the bracket comes next
      obtain rfl : closing = t := Cursor.eq_of_take? taken head
      simp [right]
    · simp only [yields_bind, yields_expect, yields_pure]
      exact ⟨closing, c', ⟨h, right, taken⟩, h', trivial, rfl⟩
  | @some name w names isName others =>
    simp only [List.cons_append, Cursor.reads_cons_iff, Cursor.reads_append_iff] at reads
    obtain ⟨c₁, taken₁, c₂, readsOthers, c₃, taken₂, rest⟩ := reads
    obtain rfl := Cursor.reads_nil_iff.mp rest
    have h₁ : c₁.left < n := Cursor.left_lt_trans taken₁ h
    have h₂ : c₂.left < n := readsOthers.left_lt h₁
    have yieldsOthers := further_complete h₁ readsOthers others fun t head => by
      obtain rfl : closing = t := Cursor.eq_of_take? taken₂ head
      exact right
    refine .inl ⟨h, name, c₁, taken₁, by simp [isName], ?_⟩
    simp only [yields_bind, yields_expect, yields_pure]
    exact ⟨names, c₂, yieldsOthers, closing, c', ⟨h₂, right, taken₂⟩, h', rfl, rfl⟩

/-! ### Compound expressions -/

/-- What is between round brackets ends before the closing one. -/
theorem Complete.parenthesised (complete : g.Complete) {opening closing : Token} {w : List Token}
    {tree : Tree} (h : c.left < n) (reads : c.Reads (opening :: w ++ [closing]) c')
    (left : opening.kind = .leftParen) (spells : Spells .expression w tree)
    (right : closing.kind = .rightParen) : (parenthesised g.expression).Yields c tree c' := by
  simp only [List.cons_append, Cursor.reads_cons_iff, Cursor.reads_append_iff] at reads
  obtain ⟨c₁, taken₁, c₂, reads, c₃, taken₂, rest⟩ := reads
  obtain rfl := Cursor.reads_nil_iff.mp rest
  have h₁ : c₁.left < n := Cursor.left_lt_trans taken₁ h
  have h₂ : c₂.left < n := reads.left_lt h₁
  have ends : c₂.AtClosing := .of_take? taken₂ (by simp [right])
  simp only [Grammar.parenthesised, yields_bind, yields_expect, yields_pure]
  exact ⟨opening, c₁, ⟨h, left, taken₁⟩, tree, c₂,
    complete.expression h₁ reads spells (ends.endsPhrase (by decide)), closing, c',
    ⟨h₂, right, taken₂⟩, Cursor.left_lt_trans taken₂ h₂, rfl, rfl⟩

/-- A conditional of one arm is read unless `else` comes next. -/
theorem Complete.conditional (complete : g.Complete) {word opening closing : Token}
    {w v : List Token} {condition body : Tree} {start stop : Position} (h : c.left < n)
    (reads : c.Reads (opening :: w ++ closing :: v) c') (left : opening.kind = .leftParen)
    (spells : Spells .expression w condition) (right : closing.kind = .rightParen)
    (spellsBody : Spells .block v body)
    (spans : Spans (word :: opening :: w ++ closing :: v) start stop)
    (ends : c'.EndsPhrase .atom) :
    (g.conditional word.start).Yields c
      (.conditional (.guarded condition body .none) start stop) c' := by
  have h' : c'.left < n := reads.left_lt h
  rw [List.append_cons, Cursor.reads_append_iff] at reads
  obtain ⟨c₁, reads, readsBody⟩ := reads
  have h₁ : c₁.left < n := reads.left_lt h
  have yieldsBody := complete.block h₁ readsBody spellsBody
    (spans.last spellsBody.block_ne_nil)
  obtain rfl := spans.eq_start
  simp only [Grammar.conditional, yields_bind, yields_ifNext, yields_pure, Prod.exists]
  refine ⟨condition, c₁, complete.parenthesised h reads left spells right, body, stop, c',
    yieldsBody, .none, stop, c', .inr ⟨fun t head => ?_, h', rfl, rfl⟩, h', rfl, rfl⟩
  -- `else` would belong to this conditional, and so it may not come next
  rw [← Bool.not_eq_true]
  exact ends t head

theorem Complete.conditionalElse (complete : g.Complete) {word opening closing word' : Token}
    {w v v' : List Token} {condition body body' : Tree} {start stop : Position} (h : c.left < n)
    (reads : c.Reads (opening :: w ++ closing :: v ++ word' :: v') c')
    (left : opening.kind = .leftParen) (spells : Spells .expression w condition)
    (right : closing.kind = .rightParen) (spellsBody : Spells .block v body)
    (isElse : word'.isKeyword .elseWord) (spellsElse : Spells .block v' body')
    (spans : Spans (word :: opening :: w ++ closing :: v ++ word' :: v') start stop) :
    (g.conditional word.start).Yields c
      (.conditional (.guarded condition body (.otherwise body')) start stop) c' := by
  have h' : c'.left < n := reads.left_lt h
  obtain ⟨c₂, reads, readsElse⟩ := Cursor.reads_append_iff.mp reads
  obtain ⟨c₃, taken, readsElse⟩ := Cursor.reads_cons_iff.mp readsElse
  rw [List.append_cons, Cursor.reads_append_iff] at reads
  obtain ⟨c₁, reads, readsBody⟩ := reads
  have h₁ : c₁.left < n := reads.left_lt h
  have h₂ : c₂.left < n := readsBody.left_lt h₁
  have h₃ : c₃.left < n := Cursor.left_lt_trans taken h₂
  -- the first block ends before the `else`, and the second where the conditional does
  have last := List.getLast?_eq_some_getLast spellsBody.block_ne_nil
  have yieldsBody := complete.block h₁ readsBody spellsBody (by rw [last]; rfl)
  have yieldsElse := complete.block h₃ readsElse spellsElse (spans.last spellsElse.block_ne_nil)
  obtain rfl := spans.eq_start
  simp only [Grammar.conditional, yields_bind, yields_ifNext, yields_pure, Prod.exists]
  exact ⟨condition, c₁, complete.parenthesised h reads left spells right, body, _, c₂,
    yieldsBody, .otherwise body', stop, c',
    .inl ⟨h₂, word', c₃, taken, isElse, body', stop, c', yieldsElse, h', rfl, rfl⟩, h', rfl, rfl⟩

theorem Complete.forLoop (complete : g.Complete) {word opening comma comma' closing name : Token}
    {w₁ w₂ w₃ v : List Token} {initial condition update body : Tree}
    {letStart start stop : Position} (h : c.left < n)
    (reads : c.Reads (opening :: w₁ ++ comma :: w₂ ++ comma' :: w₃ ++ closing :: v) c')
    (left : opening.kind = .leftParen)
    (spells₁ : Spells .expression w₁ (.assignment letStart name initial))
    (isComma : comma.kind = .comma) (spells₂ : Spells .comparison w₂ condition)
    (isComma' : comma'.kind = .comma) (spells₃ : Spells (.joined .sums) w₃ update)
    (right : closing.kind = .rightParen) (spellsBody : Spells .block v body)
    (spans : Spans (word :: opening :: w₁ ++ comma :: w₂ ++ comma' :: w₃ ++ closing :: v) start
      stop) :
    (g.forLoop word.start).Yields c
      (.forLoop letStart name initial condition update body start stop) c' := by
  have h' : c'.left < n := reads.left_lt h
  have last := spans.last spellsBody.block_ne_nil
  simp only [List.cons_append, List.append_assoc, Cursor.reads_cons_iff,
    Cursor.reads_append_iff] at reads
  obtain ⟨c₁, taken₁, c₂, reads₁, c₃, taken₂, c₄, reads₂, c₅, taken₃, c₆, reads₃, c₇, taken₄,
    readsBody⟩ := reads
  -- every part leaves room for what stands behind it
  have h₁ : c₁.left < n := Cursor.left_lt_trans taken₁ h
  have h₂ : c₂.left < n := reads₁.left_lt h₁
  have h₃ : c₃.left < n := Cursor.left_lt_trans taken₂ h₂
  have h₄ : c₄.left < n := reads₂.left_lt h₃
  have h₅ : c₅.left < n := Cursor.left_lt_trans taken₃ h₄
  have h₆ : c₆.left < n := reads₃.left_lt h₅
  have h₇ : c₇.left < n := Cursor.left_lt_trans taken₄ h₆
  -- each expression of the header ends before a comma or the bracket
  have ends₂ : c₂.AtClosing := .of_take? taken₂ (by simp [isComma])
  have ends₄ : c₄.AtClosing := .of_take? taken₃ (by simp [isComma'])
  have ends₆ : c₆.AtClosing := .of_take? taken₄ (by simp [right])
  have yields₁ := complete.expression h₁ reads₁ spells₁ (ends₂.endsPhrase (by decide))
  have yields₂ := complete.comparison h₃ reads₂ spells₂ (ends₄.endsPhrase (by decide))
  have yields₃ := complete.arithmetic h₅ reads₃ spells₃ (ends₆.endsPhrase (by decide))
  have yieldsBody := complete.block h₇ readsBody spellsBody last
  obtain rfl := spans.eq_start
  simp only [Grammar.forLoop, yields_bind, yields_expect]
  refine ⟨opening, c₁, ⟨h, left, taken₁⟩, _, c₂, yields₁, ?_⟩
  simp only [yields_bind, yields_expect, yields_pure, Prod.exists]
  exact ⟨comma, c₃, ⟨h₂, isComma, taken₂⟩, condition, c₄, yields₂, comma', c₅,
    ⟨h₄, isComma', taken₃⟩, update, c₆, yields₃, closing, c₇, ⟨h₆, right, taken₄⟩, body, stop, c',
    yieldsBody, h', rfl, rfl⟩

theorem Complete.whileLoop (complete : g.Complete) {word opening closing : Token}
    {w v : List Token} {condition body : Tree} {start stop : Position} (h : c.left < n)
    (reads : c.Reads (opening :: w ++ closing :: v) c') (left : opening.kind = .leftParen)
    (spells : Spells .expression w condition) (right : closing.kind = .rightParen)
    (spellsBody : Spells .block v body)
    (spans : Spans (word :: opening :: w ++ closing :: v) start stop) :
    (g.whileLoop word.start).Yields c (.whileLoop condition body start stop) c' := by
  have h' : c'.left < n := reads.left_lt h
  rw [List.append_cons, Cursor.reads_append_iff] at reads
  obtain ⟨c₁, reads, readsBody⟩ := reads
  have h₁ : c₁.left < n := reads.left_lt h
  have yieldsBody := complete.block h₁ readsBody spellsBody (spans.last spellsBody.block_ne_nil)
  obtain rfl := spans.eq_start
  simp only [Grammar.whileLoop, yields_bind, yields_pure, Prod.exists]
  exact ⟨condition, c₁, complete.parenthesised h reads left spells right, body, stop, c',
    yieldsBody, h', rfl, rfl⟩

theorem Complete.function (complete : g.Complete) {word name opening closing : Token}
    {w v names : List Token} {body : Tree} {start stop : Position} (h : c.left < n)
    (reads : c.Reads (name :: opening :: w ++ closing :: v) c') (isName : name.kind = .identifier)
    (left : opening.kind = .leftParen) (parameters : Parameters w names)
    (right : closing.kind = .rightParen) (spellsBody : Spells .block v body)
    (spans : Spans (word :: name :: opening :: w ++ closing :: v) start stop) :
    (g.function word.start).Yields c (.function name names body start stop) c' := by
  have h' : c'.left < n := reads.left_lt h
  simp only [List.cons_append, Cursor.reads_cons_iff] at reads
  obtain ⟨c₁, taken₁, c₂, taken₂, reads⟩ := reads
  rw [List.append_cons, Cursor.reads_append_iff] at reads
  obtain ⟨c₃, reads, readsBody⟩ := reads
  have h₁ : c₁.left < n := Cursor.left_lt_trans taken₁ h
  have h₂ : c₂.left < n := Cursor.left_lt_trans taken₂ h₁
  have h₃ : c₃.left < n := reads.left_lt h₂
  have yieldsBody := complete.block h₃ readsBody spellsBody (spans.last spellsBody.block_ne_nil)
  obtain rfl := spans.eq_start
  simp only [Grammar.function, yields_bind, yields_expect, yields_pure, Prod.exists]
  exact ⟨name, c₁, ⟨h, isName, taken₁⟩, opening, c₂, ⟨h₁, left, taken₂⟩, names, c₃,
    parameters_complete h₂ reads parameters right, body, stop, c', yieldsBody, h', rfl, rfl⟩

/-! ### Atoms and calls -/

/-- A reserved word settles the rule that goes on behind it. -/
theorem afterFirst?_of_isKeyword {t : Token} {k : Keyword} (h : t.isKeyword k) :
    g.afterFirst? t = g.afterWord? t.start k := by
  have isWord : t.keyword? = some k := beq_iff_eq.mp h
  simp [afterFirst?, Token.kind_of_isKeyword h, isWord]

/-- The first token of an atom chooses the rule that reads the others. -/
theorem Complete.afterFirst (complete : g.Complete) {w : List Token} {tree : Tree}
    (spells : Spells .atom w tree) (ends : c'.EndsPhrase .atom) :
    ∃ t v rule, w = t :: v ∧ g.afterFirst? t = some rule ∧
      ∀ ⦃c⦄, c.left < n → c.Reads v c' → rule.Yields c tree c' := by
  have atOnce {c : Cursor} {tree : Tree} (h : c.left < n) (reads : c.Reads [] c') :
      (pure tree : Rule n Tree).Yields c tree c' := by
    rw [Cursor.reads_nil_iff] at reads
    exact yields_pure.mpr ⟨h, rfl, reads⟩
  -- the cases are the sorts of atoms, each known by its first token
  cases spells with
  | @number t kind =>
    refine ⟨t, [], pure (.number t), rfl, ?_, fun _ => atOnce⟩
    rcases kind with kind | kind <;> simp [afterFirst?, kind]
  | @string t kind =>
    exact ⟨t, [], pure (.string t), rfl, by simp [afterFirst?, kind], fun _ => atOnce⟩
  | @reference t kind =>
    exact ⟨t, [], pure (.reference t), rfl, by simp [afterFirst?, kind], fun _ => atOnce⟩
  | @parenthesised opening closing v _ left spells right =>
    have chosen : g.afterFirst? opening = some do
        let tree ← g.expression
        let _ ← expect .rightParen .rightParen
        return tree := by
      simp [afterFirst?, left]
    refine ⟨opening, v ++ [closing], _, rfl, chosen, fun c h reads => ?_⟩
    have h' : c'.left < n := reads.left_lt h
    obtain ⟨c₁, reads, readsLast⟩ := Cursor.reads_append_iff.mp reads
    have taken := Cursor.reads_singleton_iff.mp readsLast
    have closes : c₁.AtClosing := .of_take? taken (by simp [right])
    simp only [yields_bind, yields_expect, yields_pure]
    exact ⟨tree, c₁, complete.expression h reads spells (closes.endsPhrase (by decide)), closing,
      c', ⟨reads.left_lt h, right, taken⟩, h', rfl, rfl⟩
  | conditional isWord left spells right spellsBody spans =>
    exact ⟨_, _, _, rfl, afterFirst?_of_isKeyword isWord, fun c h reads =>
      complete.conditional h reads left spells right spellsBody spans ends⟩
  | conditionalElse isWord left spells right spellsBody isElse spellsElse spans =>
    exact ⟨_, _, _, rfl, afterFirst?_of_isKeyword isWord, fun c h reads =>
      complete.conditionalElse h reads left spells right spellsBody isElse spellsElse spans⟩
  | forLoop isWord left spells₁ isComma spells₂ isComma' spells₃ right spellsBody spans =>
    exact ⟨_, _, _, rfl, afterFirst?_of_isKeyword isWord, fun c h reads =>
      complete.forLoop h reads left spells₁ isComma spells₂ isComma' spells₃ right spellsBody
        spans⟩
  | whileLoop isWord left spells right spellsBody spans =>
    exact ⟨_, _, _, rfl, afterFirst?_of_isKeyword isWord, fun c h reads =>
      complete.whileLoop h reads left spells right spellsBody spans⟩
  | function isWord isName left parameters right spellsBody spans =>
    exact ⟨_, _, _, rfl, afterFirst?_of_isKeyword isWord, fun c h reads =>
      complete.function h reads isName left parameters right spellsBody spans⟩

theorem Complete.atom (complete : g.Complete) : g.atom.Complete .atom := by
  intro c w c' tree h reads spells ends
  obtain ⟨t, v, rule, rfl, chosen, yields⟩ := complete.afterFirst spells ends
  obtain ⟨c₁, taken, reads⟩ := Cursor.reads_cons_iff.mp reads
  have h₁ : c₁.left < n := Cursor.left_lt_of_succ taken h
  exact yields_dispatch.mpr (.inl ⟨h, t, c₁, rule, taken, chosen, yields h₁ reads⟩)

theorem Complete.call (complete : g.Complete) : g.call.Complete .call := by
  intro c w c' tree h reads spells ends
  have h' : c'.left < n + 1 := reads.left_lt h
  simp only [Grammar.call, yields_bind, yields_within, yields_pure, Prod.exists]
  cases spells with
  | uncalled spells =>
    -- where a call ends, no bracket comes next that could make it one
    have ends' : c'.EndsPhrase .atom := fun t head isElse => ends t head (.inl isElse)
    refine ⟨tree, c', complete.atom h reads spells ends', .inr ⟨fun t head => ?_, h', rfl, rfl⟩⟩
    rw [← Bool.not_eq_true]
    exact fun left => ends t head (.inr (.inl (beq_iff_eq.mp left)))
  | @call u v opening closing callee arguments spells left spellsEach right =>
    rw [List.append_assoc, Cursor.reads_append_iff] at reads
    obtain ⟨c₁, reads, readsArguments⟩ := reads
    obtain ⟨c₂, taken, readsArguments⟩ := Cursor.reads_cons_iff.mp readsArguments
    have h₁ : c₁.left < n + 1 := reads.left_lt h
    have h₂ : c₂.left < n := Cursor.left_lt_of_succ taken h₁
    -- the bracket that opens the arguments is no `else`
    have ends' : c₁.EndsPhrase .atom := by
      intro t head isElse
      obtain rfl : opening = t := Cursor.eq_of_take? taken head
      simp [Token.kind_of_isKeyword isElse] at left
    exact ⟨callee, c₁, complete.atom h reads spells ends', .inl ⟨h₁, opening, c₂, taken,
      by simp [left], arguments, closing.stop, c',
      complete.arguments h₂ readsArguments spellsEach right,
      readsArguments.left_lt h₂, rfl, rfl⟩⟩

/-! ### Levels of operators -/

/-- Operands are read with their sign or without one, if phrases without the sign cannot be taken
for ones that have it. -/
theorem Complete.underOperator {isOperator : Token.Kind → Bool} {operand : Rule n Tree}
    {bare : Rule (n + 1) Tree} {p q : Phrase} (operandComplete : operand.Complete p)
    (bareComplete : bare.Complete q)
    (cases : ∀ ⦃w tree⦄, Spells p w tree → Spells q w tree ∨ ∃ t v operand,
      w = t :: v ∧ tree = .unary t operand ∧ isOperator t.kind ∧ Spells p v operand)
    (begins : ∀ ⦃t⦄, q.Begins t → isOperator t.kind = false)
    (endsPhrase : ∀ ⦃c : Cursor⦄, c.EndsPhrase p → c.EndsPhrase q) :
    (underOperator isOperator operand bare).Complete p := by
  intro c w c' tree h reads spells ends
  simp only [Grammar.underOperator, yields_within, yields_bind, yields_pure]
  rcases cases spells with spells | ⟨t, v, operand, rfl, rfl, operator, spells⟩
  -- without the sign the phrase begins otherwise, so that no sign is read
  · refine .inr ⟨fun t head => ?_, bareComplete h reads spells (endsPhrase ends)⟩
    obtain ⟨u, v, rfl, begin⟩ := spells.begins
    obtain rfl : u = t := reads.eq_head head
    exact begins begin
  · obtain ⟨c₁, taken, reads⟩ := Cursor.reads_cons_iff.mp reads
    have h₁ : c₁.left < n := Cursor.left_lt_of_succ taken h
    exact .inl ⟨h, t, c₁, taken, operator, operand, c', operandComplete h₁ reads spells ends,
      reads.left_lt h₁, rfl, rfl⟩

/-- Assignments are read as such, and anything else by the other rule. -/
theorem Complete.assignmentOr (complete : g.Complete) {other : Rule (n + 1) Tree}
    (otherComplete : other.Complete (.joined .conditions)) :
    (g.assignmentOr other).Complete .expression := by
  intro c w c' tree h reads spells ends
  simp only [Grammar.assignmentOr, yields_within, yields_bind, yields_expect, yields_pure]
  cases spells with
  | @assignment word name equals v value isLet isName isAssign spells =>
    simp only [Cursor.reads_cons_iff] at reads
    obtain ⟨c₁, taken₁, c₂, taken₂, c₃, taken₃, reads⟩ := reads
    have h₁ : c₁.left < n := Cursor.left_lt_of_succ taken₁ h
    have h₂ : c₂.left < n := Cursor.left_lt_trans taken₂ h₁
    have h₃ : c₃.left < n := Cursor.left_lt_trans taken₃ h₂
    exact .inl ⟨h, word, c₁, taken₁, isLet, name, c₂, ⟨h₁, isName, taken₂⟩, equals, c₃,
      ⟨h₂, isAssign, taken₃⟩, value, c', complete.expression h₃ reads spells ends,
      reads.left_lt h₃, rfl, rfl⟩
  | conditions spells =>
    -- no condition begins with the word of an assignment
    refine .inr ⟨fun t head => ?_, otherComplete h reads spells ends⟩
    obtain ⟨u, v, rfl, begins⟩ := spells.begins
    obtain rfl : u = t := reads.eq_head head
    rw [← Bool.not_eq_true]
    exact fun isLet => Token.BeginsComparison.not_isKeyword_letWord begins isLet

/-- Rules for one token more are complete if the rules for nested parts are. -/
theorem Complete.next (complete : g.Complete) : g.next.Complete := by
  -- from the level that binds closest up to expressions
  have factor : g.next.factor.Complete .factor := by
    rw [next_factor]
    refine Complete.underOperator complete.factor complete.call (fun w tree spells => ?_)
      (fun t begins => Token.BeginsAtom.not_isAdditive begins) fun _ ends => ends
    cases spells with
    | signed sign spells =>
      exact .inr ⟨_, _, _, rfl, rfl, by simpa [isAdditive] using sign, spells⟩
    | unsigned spells => exact .inl spells
  have arithmetic : g.next.arithmetic.Complete (.joined .sums) :=
    factor.binaryChain.binaryChain
  have comparison : g.next.comparison.Complete .comparison := by
    rw [next_comparison]
    refine Complete.underOperator complete.comparison arithmetic.binaryChain.pin
      (fun w tree spells => ?_)
      (fun t begins => beq_eq_false_iff_ne.mpr (Token.BeginsFactor.kind_ne_not begins))
      fun _ ends => ends
    cases spells with
    | negation sign spells => exact .inr ⟨_, _, _, rfl, rfl, by simpa using sign, spells⟩
    | relations spells => exact .inl spells
  exact ⟨complete.assignmentOr comparison.binaryChain.pin, comparison, arithmetic, factor,
    fun _ => refuses_next⟩

/-- The rules for any number of tokens are complete. -/
theorem complete_upTo (n : Nat) : (upTo n).Complete := by
  induction n with
  | zero =>
    have never {rule : Rule 0 Tree} {p : Phrase} : rule.Complete p :=
      fun _ _ _ _ h => absurd h (Nat.not_lt_zero _)
    exact ⟨never, never, never, never, fun _ h => absurd h (Nat.not_lt_zero _)⟩
  | succ n complete => exact complete.next

end Grammar

/-- A whole script is read as a tree exactly where its tokens spell that tree. -/
theorem Grammar.script_eq_ok_iff {c : Cursor} {tree : Tree} :
    Grammar.script c = .ok tree ↔ Spells .statements c.ahead tree := by
  -- the bound leaves room for every token, so that it is never what stops a rule
  have h : c.left < c.left + 1 := Nat.lt_succ_self _
  constructor
  · intro eq
    unfold Grammar.script at eq
    split at eq
    · cases eq
    next r ok =>
    split at eq
    · next atEnd =>
      cases eq
      have yields : (Rule.statements (Grammar.upTo (c.left + 1)).expression).Yields c r.value
          r.next := ⟨h, r.left_le, ok⟩
      obtain ⟨w, reads, spells⟩ := (Grammar.sound_upTo _).expression.statements yields
      have ahead := reads.ahead
      rw [List.isEmpty_iff.mp atEnd, List.append_nil] at ahead
      rwa [ahead]
    · cases eq
  · intro spells
    -- at the end of input every phrase ends
    let c' : Cursor := ⟨c.ahead.reverse ++ c.passed, [], c.final⟩
    have reads : c.Reads c.ahead c' := ⟨(List.append_nil _).symm, rfl, rfl⟩
    have ends : c'.EndsPhrase .statements := fun t head => absurd head (by simp [c'])
    have yields : (Rule.statements (Grammar.upTo (c.left + 1)).expression).Yields c tree c' :=
      (Grammar.complete_upTo (c.left + 1)).statements h reads spells ends
    obtain ⟨_, _, ok⟩ := yields
    rw [Grammar.script, ok]
    rfl

/-- The grammar is what the parser accepts and its derivations are what the parser builds:
tokens up to the end of input have a tree exactly where they spell one, and then that tree. A
list of tokens spells one tree at most. -/
theorem Tree.ofTokens_eq_ok_iff (tokens : List Token) :
    (∀ tree, Tree.ofTokens tokens = .ok tree ↔
      Spells .statements (tokens.takeWhile (·.kind != .endOfInput)) tree) ∧
    (∀ tree tree', Spells .statements tokens tree → Spells .statements tokens tree' →
      tree = tree') := by
  constructor
  · intro tree
    have script : Grammar.script (Cursor.ofTokens tokens) = .ok tree ↔
        Spells .statements (tokens.takeWhile (·.kind != .endOfInput)) tree :=
      Grammar.script_eq_ok_iff
    rw [← script, Tree.ofTokens]
    cases Grammar.script (Cursor.ofTokens tokens) with
    | error f => exact ⟨nofun, nofun⟩
    | ok t => exact ⟨fun eq => by cases eq; rfl, fun eq => by cases eq; rfl⟩
  · intro tree tree' spells spells'
    -- one cursor cannot have two results, and completeness gives each tree as its result
    obtain ⟨c, rfl⟩ : ∃ c : Cursor, c.ahead = tokens :=
      ⟨{ Cursor.ofTokens tokens with ahead := tokens }, rfl⟩
    have ok := Grammar.script_eq_ok_iff.mpr spells
    have ok' := Grammar.script_eq_ok_iff.mpr spells'
    rw [ok] at ok'
    exact Except.ok.inj ok'

end Scriptlet
