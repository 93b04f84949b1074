import Scriptlet.Proofs.Syntax.Extent
import Scriptlet.Proofs.Syntax.Viable
import Scriptlet.Tokenizing

/-!
# Where errors of syntax point

Most errors of syntax point at the token where something is missing. The one that does not points
at the expression that stands in the place of an assignment in the header of a `for` loop. That
expression has been read before it is blamed, so that it too is spelled by tokens of the script. It
is also the one error that quotes nothing in the middle of a script.

## Main definitions

* `Cursor.Spelled` — some of the tokens ahead spell an expression
* `Rule.Locates` — where the rule misses an assignment, tokens ahead spell what stands in its place

## Main results

* `Grammar.locates_upTo` — the rules for any number of tokens do so
* `Grammar.script_error_spans` — an error is about one token or about some in a row
* `Tree.found_ofTokens` — what an error quotes
-/

namespace Scriptlet

/-- Some of the tokens ahead spell this expression. -/
def Cursor.Spelled (c : Cursor) (tree : Tree) : Prop :=
  ∃ w, w <:+: c.ahead ∧ Spells .expression w tree

theorem Cursor.Spelled.of_suffix {c c₁ : Cursor} {tree : Tree} (h : c₁.Spelled tree)
    (suffix : c₁.ahead <:+ c.ahead) : c.Spelled tree := by
  obtain ⟨w, inside, spells⟩ := h
  exact ⟨w, inside.trans suffix.isInfix, spells⟩

/-- What is ahead behind some tokens was ahead before them. -/
theorem Cursor.Reads.suffix {c c' : Cursor} {w : List Token} (h : c.Reads w c') :
    c'.ahead <:+ c.ahead :=
  ⟨w, h.ahead.symm⟩

theorem Cursor.suffix_of_take? {c c₁ : Cursor} {t : Token} (h : c.take? = some (t, c₁)) :
    c₁.ahead <:+ c.ahead :=
  (Cursor.reads_singleton_iff.mpr h).suffix

/-- What comes next behind some of the tokens is another of them, or the end of input. -/
theorem Cursor.Reads.current_mem {c c' : Cursor} {w : List Token} (h : c.Reads w c') :
    c'.current ∈ c.ahead ++ [c.final] := by
  rw [h.ahead, ← h.final, List.append_assoc]
  apply List.mem_append_right
  cases ahead : c'.ahead with
  | nil => simp [current, ahead]
  | cons t rest => simp [current, ahead]

namespace Rule

variable {m n size : Nat} {α β : Type} {rule other : Rule n α}

/-- At cursors with fewer than `size` tokens ahead, the rule reads tokens ahead; and where it misses
an assignment, tokens ahead spell what stands in its place. -/
structure Locates (size : Nat) (rule : Rule n α) : Prop where
  reads {c a c'} : c.left < size → rule.Yields c a c' → c'.ahead <:+ c.ahead
  spelled {c initial d} : c.left < size → rule.Fails c ⟨.notAssignment initial, d⟩ →
    c.Spelled initial

namespace Locates

protected theorem pure {a : α} : (pure a : Rule n α).Locates size where
  reads _ yields := by
    obtain ⟨-, -, rfl⟩ := yields_pure.mp yields
    exact List.suffix_rfl
  spelled _ failed := absurd failed not_fails_pure

theorem missing {kind : ParseError.Kind} : (missing kind : Rule n α).Locates size where
  reads _ yields := absurd yields not_yields_missing
  spelled _ failed := by
    obtain ⟨-, eq⟩ := fails_missing.mp failed
    cases eq

theorem here : (here : Rule n Position).Locates size where
  reads _ yields := by
    obtain ⟨-, -, rfl⟩ := yields_here.mp yields
    exact List.suffix_rfl
  spelled _ failed := absurd failed not_fails_here

theorem lastStop : (lastStop : Rule n Position).Locates size where
  reads _ yields := by
    obtain ⟨-, -, rfl⟩ := yields_lastStop.mp yields
    exact List.suffix_rfl
  spelled _ failed := absurd failed not_fails_lastStop

/-- Separators are among the tokens ahead. -/
theorem skipSeparators : (skipSeparators : Rule n Unit).Locates size where
  reads _ yields := by
    obtain ⟨-, rfl⟩ := yields_skipSeparators.mp yields
    exact (Cursor.reads_skipSeparators _).suffix
  spelled _ failed := absurd failed not_fails_skipSeparators

protected theorem bind {next : α → Rule n β} (first : rule.Locates size)
    (second : ∀ a, (next a).Locates size) : (rule >>= next).Locates size where
  reads lt yields := by
    obtain ⟨a, c₁, yields, further⟩ := yields_bind.mp yields
    have lt₁ := Nat.lt_of_le_of_lt yields.left_le lt
    exact ((second a).reads lt₁ further).trans (first.reads lt yields)
  spelled lt failed := by
    rcases fails_bind.mp failed with failed | ⟨a, c₁, yields, failed⟩
    · exact first.spelled lt failed
    · have lt₁ := Nat.lt_of_le_of_lt yields.left_le lt
      exact ((second a).spelled lt₁ failed).of_suffix (first.reads lt yields)

/-- The rule that is chosen has one token less ahead. -/
theorem onNext (room : n ≤ m + 1) {choose : Token → Option (Rule m α)}
    (chosen : ∀ {size'}, size' < size → ∀ t rule, choose t = some rule → rule.Locates size')
    (others : other.Locates size) : (onNext room choose other).Locates size where
  reads lt yields := by
    rcases yields_onNext.mp yields with ⟨-, t, c₁, rule, taken, eq, yields⟩ | ⟨-, yields⟩
    · have shorter := Cursor.left_lt_of_take? taken
      exact ((chosen lt t rule eq).reads shorter yields).trans (Cursor.suffix_of_take? taken)
    · exact others.reads lt yields
  spelled lt failed := by
    rcases fails_onNext.mp failed with ⟨-, t, c₁, rule, taken, eq, failed⟩ | ⟨-, failed⟩
    · have shorter := Cursor.left_lt_of_take? taken
      exact ((chosen lt t rule eq).spelled shorter failed).of_suffix (Cursor.suffix_of_take? taken)
    · exact others.spelled lt failed

/-- A choice between going on and another rule is one by the next token. -/
theorem onNextIf (room : n ≤ m + 1) {asked : Token → Bool} {after : Token → Rule m α}
    (behind : ∀ {size'}, size' < size → ∀ t, (after t).Locates size')
    (others : other.Locates size) :
    (Rule.onNext room (fun t => if asked t then some (after t) else none) other).Locates size := by
  refine onNext room (fun smaller t rule chosen => ?_) others
  obtain ⟨-, eq⟩ := Option.ite_none_right_eq_some.mp chosen
  exact Option.some.inj eq ▸ behind smaller t

theorem ifNext {asked : Token → Bool} {after : Token → Rule n α}
    (behind : ∀ {size'}, size' < size → ∀ t, (after t).Locates size')
    (others : other.Locates size) : (ifNext asked after other).Locates size :=
  onNextIf (Nat.le_succ n) behind others

theorem within {asked : Token → Bool} {after : Token → Rule n α} {other : Rule (n + 1) α}
    (behind : ∀ {size'}, size' < size → ∀ t, (after t).Locates size')
    (others : other.Locates size) : (within asked after other).Locates size :=
  onNextIf (Nat.le_refl _) behind others

theorem expect {kind : Token.Kind} {what : Expectation} :
    (expect kind what : Rule n Token).Locates size :=
  ifNext (fun _ _ => .pure) missing

/-- A failure that is reported in other terms misses no assignment. -/
theorem pin {kind : ParseError.Kind} (locates : rule.Locates size) :
    (pin kind rule).Locates size where
  reads lt yields := locates.reads lt (yields_pin.mp yields)
  spelled lt failed := by
    obtain ⟨f, inside, eq⟩ := fails_pin.mp failed
    split at eq
    · cases eq
    · exact locates.spelled lt (eq ▸ inside)

/-! ### Loops

In each round a token is read, so that the induction is on the tokens ahead. -/

theorem binaryChainFrom {isOperator : Token.Kind → Bool} {operand : Rule n Tree} {left : Tree}
    (operands : ∀ {size}, operand.Locates size) :
    (binaryChainFrom isOperator operand left).Locates size := by
  induction size using Nat.strongRecOn generalizing left with
  | ind size ih =>
    rw [binaryChainFrom_eq]
    exact ifNext (fun smaller t => operands.bind fun right => ih _ smaller) .pure

theorem binaryChain {isOperator : Token.Kind → Bool} {operand : Rule n Tree}
    (operands : ∀ {size}, operand.Locates size) : (binaryChain isOperator operand).Locates size :=
  operands.bind fun _ => binaryChainFrom operands

theorem afterCommas {item : Rule n α} (items : ∀ {size}, item.Locates size) :
    (afterCommas item).Locates size := by
  induction size using Nat.strongRecOn with
  | ind size ih =>
    rw [afterCommas_eq]
    exact ifNext (fun smaller _ => items.bind fun _ => (ih _ smaller).bind fun _ => .pure) .pure

/-- A statement behind separators stands among the tokens ahead of them. -/
theorem furtherStatements {statement : Rule n Tree} (each : ∀ {size}, statement.Locates size) :
    (furtherStatements statement).Locates size := by
  induction size using Nat.strongRecOn with
  | ind size ih =>
  constructor
  case reads =>
    intro c trees c' lt yields
    -- what is missed behind separators is ahead of them too
    have skipped := c.reads_skipSeparators.suffix
    rcases yields_furtherStatements.mp yields with
      ⟨shorter, -, tree, c₁, others, -, read, further⟩ | ⟨-, -, -, -, rfl⟩ | ⟨-, -, -, rfl⟩
    · have rest := (ih _ lt).reads (Nat.lt_of_le_of_lt read.left_le shorter) further
      exact rest.trans ((each.reads shorter read).trans skipped)
    · exact skipped
    · exact List.suffix_rfl
  case spelled =>
    intro c initial d lt failed
    have skipped := c.reads_skipSeparators.suffix
    obtain ⟨shorter, -, ⟨failed, -⟩ | ⟨tree, c₁, read, failed⟩⟩ := fails_furtherStatements.mp failed
    · exact (each.spelled shorter failed).of_suffix skipped
    · have rest := (ih _ lt).spelled (Nat.lt_of_le_of_lt read.left_le shorter) failed
      exact rest.of_suffix ((each.reads shorter read).trans skipped)

/-- Statements locate what they miss if each of them does. -/
theorem statements {statement : Rule n Tree} (each : ∀ {size}, statement.Locates size) :
    (statements statement).Locates size :=
  here.bind fun _ => skipSeparators.bind fun _ => each.bind fun _ =>
    (furtherStatements each).bind fun _ => lastStop.bind fun _ => .pure

end Locates

end Rule

namespace Grammar

open Rule

variable {n size : Nat} {α : Type}

/-- The rules of a grammar read tokens ahead, and tokens ahead spell what stands in the place of an
assignment. -/
structure Locates (g : Grammar n) : Prop where
  expression : ∀ {size}, g.expression.Locates size
  comparison : ∀ {size}, g.comparison.Locates size
  arithmetic : ∀ {size}, g.arithmetic.Locates size
  factor : ∀ {size}, g.factor.Locates size

variable {g : Grammar n} {start : Position}

/-! ### Brackets -/

theorem locates_parenthesised {inside : Rule n α} (locates : ∀ {size}, inside.Locates size) :
    (parenthesised inside).Locates size :=
  Rule.Locates.expect.bind fun _ => locates.bind fun _ => Rule.Locates.expect.bind fun _ => .pure

theorem Locates.block (h : g.Locates) : g.block.Locates size :=
  Rule.Locates.expect.bind fun _ => (Rule.Locates.statements h.expression).bind fun _ =>
    Rule.Locates.expect.bind fun _ => .pure

theorem Locates.arguments (h : g.Locates) : g.arguments.Locates size :=
  .ifNext (fun _ _ => .pure)
    (h.expression.pin.bind fun _ => (Rule.Locates.afterCommas h.expression).bind fun _ =>
      Rule.Locates.expect.bind fun _ => .pure)

/-- Parameters hold no expressions, and so they miss no assignment. -/
theorem locates_parameters : (parameters : Rule n (List Token)).Locates size :=
  .ifNext
    (fun _ _ => (Rule.Locates.afterCommas .expect).bind fun _ =>
      Rule.Locates.expect.bind fun _ => .pure)
    (Rule.Locates.expect.bind fun _ => .pure)

/-! ### Compound expressions -/

theorem Locates.conditional (h : g.Locates) : (g.conditional start).Locates size :=
  (locates_parenthesised h.expression).bind fun _ => h.block.bind fun _ =>
    (Rule.Locates.ifNext (fun _ _ => h.block.bind fun _ => .pure) .pure).bind fun _ => .pure

theorem Locates.afterAssignment (h : g.Locates) {letStart : Position} {name : Token}
    {initial : Tree} : (g.afterAssignment start letStart name initial).Locates size :=
  Rule.Locates.expect.bind fun _ => h.comparison.bind fun _ => Rule.Locates.expect.bind fun _ =>
    h.arithmetic.bind fun _ => Rule.Locates.expect.bind fun _ => h.block.bind fun _ => .pure

/-- Where the first part of the header is no assignment, it has been read just before. -/
theorem Locates.forLoop (h : g.Locates) (sound : g.Sound) : (g.forLoop start).Locates size := by
  rw [forLoop_eq]
  refine Rule.Locates.expect.bind fun _ => ⟨fun lt yields => ?_, fun lt failed => ?_⟩
  · obtain ⟨initial, c₁, read, further⟩ := yields_bind.mp yields
    have lt₁ := Nat.lt_of_le_of_lt read.left_le lt
    cases initial with
    | assignment letStart name value =>
      exact (h.afterAssignment.reads lt₁ further).trans (h.expression.reads lt read)
    | _ => exact absurd further not_yields_fail
  · rcases fails_bind.mp failed with failed | ⟨initial, c₁, read, failed⟩
    · exact h.expression.spelled lt failed
    have lt₁ := Nat.lt_of_le_of_lt read.left_le lt
    -- what is read in place of the assignment has been spelled by the tokens before the failure
    obtain ⟨w, reads, spells⟩ := sound.expression read
    cases initial with
    | assignment letStart name value =>
      exact (h.afterAssignment.spelled lt₁ failed).of_suffix reads.suffix
    | _ =>
      obtain ⟨-, eq⟩ := fails_fail.mp failed
      cases eq
      exact ⟨w, ⟨[], _, reads.ahead.symm⟩, spells⟩

theorem Locates.whileLoop (h : g.Locates) : (g.whileLoop start).Locates size :=
  (locates_parenthesised h.expression).bind fun _ => h.block.bind fun _ => .pure

theorem Locates.function (h : g.Locates) : (g.function start).Locates size :=
  Rule.Locates.expect.bind fun _ => Rule.Locates.expect.bind fun _ =>
    locates_parameters.bind fun _ => h.block.bind fun _ => .pure

/-- A `for` loop is the one expression that can miss an assignment. -/
theorem Locates.afterWord? (h : g.Locates) (sound : g.Sound) {word : Keyword} {rule : Rule n Tree}
    (chosen : g.afterWord? start word = some rule) : rule.Locates size := by
  cases word <;> cases chosen
  case ifWord => exact h.conditional
  case forWord => exact h.forLoop sound
  case whileWord => exact h.whileLoop
  case funcWord => exact h.function

/-! ### Atoms and calls -/

theorem Locates.afterFirst? (h : g.Locates) (sound : g.Sound) {t : Token} {rule : Rule n Tree}
    (chosen : g.afterFirst? t = some rule) : rule.Locates size := by
  unfold Grammar.afterFirst? at chosen
  split at chosen
  case h_5 =>
    cases chosen
    exact h.expression.bind fun _ => Rule.Locates.expect.bind fun _ => .pure
  case h_6 =>
    obtain ⟨word, -, chosen⟩ := Option.bind_eq_some_iff.mp chosen
    exact h.afterWord? sound chosen
  case h_7 => cases chosen
  all_goals
    cases chosen
    exact .pure

theorem Locates.atom (h : g.Locates) (sound : g.Sound) : g.atom.Locates size :=
  .onNext (Nat.le_refl _) (fun _ _ _ chosen => h.afterFirst? sound chosen) .missing

theorem Locates.call (h : g.Locates) (sound : g.Sound) : g.call.Locates size :=
  (h.atom sound).bind fun _ => .within (fun _ _ => h.arguments.bind fun _ => .pure) .pure

/-! ### Levels of operators -/

theorem locates_underOperator {isOperator : Token.Kind → Bool} {operand : Rule n Tree}
    {bare : Rule (n + 1) Tree} (operands : ∀ {size}, operand.Locates size)
    (bares : bare.Locates size) : (underOperator isOperator operand bare).Locates size :=
  .within (fun _ _ => operands.bind fun _ => .pure) bares

theorem Locates.assignmentOr (h : g.Locates) {other : Rule (n + 1) Tree}
    (others : other.Locates size) : (g.assignmentOr other).Locates size :=
  .within (fun _ _ => Rule.Locates.expect.bind fun _ => Rule.Locates.expect.bind fun _ =>
    h.expression.bind fun _ => .pure) others

/-- Rules for one token more locate what they miss if the rules for nested parts do. -/
theorem Locates.next (h : g.Locates) (sound : g.Sound) : g.next.Locates := by
  have factor {size} : g.next.factor.Locates size := locates_underOperator h.factor (h.call sound)
  have arithmetic {size} : g.next.arithmetic.Locates size := .binaryChain (.binaryChain factor)
  have comparison {size} : g.next.comparison.Locates size := by
    rw [next_comparison]
    exact locates_underOperator h.comparison (.pin (.binaryChain arithmetic))
  exact ⟨h.assignmentOr (.pin (.binaryChain comparison)), comparison, arithmetic, factor⟩

/-- The rules for any number of tokens locate what they miss. -/
theorem locates_upTo (n : Nat) : (upTo n).Locates := by
  induction n with
  | zero =>
    have never {size} {rule : Rule 0 Tree} : rule.Locates size :=
      ⟨fun _ yields => absurd yields.lt (Nat.not_lt_zero _),
        fun _ failed => absurd failed.lt (Nat.not_lt_zero _)⟩
    exact ⟨never, never, never, never⟩
  | succ n h => exact h.next (sound_upTo n)

/-- What stands in a script in the place of an assignment is spelled by tokens of the script. -/
theorem spelled_of_script {c d : Cursor} {initial : Tree}
    (failed : script c = .error ⟨.notAssignment initial, d⟩) : c.Spelled initial := by
  rcases script_eq_error_iff.mp failed with fails | ⟨_, _, _, _, eq⟩
  · exact (Rule.Locates.statements (locates_upTo _).expression).spelled (Nat.lt_succ_self _) fails
  · cases eq

/-- An error of syntax is about a token, that for the end of input included, or about some tokens in
a row. -/
theorem script_error_spans {c : Cursor} {f : Failure} (failed : script c = .error f) :
    (∃ t ∈ c.ahead ++ [c.final], f.toError.start = t.start ∧ f.toError.stop = t.stop) ∨
      ∃ part, part <:+: c.ahead ∧ Spans part f.toError.start f.toError.stop := by
  cases cause : f.cause with
  | missing kind =>
    obtain ⟨w, v, reads, -⟩ := exists_derives_of_missing failed cause
    rw [Failure.toError, cause]
    exact .inl ⟨_, reads.current_mem, rfl, rfl⟩
  | notAssignment initial =>
    obtain ⟨cause', d⟩ := f
    obtain rfl : cause' = .notAssignment initial := cause
    obtain ⟨w, inside, spells⟩ := spelled_of_script failed
    obtain ⟨part, inside', covers⟩ := spells.covers.self
    exact .inr ⟨part, inside'.trans inside, covers.spans⟩

end Grammar

/-! ### What is found -/

/-- The tokens of a list that count are those before the first end of input. -/
theorem Cursor.length_ahead_ofTokens (tokens : List Token) :
    (Cursor.ofTokens tokens).ahead.length = tokens.findIdx (·.kind == .endOfInput) := by
  change (tokens.takeWhile (·.kind != .endOfInput)).length = _
  induction tokens with
  | nil => rfl
  | cons t rest ih =>
    by_cases isEnd : t.kind = .endOfInput
    · simp [List.findIdx_cons, isEnd]
    · have goesOn : (t.kind == Token.Kind.endOfInput) = false := beq_eq_false_iff_ne.mpr isEnd
      simp [List.findIdx_cons, goesOn, isEnd, ih]

/-- Where something is missing, an error of syntax quotes the token that stands there, and quotes
nothing if that is the end of input. Only where an assignment is missing in the header of a `for`
loop is nothing quoted although the expression in its place begins with a token. -/
theorem Tree.found_ofTokens {tokens : List Token} {e : ParseError}
    (failed : Tree.ofTokens tokens = .error e) :
    ∃ f, Grammar.script (Cursor.ofTokens tokens) = .error f ∧ e = f.toError ∧
      let k := f.cursor.passed.length
      let last := tokens.findIdx (·.kind == .endOfInput)
      let offending := tokens[k]?.getD (Cursor.ofTokens tokens).final
      ((∃ kind, f.cause = .missing kind) ∧ e.start = offending.start ∧ e.stop = offending.stop ∧
          (e.found = none ↔ k = last) ∧ (k ≠ last → e.found = some offending.lexeme)) ∨
        ∃ initial, f.cause = .notAssignment initial ∧ e.kind = .expected .letAssignment ∧
          e.found = none ∧ (Cursor.ofTokens tokens).Spelled initial ∧ e.stop = initial.stop ∧
          ∃ j < last, tokens[j]?.map Token.start = some e.start := by
  rw [Tree.ofTokens] at failed
  cases parsed : Grammar.script (Cursor.ofTokens tokens) with
  | ok tree =>
    rw [parsed] at failed
    cases failed
  | error f =>
  rw [parsed] at failed
  obtain rfl : f.toError = e := Except.error.inj failed
  refine ⟨f, rfl, rfl, ?_⟩
  have length := Cursor.length_ahead_ofTokens tokens
  cases cause : f.cause with
  | missing kind =>
    obtain ⟨w, v, reads, -⟩ := Grammar.exists_derives_of_missing parsed cause
    -- the tokens read are all there are before the end of input, or some come next
    have atEnd : f.cursor.passed.length = tokens.findIdx (·.kind == .endOfInput) ↔
        f.cursor.ahead = [] := by
      have passed : f.cursor.passed.length = w.length := by simp [reads.passed, Cursor.ofTokens]
      rw [← length, reads.ahead, passed, List.length_append, ← List.length_eq_zero_iff]
      omega
    simp only [reads.ofTokens.2]
    refine .inl ⟨⟨kind, rfl⟩, ?_, ?_, ?_, ?_⟩
    · rw [Failure.toError, cause]
    · rw [Failure.toError, cause]
    · simp [Failure.toError, cause, atEnd]
    · intro before
      obtain ⟨t, rest, ahead⟩ := List.exists_cons_of_ne_nil (mt atEnd.mpr before)
      simp [Failure.toError, cause, ahead, Cursor.current]
  | notAssignment initial =>
    obtain ⟨cause', d⟩ := f
    obtain rfl : cause' = .notAssignment initial := cause
    have spelled := Grammar.spelled_of_script parsed
    refine .inr ⟨initial, rfl, rfl, rfl, spelled, rfl, ?_⟩
    obtain ⟨w, inside, spells⟩ := spelled
    -- the expression in place of the assignment begins with a token of its own
    obtain ⟨part, inside', covers⟩ := spells.covers.self
    obtain ⟨⟨t, mem, start⟩, -⟩ := covers.spans.exists_mem
    obtain ⟨j, lt, eq⟩ := List.getElem_of_mem ((inside'.trans inside).subset mem)
    have counted : (Cursor.ofTokens tokens).ahead <+: tokens := List.takeWhile_prefix _
    have stands : tokens[j]? = some t := by
      rw [← eq, counted.getElem lt]
      exact List.getElem?_eq_getElem _
    refine ⟨j, length ▸ lt, ?_⟩
    rw [stands]
    exact congrArg some start.symm

theorem Tree.found_ofTokens_equals :
    let tokens := (Source.tokens ⟨"", "let = 1"⟩).toOption.getD []
    ∃ e f, Tree.ofTokens tokens = .error e ∧ Grammar.script (Cursor.ofTokens tokens) = .error f ∧
      f.cursor.passed.length = 1 ∧ e.found = some "=" := by
  intro tokens
  have fails : ((Tree.ofTokens tokens).map fun _ => ()).mapError (·.kind) =
      .error (.expected .identifier) := by
    decide +kernel
  have number : ((Grammar.script (Cursor.ofTokens tokens)).map fun _ => ()).mapError
      (·.cursor.passed.length) = .error 1 := by
    decide +kernel
  cases failed : Tree.ofTokens tokens with
  | ok tree =>
    rw [failed] at fails
    cases fails
  | error e =>
    rw [failed] at fails
    have kind : e.kind = .expected .identifier := Except.error.inj fails
    obtain ⟨f, parsed, -, found⟩ := Tree.found_ofTokens failed
    rw [parsed] at number
    have one : f.cursor.passed.length = 1 := Except.error.inj number
    refine ⟨e, f, rfl, parsed, one, ?_⟩
    simp only [one] at found
    rcases found with ⟨-, -, -, -, quoted⟩ | ⟨_, -, assignment, -⟩
    · exact (quoted (by decide +kernel)).trans (by decide +kernel)
    · rw [kind] at assignment
      cases assignment

/-- Behind the bracket of a loop header that begins with no assignment nothing is found, although a
name stands there and the end of input does not. -/
theorem Tree.found_ofTokens_reference :
    let tokens := (Source.tokens ⟨"", "for (i"⟩).toOption.getD []
    ∃ e t, Tree.ofTokens tokens = .error e ∧ e.found = none ∧ tokens[2]? = some t ∧
      t.kind = .identifier ∧ t.lexeme = "i" ∧ e.start = t.start ∧
      ∀ u ∈ tokens, u.kind = .endOfInput → u.start ≠ e.start := by
  intro tokens
  let s : Source := ⟨"", "for (i"⟩
  let t : Token := ⟨.identifier, some (.text "i"), ⟨s, 5, 1, 6⟩, ⟨s, 6, 1, 7⟩⟩
  have fails : (Tree.ofTokens tokens).map (fun _ => ()) =
      .error ⟨.expected .letAssignment, none, t.start, t.stop⟩ := by
    decide +kernel
  cases failed : Tree.ofTokens tokens with
  | ok tree =>
    rw [failed] at fails
    cases fails
  | error e =>
    rw [failed] at fails
    cases fails
    exact ⟨_, t, rfl, rfl, by decide +kernel, rfl, by decide, rfl, by decide +kernel⟩

end Scriptlet
