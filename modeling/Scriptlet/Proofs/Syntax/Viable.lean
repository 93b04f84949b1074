import Mathlib.Data.List.TakeWhile
import Scriptlet.Proofs.Syntax.Completeness
import Scriptlet.Proofs.Syntax.Recognition
import Scriptlet.Proofs.Syntax.SideBySide

/-!
# Errors stand at the first token that is wrong

The rules of the grammar recognize the words of its productions. What has been read where something
is missing can therefore be completed to a script, and a script is read to its end unless the
header of a `for` loop has no assignment. As rules look one token ahead only, the token at which
something is missing cannot stand there in any script.

## Main definitions

* `Grammar.Recognizes` — the rules of a grammar recognize the words of their parts
* `WholeScript` — a script, and the end of input behind it

## Main results

* `Grammar.recognizes_upTo` — the rules for any number of tokens recognize words
* `Grammar.derives_of_script`, `Grammar.notAssignment_of_derives` — scripts that are accepted are
  words, and words are accepted but for what stands first in a `for` loop
* `Tree.ofTokens_eq_error` — where errors of syntax are reported
-/

namespace Scriptlet

namespace Grammar

open Rule

variable {n size : Nat} {c : Cursor} {barred barred' : Token → Prop}

/-- The rules of a grammar recognize the words of their parts, and no expression is read where none
begins. -/
structure Recognizes (g : Grammar n) : Prop where
  expression : ∀ {size}, g.expression.Recognizes size (Derives [.phrase .expression])
    (Phrase.GoesOnWith .expression)
  comparison : ∀ {size}, g.comparison.Recognizes size (Derives [.phrase .comparison])
    (Phrase.GoesOnWith .comparison)
  arithmetic : ∀ {size}, g.arithmetic.Recognizes size (Derives [.phrase (.joined .sums)])
    (Phrase.GoesOnWith (.joined .sums))
  factor : ∀ {size}, g.factor.Recognizes size (Derives [.phrase .factor])
    (Phrase.GoesOnWith .factor)
  refuses : ∀ {c : Cursor}, c.left < n → (∀ t, c.ahead.head? = some t → ¬ t.BeginsExpression) →
    g.expression.Refuses c

variable {g : Grammar n}

/-! ### Brackets -/

/-- An expression with the bracket that closes it. -/
theorem Recognizes.closed (h : g.Recognizes) {what : Expectation} :
    (do
      let tree ← g.expression
      let _ ← expect .rightParen what
      return tree : Rule n Tree).Recognizes size
      (Derives [.phrase .expression, .kind .rightParen]) barred :=
  h.expression.bind (.closing (by decide) (by decide)) fun _ =>
    Rule.Recognizes.expect.bind .never fun _ => .pure

theorem Recognizes.parenthesised (h : g.Recognizes) :
    (parenthesised g.expression).Recognizes size
      (Derives [.kind .leftParen, .phrase .expression, .kind .rightParen]) barred :=
  Rule.Recognizes.expect.bind .never fun _ => h.closed

theorem Recognizes.block (h : g.Recognizes) :
    g.block.Recognizes size (Derives [.phrase .block]) barred :=
  .ofOnly rfl <| Rule.Recognizes.expect.bind .never fun _ =>
    (Rule.Recognizes.statements h.expression h.refuses).bind
      (.kind fun _ isCurl goesOn => goesOn isCurl) fun _ =>
    Rule.Recognizes.expect.bind .never fun _ => .pure

/-- A list with commas ends before the next comma, or before the bracket behind it. -/
theorem leads_list {p : Part} {s : Symbol}
    (table : productions p = [[], [.kind .comma, s, .part p]])
    (h : ∀ t, t.kind ∈ [.comma, .rightParen] → ¬ barred t) :
    Leads [.part p, .kind .rightParen] barred barred' :=
  .either table (.kind fun t isRight => h t (by simp [isRight]))
    (.kind fun t isComma => h t (by simp [isComma]))

theorem Recognizes.arguments (h : g.Recognizes) :
    g.arguments.Recognizes size (Derives [.part .arguments, .kind .rightParen]) barred := by
  refine .ifNext (a := []) (b := [.phrase .expression, .part .furtherArguments, .kind .rightParen])
    (fun w => ?_) (.phrase (by decide) fun t begins isRight => ?_) (fun _ _ _ => .pure) ?_
  · rw [derives_either rfl]
    simp
  · exact Token.BeginsExpression.kind_not_mem begins (by simp [beq_iff_eq.mp isRight])
  · -- a comma and a bracket end an argument, whatever its level
    have closing {t : Token} (kind : t.kind ∈ [.comma, .rightParen]) :
        ¬ (Phrase.GoesOnWith .expression) t :=
      Phrase.not_goesOnWith_of_closing (by decide) (by
        rcases List.mem_pair.mp kind with kind | kind <;> simp [kind])
    refine (h.expression.pin (exists_derives _)).bind (leads_list rfl fun t => closing) fun _ =>
      (Rule.Recognizes.afterCommas rfl h.expression ?_).bind (.kind ?_) fun _ =>
      Rule.Recognizes.expect.bind .never fun _ => .pure
    · exact fun t isComma => closing (by simp [isComma])
    · rintro t isRight (isComma | goesOn)
      · simp [isRight] at isComma
      · exact closing (by simp [isRight]) goesOn

theorem recognizes_parameters :
    (parameters : Rule n (List Token)).Recognizes size
      (Derives [.part .parameters, .kind .rightParen]) barred := by
  refine .ifNext (a := [.part .furtherParameters, .kind .rightParen]) (b := [.kind .rightParen])
    (fun w => ?_) (.kind fun t isRight => by simp [isRight]) (fun _ _ _ => ?_)
    (Rule.Recognizes.expect.bind .never fun _ => .pure)
  · rw [derives_either rfl]
    simp [or_comm]
  · have names {size} :
        (Rule.afterCommas (Rule.expect .identifier .identifier) : Rule n _).Recognizes size
          (Derives [.part .furtherParameters]) (fun t => t.kind = .comma ∨ False) :=
      .afterCommas rfl .expect fun _ _ => id
    refine names.bind (.kind ?_) fun _ => Rule.Recognizes.expect.bind .never fun _ => .pure
    rintro t isRight (isComma | none)
    · simp [isRight] at isComma
    · exact none

/-! ### Compound expressions -/

section Compound

variable {start : Position}

theorem Recognizes.elsePart (h : g.Recognizes) {stop : Position} :
    (ifNext (·.isKeyword .elseWord)
      (fun _ => do
        let (body, stop) ← g.block
        return (Arms.otherwise body, stop))
      (return (Arms.none, stop)) : Rule n (Arms × Position)).Recognizes size
      (Derives [.part .elsePart]) (Phrase.GoesOnWith .atom) := by
  refine .ifNext (a := [.phrase .block]) (b := []) (fun w => ?_) (.nil fun _ isElse => isElse)
    (fun _ _ _ => h.block.bind .never fun _ => .pure) .pure
  rw [derives_either rfl]
  simp [or_comm]

theorem Recognizes.conditional (h : g.Recognizes) :
    (g.conditional start).Recognizes size
      (Derives [.kind .leftParen, .phrase .expression, .kind .rightParen, .phrase .block,
        .part .elsePart]) (Phrase.GoesOnWith .atom) :=
  h.parenthesised.bind .never fun _ => h.block.bind .never fun _ =>
    h.elsePart.bind (.nil fun _ => id) fun _ => .pure

/-- What follows the first part in the header of a `for` loop. -/
abbrev behindInitial : List Symbol :=
  [.kind .comma, .phrase .comparison, .kind .comma, .phrase (.joined .sums), .kind .rightParen,
    .phrase .block]

theorem Recognizes.afterAssignment (h : g.Recognizes) {letStart : Position} {name : Token}
    {initial : Tree} :
    (g.afterAssignment start letStart name initial).Recognizes size
      (Derives behindInitial) barred :=
  Rule.Recognizes.expect.bind .never fun _ =>
    h.comparison.bind (.closing (by decide) (by decide)) fun _ =>
    Rule.Recognizes.expect.bind .never fun _ =>
    h.arithmetic.bind (.closing (by decide) (by decide)) fun _ =>
    Rule.Recognizes.expect.bind .never fun _ => h.block.bind .never fun _ => .pure

/-- Where the first part of the header is no assignment, the loop is given up behind it. -/
theorem Recognizes.afterInitial (h : g.Recognizes) :
    (g.expression >>= g.afterInitial start).Recognizes size
      (Derives (.phrase .expression :: behindInitial)) barred := by
  refine h.expression.bindOr (.closing (by decide) (by decide)) fun initial => ?_
  by_cases assignment : ∃ letStart name value, initial = .assignment letStart name value
  · obtain ⟨letStart, name, value, rfl⟩ := assignment
    exact .inl h.afterAssignment
  · have failed := afterInitial_eq_fail g start fun letStart name value eq =>
      assignment ⟨letStart, name, value, eq⟩
    exact .inr ⟨not_derives_phrase_nil (by decide), initial, failed⟩

theorem Recognizes.forLoop (h : g.Recognizes) :
    (g.forLoop start).Recognizes size
      (Derives (.kind .leftParen :: .phrase .expression :: behindInitial)) barred :=
  Rule.Recognizes.expect.bind .never fun _ => h.afterInitial

theorem Recognizes.whileLoop (h : g.Recognizes) :
    (g.whileLoop start).Recognizes size
      (Derives [.kind .leftParen, .phrase .expression, .kind .rightParen, .phrase .block])
      barred :=
  h.parenthesised.bind .never fun _ => h.block.bind .never fun _ => .pure

theorem Recognizes.function (h : g.Recognizes) :
    (g.function start).Recognizes size
      (Derives [.kind .identifier, .kind .leftParen, .part .parameters, .kind .rightParen,
        .phrase .block]) barred :=
  Rule.Recognizes.expect.bind .never fun _ => Rule.Recognizes.expect.bind .never fun _ =>
    recognizes_parameters.bind .never fun _ => h.block.bind .never fun _ => .pure

end Compound

/-! ### Atoms and calls -/

/-- The words of an atom by their first tokens. -/
theorem derives_atom_iff {t : Token} {w : List Token} :
    Derives [.phrase .atom] (t :: w) ↔
      t.kind ∈ [.int, .float, .string, .identifier] ∧ Derives [] w ∨
      t.kind = .leftParen ∧ Derives [.phrase .expression, .kind .rightParen] w ∨
      ∃ k rest, t.isKeyword k ∧ .word k :: rest ∈ productions (.phrase .atom) ∧
        Derives rest w := by
  rw [derives_part_iff]
  constructor
  · rintro ⟨production, mem, word⟩
    simp only [productions, List.mem_cons, List.not_mem_nil, or_false] at mem
    rcases mem with rfl | rfl | rfl | rfl | rfl | rfl | rfl | rfl | rfl
    -- four kinds of leaves, the bracket, and four words
    iterate 4
      · obtain ⟨kind, rest⟩ := derives_kind_cons_iff.mp word
        exact .inl ⟨by simp [kind], rest⟩
    · exact .inr (.inl (derives_kind_cons_iff.mp word))
    all_goals
      obtain ⟨isWord, rest⟩ := derives_word_cons_iff.mp word
      exact .inr (.inr ⟨_, _, isWord, by simp [productions], rest⟩)
  · rintro (⟨kind, word⟩ | ⟨kind, word⟩ | ⟨k, rest, isWord, mem, word⟩)
    · have leaf : [.kind t.kind] ∈ productions (.phrase .atom) := by
        simp only [List.mem_cons, List.not_mem_nil, or_false] at kind
        rcases kind with kind | kind | kind | kind <;> simp [productions, kind]
      exact ⟨_, leaf, .kind rfl word⟩
    · exact ⟨[.kind .leftParen, .phrase .expression, .kind .rightParen], by simp [productions],
        .kind kind word⟩
    · exact ⟨_, mem, (List.append_nil (.word k :: rest)).symm ▸ .word isWord word⟩

/-- A word of an atom that begins with a reserved word is one of its production. -/
theorem derives_atom_of_isKeyword {t : Token} {k : Keyword} (isWord : t.isKeyword k)
    {rest : List Symbol} (only : ∀ rest', .word k :: rest' ∈ productions (.phrase .atom) ↔
      rest' = rest) (w : List Token) : Derives [.phrase .atom] (t :: w) ↔ Derives rest w := by
  rw [derives_atom_iff]
  simp only [Token.kind_of_isKeyword isWord]
  constructor
  · rintro (⟨kind, -⟩ | ⟨kind, -⟩ | ⟨k', rest', isWord', mem, word⟩)
    · simp at kind
    · cases kind
    · obtain rfl := Token.isKeyword_inj isWord isWord'
      obtain rfl := (only rest').mp mem
      exact word
  · exact fun word => .inr (.inr ⟨k, rest, isWord, (only rest).mpr rfl, word⟩)

theorem Recognizes.afterWord (h : g.Recognizes) {t : Token} {k : Keyword} (isWord : t.isKeyword k)
    {rule : Rule n Tree} (chosen : g.afterWord? t.start k = some rule) :
    rule.Recognizes size (fun w => Derives [.phrase .atom] (t :: w)) (Phrase.GoesOnWith .atom) := by
  have only {k : Keyword} {rest : List Symbol} (isWord : t.isKeyword k)
      (only : ∀ rest', .word k :: rest' ∈ productions (.phrase .atom) ↔ rest' = rest)
      {rule : Rule n Tree} (rests : rule.Recognizes size (Derives rest) (Phrase.GoesOnWith .atom)) :
      rule.Recognizes size (fun w => Derives [.phrase .atom] (t :: w)) (Phrase.GoesOnWith .atom) :=
    rests.congr (derives_atom_of_isKeyword isWord only) fun _ => id
  cases k <;> simp only [afterWord?, Option.some.injEq, reduceCtorEq] at chosen <;> subst chosen
  case ifWord => exact only isWord (by simp [productions]) h.conditional
  case forWord => exact only isWord (by simp [productions]) h.forLoop
  case whileWord => exact only isWord (by simp [productions]) h.whileLoop
  case funcWord => exact only isWord (by simp [productions]) h.function

theorem Recognizes.afterFirst (h : g.Recognizes) {t : Token} {rule : Rule n Tree}
    (chosen : g.afterFirst? t = some rule) :
    rule.Recognizes size (fun w => Derives [.phrase .atom] (t :: w)) (Phrase.GoesOnWith .atom) := by
  have notWord (ne : t.kind ≠ .keyword) (k : Keyword) : ¬ t.isKeyword k :=
    fun isWord => ne (Token.kind_of_isKeyword isWord)
  unfold afterFirst? at chosen
  split at chosen
  case h_1 kind | h_2 kind | h_3 kind | h_4 kind =>
    cases chosen
    have notWord := notWord (by simp [kind])
    exact Rule.Recognizes.pure.congr (fun w => by simp [derives_atom_iff, kind, notWord])
      fun _ => id
  case h_5 kind =>
    cases chosen
    have notWord := notWord (by simp [kind])
    exact h.closed.congr (fun w => by simp [derives_atom_iff, kind, notWord]) fun _ => id
  case h_6 kind =>
    obtain ⟨k, isWord, chosen⟩ := Option.bind_eq_some_iff.mp chosen
    exact h.afterWord (by simp [Token.isKeyword, isWord]) chosen
  case h_7 => cases chosen

theorem exists_afterFirst {t : Token} (begins : t.BeginsAtom) :
    ∃ rule, g.afterFirst? t = some rule := by
  rcases begins with kind | ⟨k, mem, isWord⟩
  · simp only [List.mem_cons, List.not_mem_nil, or_false] at kind
    rcases kind with kind | kind | kind | kind | kind <;> exact ⟨_, by rw [afterFirst?, kind]⟩
  · rw [afterFirst?_of_isKeyword isWord]
    cases k with
    | letWord | elseWord => simp at mem
    | _ => exact ⟨_, rfl⟩

theorem Recognizes.atom (h : g.Recognizes) :
    g.atom.Recognizes size (Derives [.phrase .atom]) (Phrase.GoesOnWith .atom) := by
  refine .onNext (Nat.le_refl _) (fun _ _ _ chosen => h.afterFirst chosen) (fun word => ?_)
    (exists_derives _)
  obtain ⟨t, v, rfl, begins⟩ := word.begins (by decide)
  obtain ⟨rule, chosen⟩ := exists_afterFirst begins
  exact ⟨t, v, rule, rfl, chosen⟩

theorem Recognizes.call (h : g.Recognizes) :
    g.call.Recognizes size (Derives [.phrase .call]) (Phrase.GoesOnWith .call) := by
  have split (w : List Token) : Derives [.part .callSuffix] w ↔
      (∃ t v, w = t :: v ∧ (t.kind == .leftParen) ∧
        Derives [.part .arguments, .kind .rightParen] v) ∨ Derives [] w := by
    rw [derives_either rfl]
    simp [or_comm]
  have leads : Leads [.part .callSuffix] (Phrase.GoesOnWith .atom) (Phrase.GoesOnWith .call) := by
    refine .either rfl (.nil fun t => .inl) (.kind fun t isLeft isElse => ?_)
    simp [Token.kind_of_isKeyword isElse] at isLeft
  refine .ofOnly rfl (h.atom.bind leads fun callee => .within split
    (.nil fun t isLeft => .inr (.inl (beq_iff_eq.mp isLeft)))
    (fun _ _ _ => h.arguments.bind .never fun _ => .pure) .pure)

/-! ### Levels of operators -/

theorem recognizes_underOperator {isOperator : Token.Kind → Bool} {operand : Rule n Tree}
    {bare : Rule (n + 1) Tree} {p q : Phrase}
    (operands : ∀ {size}, operand.Recognizes size (Derives [.phrase p]) p.GoesOnWith)
    (bares : bare.Recognizes size (Derives [.phrase q]) q.GoesOnWith)
    (split : ∀ w, Derives [.phrase p] w ↔
      (∃ t v, w = t :: v ∧ isOperator t.kind ∧ Derives [.phrase p] v) ∨ Derives [.phrase q] w)
    (ne : q ≠ .statements) (first : ∀ {t}, q.Begins t → isOperator t.kind = false)
    (bars : ∀ t, q.GoesOnWith t → p.GoesOnWith t) :
    (underOperator isOperator operand bare).Recognizes size (Derives [.phrase p]) p.GoesOnWith :=
  .within split (.phrase ne fun t begins operator => by simp [first begins] at operator)
    (fun _ _ _ => operands.bind (.nil fun _ => id) fun _ => .pure)
    (bares.congr (fun _ => Iff.rfl) bars)

theorem Recognizes.assignmentOr (h : g.Recognizes) {other : Rule (n + 1) Tree}
    (others : other.Recognizes size (Derives [.phrase (.joined .conditions)])
      (Phrase.GoesOnWith (.joined .conditions))) :
    (g.assignmentOr other).Recognizes size (Derives [.phrase .expression])
      (Phrase.GoesOnWith .expression) := by
  refine .within (a := [.kind .identifier, .kind .assign, .phrase .expression]) (fun w => ?_)
    (.phrase (by decide) fun t begins isLet => ?_)
    (fun _ _ _ =>
      Rule.Recognizes.expect.bind .never fun _ => Rule.Recognizes.expect.bind .never fun _ =>
      h.expression.bind (.nil fun _ => id) fun _ => .pure)
    (others.congr (fun _ => Iff.rfl) fun _ => id)
  · rw [derives_either rfl]
    simp
  · exact Token.BeginsComparison.not_isKeyword_letWord begins isLet

/-- A factor is a sign and a factor, or a call. -/
theorem derives_factor_iff {w : List Token} : Derives [.phrase .factor] w ↔
    (∃ t v, w = t :: v ∧ isAdditive t.kind ∧ Derives [.phrase .factor] v) ∨
      Derives [.phrase .call] w := by
  rw [derives_part_iff]
  simp only [productions, List.mem_cons, List.not_mem_nil, or_false, exists_eq_or_imp,
    exists_eq_left, List.cons_append, List.nil_append, derives_kind_iff, isAdditive,
    Bool.or_eq_true, beq_iff_eq]
  constructor
  · rintro (⟨t, v, rfl, isPlus, word⟩ | ⟨t, v, rfl, isMinus, word⟩ | word)
    · exact .inl ⟨t, v, rfl, .inl isPlus, word⟩
    · exact .inl ⟨t, v, rfl, .inr isMinus, word⟩
    · exact .inr word
  · rintro (⟨t, v, rfl, isPlus | isMinus, word⟩ | word)
    · exact .inl ⟨t, v, rfl, isPlus, word⟩
    · exact .inr (.inl ⟨t, v, rfl, isMinus, word⟩)
    · exact .inr (.inr word)

theorem derives_comparison_iff {w : List Token} : Derives [.phrase .comparison] w ↔
    (∃ t v, w = t :: v ∧ (t.kind == .not) ∧ Derives [.phrase .comparison] v) ∨
      Derives [.phrase (.joined .relations)] w := by
  rw [derives_either rfl]
  simp

theorem Recognizes.next (h : g.Recognizes) : g.next.Recognizes := by
  -- from the level that binds closest up to expressions
  have factor {size} : g.next.factor.Recognizes size (Derives [.phrase .factor])
      (Phrase.GoesOnWith .factor) :=
    recognizes_underOperator h.factor h.call (fun _ => derives_factor_iff) (by decide)
      (fun begins => Token.BeginsAtom.not_isAdditive begins) fun _ => id
  have arithmetic {size} : g.next.arithmetic.Recognizes size (Derives [.phrase (.joined .sums)])
      (Phrase.GoesOnWith (.joined .sums)) :=
    .binaryChain Level.sums.test_iff (.binaryChain Level.products.test_iff factor)
  have comparison {size} : g.next.comparison.Recognizes size (Derives [.phrase .comparison])
      (Phrase.GoesOnWith .comparison) := by
    rw [next_comparison]
    exact recognizes_underOperator h.comparison
      (.pin (.binaryChain Level.relations.test_iff arithmetic) (exists_derives _))
      (fun _ => derives_comparison_iff) (by decide)
      (fun begins => beq_eq_false_iff_ne.mpr (Token.BeginsFactor.kind_ne_not begins)) fun _ => id
  refine ⟨h.assignmentOr (.pin (.binaryChain Level.conditions.test_iff comparison)
    (exists_derives _)), comparison, arithmetic, factor, refuses_next⟩

/-- The rules for any number of tokens recognize the words of their parts. -/
theorem recognizes_upTo (n : Nat) : (upTo n).Recognizes := by
  induction n with
  | zero =>
    have never {size} {rule : Rule 0 Tree} {L : List Token → Prop} {barred : Token → Prop} :
        rule.Recognizes size L barred :=
      ⟨fun _ yields => absurd yields.lt (Nat.not_lt_zero _),
        fun _ fails => absurd fails.lt (Nat.not_lt_zero _),
        fun _ room => absurd room (Nat.not_lt_zero _)⟩
    exact ⟨never, never, never, never, fun room => absurd room (Nat.not_lt_zero _)⟩
  | succ n h => exact h.next

/-! ### Scripts -/

section Script

variable {f : Failure} {kind : ParseError.Kind} {w v : List Token}

theorem recognizes_statements (c : Cursor) :
    (statements (upTo (c.left + 1)).expression).Recognizes (c.left + 1)
      (Derives [.phrase .statements]) (Phrase.GoesOnWith .statements) :=
  .statements (recognizes_upTo _).expression (recognizes_upTo _).refuses

/-- What is read as a script is a word of the grammar. -/
theorem derives_of_script {tree : Tree} (ok : script c = .ok tree) :
    Derives [.phrase .statements] c.ahead := by
  have lt := Nat.lt_succ_self c.left
  unfold script at ok
  split at ok
  · cases ok
  next r result =>
  split at ok
  · next atEnd =>
    obtain ⟨w, reads, word⟩ := (recognizes_statements c).reads lt ⟨lt, r.left_le, result⟩
    rwa [reads.ahead, List.isEmpty_iff.mp atEnd, List.append_nil]
  · cases ok

/-- What has been read of a script where something is missing can be completed to a script. -/
theorem exists_derives_of_missing (failed : script c = .error f)
    (missing : f.cause = .missing kind) :
    ∃ w v, c.Reads w f.cursor ∧ Derives [.phrase .statements] (w ++ v) := by
  have lt := Nat.lt_succ_self c.left
  obtain ⟨cause, d⟩ := f
  obtain rfl : cause = .missing kind := missing
  rcases script_eq_error_iff.mp failed with fails | ⟨tree, c', yields, -, eq⟩
  · exact (recognizes_statements c).misses lt fails
  · cases eq
    obtain ⟨w, reads, word⟩ := (recognizes_statements c).reads lt yields
    exact ⟨w, [], reads, by simpa using word⟩

/-- A word of the grammar is read as a script, unless the header of a `for` loop has no
assignment. -/
theorem notAssignment_of_derives (word : Derives [.phrase .statements] c.ahead)
    (failed : script c = .error f) : ∃ initial, f.cause = .notAssignment initial := by
  have lt := Nat.lt_succ_self c.left
  let c' : Cursor := ⟨c.ahead.reverse ++ c.passed, [], c.final⟩
  have reads : c.Reads c.ahead c' := ⟨(List.append_nil _).symm, rfl, rfl⟩
  have ends : c'.Bars (Phrase.GoesOnWith .statements) := fun t head => absurd head (by simp [c'])
  rcases (recognizes_statements c).gets lt lt reads word ends with
    ⟨tree, yields⟩ | ⟨initial, d, fails, -⟩
  · rcases script_eq_error_iff.mp failed with fails | ⟨tree', c'', yields', ne, -⟩
    · exact absurd fails yields.not_fails
    · obtain ⟨-, rfl⟩ := yields.unique yields'
      exact absurd rfl ne
  · rcases script_eq_error_iff.mp failed with fails' | ⟨_, _, yields, -⟩
    · obtain rfl := fails.unique fails'
      exact ⟨initial, rfl⟩
    · exact absurd fails yields.not_fails

/-- No script goes on with the token at which something is missing, nor does one end there if that
is the end of input. -/
theorem not_derives_of_missing (failed : script c = .error f) (missing : f.cause = .missing kind)
    (reads : c.Reads w f.cursor) (next : v.head? = f.cursor.ahead.head?) :
    ¬ Derives [.phrase .statements] (w ++ v) := by
  intro word
  suffices ∃ initial, f.cause = .notAssignment initial by
    obtain ⟨initial, other⟩ := this
    rw [missing] at other
    cases other
  cases ahead : f.cursor.ahead with
  | nil =>
    obtain rfl : v = [] := List.head?_eq_none_iff.mp (by rw [next, ahead]; rfl)
    exact notAssignment_of_derives (by rwa [reads.ahead, ahead]) failed
  | cons t rest =>
    obtain ⟨rest', rfl⟩ := List.head?_eq_some_iff.mp (next.trans (by rw [ahead]; rfl))
    -- the script fails as far as its tokens are those of the word, and so would the word
    let m : Pairing := ⟨fun _ _ => True, rest, rest'⟩
    let d : Cursor := ⟨c.passed, w ++ t :: rest', c.final⟩
    have self (w : List Token) : List.Forall₂ (Token.Alike m) w w :=
      List.forall₂_same.mpr fun t _ => ⟨rfl, trivial⟩
    have alike : c.Alike m d :=
      ⟨⟨w ++ [t], w ++ [t], by simp [reads.ahead, ahead, m], by simp [d, m], self _⟩, self _,
        rfl, trivial⟩
    have sees : f.cursor.Sees m := .inl (by simp [Cursor.left, ahead, m])
    obtain ⟨f', failed', same⟩ := script_alike alike failed sees
    obtain ⟨initial', cause'⟩ := notAssignment_of_derives (c := d) word failed'
    have same := same.cause
    rw [cause', missing] at same
    cases same

end Script

end Grammar

/-! ### Lists of tokens -/

/-- A script, and the end of input behind it. -/
def WholeScript (w : List Token) : Prop :=
  ∃ program final, w = program ++ [final] ∧ Derives [.phrase .statements] program ∧
    final.kind = .endOfInput

/-- What stands for the end of input is one. -/
theorem Cursor.kind_final_ofTokens (tokens : List Token) :
    (Cursor.ofTokens tokens).final.kind = .endOfInput := by
  have first := List.head?_dropWhile_not (·.kind != .endOfInput) tokens
  have final : (Cursor.ofTokens tokens).final =
    (tokens.dropWhile (·.kind != .endOfInput)).headD _ := rfl
  rw [final]
  cases rest : tokens.dropWhile (·.kind != .endOfInput) with
  | nil => rfl
  | cons t rest' =>
    rw [rest] at first
    simpa using first

/-- An end of input comes next where no token is ahead, and nowhere else. -/
theorem Cursor.Reads.kind_current_iff {tokens w : List Token} {d : Cursor}
    (h : (Cursor.ofTokens tokens).Reads w d) :
    d.current.kind = .endOfInput ↔ d.ahead = [] := by
  constructor
  · intro isEnd
    cases ahead : d.ahead with
    | nil => rfl
    | cons t rest =>
      have mem : t ∈ (Cursor.ofTokens tokens).ahead := by simp [h.ahead, ahead]
      rw [Cursor.current_of_ahead ahead] at isEnd
      exact absurd isEnd (by simpa using List.mem_takeWhile_imp mem)
  · intro none
    simp [Cursor.current, none, h.final, Cursor.kind_final_ofTokens]

/-- The number of tokens read tells which they are, and what comes next. -/
theorem Cursor.Reads.ofTokens {tokens w : List Token} {d : Cursor}
    (h : (Cursor.ofTokens tokens).Reads w d) :
    tokens.take d.passed.length = w ∧
      tokens[d.passed.length]?.getD (Cursor.ofTokens tokens).final = d.current := by
  have length : d.passed.length = w.length := by simp [h.passed, Cursor.ofTokens]
  have ahead : tokens.takeWhile (·.kind != .endOfInput) = w ++ d.ahead := h.ahead
  have final : (Cursor.ofTokens tokens).final =
    (tokens.dropWhile (·.kind != .endOfInput)).headD _ := rfl
  -- the list is what has been read, what is ahead, and what stands from the end of input on
  have whole : tokens = w ++ (d.ahead ++ tokens.dropWhile (·.kind != .endOfInput)) := by
    rw [← List.append_assoc, ← ahead, List.takeWhile_append_dropWhile]
  have behind : tokens.drop w.length = d.ahead ++ tokens.dropWhile (·.kind != .endOfInput) := by
    conv_lhs => rw [whole]
    exact List.drop_left
  rw [length]
  refine ⟨by rw [whole]; exact List.take_left, ?_⟩
  rw [← List.head?_drop, behind, Cursor.current, h.final]
  cases d.ahead with
  | cons t rest => rfl
  | nil =>
    cases rest : tokens.dropWhile (·.kind != .endOfInput) with
    | nil => rfl
    | cons t rest' => rw [final, rest]; rfl

/-- Where it is not a missing assignment, an error of syntax stands at the first token that is
wrong: the tokens before it can be completed to a script, and with it they cannot. Past the list
it is the end of input that is wrong. -/
theorem Tree.ofTokens_eq_error {tokens : List Token} {e : ParseError}
    (failed : Tree.ofTokens tokens = .error e) (kind : e.kind ≠ .expected .letAssignment) :
    ∃ f, Grammar.script (Cursor.ofTokens tokens) = .error f ∧ e = f.toError ∧
      let k := f.cursor.passed.length
      let offending := tokens[k]?.getD (Cursor.ofTokens tokens).final
      e.start = offending.start ∧ e.stop = offending.stop ∧
      (∃ whole, WholeScript whole ∧ tokens.take k <+: whole) ∧
      ∀ whole, WholeScript whole → ¬ tokens.take k ++ [offending] <+: whole := by
  rw [Tree.ofTokens] at failed
  cases parsed : Grammar.script (Cursor.ofTokens tokens) with
  | ok tree =>
    rw [parsed] at failed
    cases failed
  | error f =>
    rw [parsed] at failed
    obtain rfl : f.toError = e := Except.error.inj failed
    obtain ⟨missed, missing⟩ : ∃ missed, f.cause = .missing missed := by
      cases cause : f.cause with
      | missing missed => exact ⟨missed, rfl⟩
      | notAssignment initial => exact absurd (by rw [Failure.toError, cause]) kind
    -- what has been read is the beginning of a script
    obtain ⟨w, v, reads, word⟩ := Grammar.exists_derives_of_missing parsed missing
    obtain ⟨read, offending⟩ := reads.ofTokens
    refine ⟨f, rfl, rfl, ?_⟩
    simp only [read, offending]
    have place : f.toError.start = f.cursor.current.start ∧
        f.toError.stop = f.cursor.current.stop := by
      rw [Failure.toError, missing]
      exact ⟨rfl, rfl⟩
    refine ⟨place.1, place.2, ?_, ?_⟩
    · have isEnd := Cursor.kind_final_ofTokens tokens
      exact ⟨_, ⟨w ++ v, _, rfl, word, isEnd⟩, by simp⟩
    · rintro _ ⟨program, final, rfl, word, isEnd⟩ begins
      have words := word.kind_ne (by decide)
      rcases List.prefix_concat_iff.mp begins with eq | ⟨rest, rfl⟩
      · -- the whole script is read, so that nothing is ahead
        obtain ⟨rfl, rfl⟩ := List.append_singleton_inj.mp eq
        exact Grammar.not_derives_of_missing (v := []) parsed missing reads
          (by simp [reads.kind_current_iff.mp isEnd]) (by simpa using word)
      · -- the offending token is the next one, and no script goes on with it
        have next : f.cursor.ahead.head? = some f.cursor.current := by
          cases ahead : f.cursor.ahead with
          | nil => exact absurd (reads.kind_current_iff.mpr ahead) (words _ (by simp))
          | cons t rest => simp [Cursor.current_of_ahead ahead]
        exact Grammar.not_derives_of_missing (v := f.cursor.current :: rest) parsed missing reads
          (by simp [next]) (by simpa using word)

theorem Tree.ofTokens_eq_error_unclosed :
    let tokens : List Token := [⟨.identifier, some (.text "f"), .nowhere, .nowhere⟩,
      ⟨.leftParen, none, .nowhere, .nowhere⟩]
    (∃ whole, WholeScript whole ∧ tokens <+: whole) ∧
      ∀ whole, WholeScript whole → ¬ tokens ++ [(Cursor.ofTokens tokens).final] <+: whole := by
  intro tokens
  have fails : (Tree.ofTokens tokens).map (fun _ => ()) = .error ⟨.expectedArgument, none,
      .nowhere, .nowhere⟩ := by decide +kernel
  have number : ((Grammar.script (Cursor.ofTokens tokens)).map fun _ => ()).mapError
      (·.cursor.passed.length) = .error 2 := by decide +kernel
  cases failed : Tree.ofTokens tokens with
  | ok tree =>
    rw [failed] at fails
    cases fails
  | error e =>
    rw [failed] at fails
    cases fails
    obtain ⟨f, parsed, -, -, -, before, behind⟩ := Tree.ofTokens_eq_error failed (by decide)
    rw [parsed] at number
    have number : f.cursor.passed.length = 2 := Except.error.inj number
    simp only [number] at before behind
    exact ⟨before, behind⟩

end Scriptlet
