import Scriptlet.Proofs.Syntax.Alike
import Scriptlet.Proofs.Syntax.Completeness

/-!
# Scripts side by side

Every rule of the grammar decides by the content of tokens alone. What is read of two scripts is
therefore the same up to places as far as the scripts agree in content, and so is the first
failure.

## Main definitions

* `Grammar.Alike` — grammars that do the same at cursors that are alike

## Main results

* `Grammar.alike_upTo` — the rules of the grammar are alike, whatever their bounds
* `Grammar.script_alike` — scripts that are alike as far as one of them is read
* `Failure.Alike.toError` — the errors that are reported of them
-/

namespace Scriptlet

namespace Grammar

open Rule

variable {m : Pairing} {n k size : Nat} {α : Type} {given : Prop} {R : α → α → Prop}

/-- The rules of two grammars do the same at cursors that are alike. -/
structure Alike (m : Pairing) (g : Grammar n) (g' : Grammar k) : Prop where
  expression : ∀ {size given}, Rule.Alike m size given (Tree.Alike m) g.expression g'.expression
  comparison : ∀ {size given}, Rule.Alike m size given (Tree.Alike m) g.comparison g'.comparison
  arithmetic : ∀ {size given}, Rule.Alike m size given (Tree.Alike m) g.arithmetic g'.arithmetic
  factor : ∀ {size given}, Rule.Alike m size given (Tree.Alike m) g.factor g'.factor

/-- Two results of the same content, wherever they end. -/
def SameContent (content : α → α) (p q : α × Position) : Prop := content p.1 = content q.1

variable {g : Grammar n} {g' : Grammar k}

/-! ### Brackets -/

theorem alike_parenthesised {inside : Rule n α} {inside' : Rule k α}
    (alike : ∀ {size given}, Rule.Alike m size given R inside inside') :
    Rule.Alike m size given R (parenthesised inside) (parenthesised inside') :=
  Rule.Alike.expect.bind fun _ _ => alike.bind fun _ _ => Rule.Alike.expect.bind fun _ _ =>
    .pure fun ⟨⟨_, related⟩, _⟩ => related

theorem Alike.block (alike : g.Alike m g') :
    Rule.Alike m size given (SameContent Tree.unplaced) g.block g'.block :=
  Rule.Alike.expect.bind fun _ _ => (Rule.Alike.statements alike.expression).bind fun _ _ =>
    Rule.Alike.expect.bind fun _ _ => .pure fun ⟨⟨_, body⟩, _⟩ => body.unplaced

/-- The places where lists of arguments end may differ, and the arguments themselves in places
alone. -/
theorem Alike.arguments (alike : g.Alike m g') :
    Rule.Alike m size given (SameContent Tree.unplacedEach) g.arguments g'.arguments := by
  refine .ifNext (fun _ => rfl) (fun _ _ _ => .pure fun _ => rfl)
    (alike.expression.pin.bind fun first first' =>
      (Rule.Alike.afterCommas alike.expression).bind fun others others' =>
      Rule.Alike.expect.bind fun _ _ => .pure ?_)
  rintro ⟨⟨⟨-, first⟩, others⟩, -⟩
  simp only [SameContent, Tree.unplacedEach, first.unplaced, Tree.unplacedEach_eq_of_alike others]

/-- Names of parameters correspond one by one. -/
theorem alike_parameters : Rule.Alike m size given (List.Forall₂ (Token.Alike m))
    (parameters : Rule n (List Token)) (parameters : Rule k (List Token)) :=
  .ifNext (fun _ => rfl)
    (fun _ _ _ => (Rule.Alike.afterCommas Rule.Alike.expect).bind fun _ _ =>
      Rule.Alike.expect.bind fun _ _ =>
        .pure fun ⟨⟨⟨_, first⟩, others⟩, _⟩ => .cons first others)
    (Rule.Alike.expect.bind fun _ _ => .pure fun _ => .nil)

/-! ### Compound expressions -/

section Compound

variable {start start' : Position}

/-- Whether there is an `else` is the same on both sides, as the next tokens are alike. -/
theorem Alike.conditional (alike : g.Alike m g') (starts : given → m.starts start start') :
    Rule.Alike m size given (Tree.Alike m) (g.conditional start) (g'.conditional start') := by
  refine (alike_parenthesised alike.expression).bind fun condition condition' =>
    alike.block.bind fun ⟨body, stop⟩ ⟨body', stop'⟩ => ?_
  refine Rule.Alike.bind (R := SameContent Arms.unplaced)
    (.ifNext (fun _ => rfl)
      (fun _ _ _ => alike.block.bind fun ⟨other, stop⟩ ⟨other', stop'⟩ => .pure ?_)
      (.pure fun _ => rfl))
    fun ⟨others, last⟩ ⟨others', last'⟩ => .pure ?_
  · rintro ⟨-, other⟩
    exact congrArg Arms.otherwise other
  · rintro ⟨⟨⟨holds, condition⟩, body⟩, others⟩
    simp only [SameContent] at body others
    exact ⟨by simp only [Tree.unplaced, Arms.unplaced, condition.unplaced, body, others],
      starts holds⟩

/-- Loops are alike behind their first assignments, if these were. -/
theorem Alike.afterAssignment (alike : g.Alike m g') {letStart letStart' : Position}
    {name name' : Token} {initial initial' : Tree} (starts : given → m.starts start start')
    (assigned : given → (Tree.assignment letStart name initial).Alike m
      (.assignment letStart' name' initial')) :
    Rule.Alike m size given (Tree.Alike m) (g.afterAssignment start letStart name initial)
      (g'.afterAssignment start' letStart' name' initial') := by
  refine Rule.Alike.expect.bind fun _ _ => alike.comparison.bind fun condition condition' =>
    Rule.Alike.expect.bind fun _ _ => alike.arithmetic.bind fun update update' =>
    Rule.Alike.expect.bind fun _ _ => alike.block.bind fun ⟨body, stop⟩ ⟨body', stop'⟩ => .pure ?_
  rintro ⟨⟨⟨⟨⟨⟨holds, -⟩, condition⟩, -⟩, update⟩, -⟩, body⟩
  have assigned := (assigned holds).unplaced
  simp only [Tree.unplaced, Tree.assignment.injEq, true_and] at assigned
  simp only [SameContent] at body
  exact ⟨by simp only [Tree.unplaced, assigned, condition.unplaced, update.unplaced, body],
    starts holds⟩

/-- What stands first in the header is an assignment on both sides or on neither, so that both
loops go on or both fail for the same reason. -/
theorem Alike.afterInitial (alike : g.Alike m g') {initial initial' : Tree}
    (starts : given → m.starts start start') (same : given → initial.Alike m initial') :
    Rule.Alike m size given (Tree.Alike m) (g.afterInitial start initial)
      (g'.afterInitial start' initial') := by
  -- the content of the first part tells whether it is an assignment
  by_cases assignment : ∃ letStart name value, initial = .assignment letStart name value
  · obtain ⟨letStart, name, value, rfl⟩ := assignment
    have self : Rule.Alike m size False (Tree.Alike m)
        (g.afterAssignment start letStart name value)
        (g'.afterAssignment start letStart name value) :=
      alike.afterAssignment False.elim False.elim
    refine .of_given self.onward fun holds => ?_
    obtain ⟨letStart', name', value', rfl, -⟩ :=
      Tree.unplaced_eq_assignment (same holds).unplaced.symm
    exact alike.afterAssignment starts same
  · have other : ∀ letStart name value, initial ≠ .assignment letStart name value :=
      fun letStart name value eq => assignment ⟨letStart, name, value, eq⟩
    rw [afterInitial_eq_fail g start other]
    have self : Rule.Alike m size False (Tree.Alike m) (fail (.notAssignment initial) : Rule n Tree)
        (fail (.notAssignment initial) : Rule k Tree) :=
      .fail False.elim
    refine .of_given self.onward fun holds => ?_
    have other' : ∀ letStart name value, initial' ≠ .assignment letStart name value := by
      rintro letStart name value rfl
      obtain ⟨_, _, _, eq, -⟩ := Tree.unplaced_eq_assignment (same holds).unplaced
      exact other _ _ _ eq
    rw [afterInitial_eq_fail g' start' other']
    exact .fail fun _ => .notAssignment (same holds)

theorem Alike.forLoop (alike : g.Alike m g') (starts : given → m.starts start start') :
    Rule.Alike m size given (Tree.Alike m) (g.forLoop start) (g'.forLoop start') := by
  rw [forLoop_eq, forLoop_eq]
  exact Rule.Alike.expect.bind fun _ _ => alike.expression.bind fun _ _ =>
    alike.afterInitial (fun ⟨⟨holds, _⟩, _⟩ => starts holds) And.right

theorem Alike.whileLoop (alike : g.Alike m g') (starts : given → m.starts start start') :
    Rule.Alike m size given (Tree.Alike m) (g.whileLoop start) (g'.whileLoop start') := by
  refine (alike_parenthesised alike.expression).bind fun condition condition' =>
    alike.block.bind fun ⟨body, stop⟩ ⟨body', stop'⟩ => .pure ?_
  rintro ⟨⟨holds, condition⟩, body⟩
  simp only [SameContent] at body
  exact ⟨by simp only [Tree.unplaced, condition.unplaced, body], starts holds⟩

theorem Alike.function (alike : g.Alike m g') (starts : given → m.starts start start') :
    Rule.Alike m size given (Tree.Alike m) (g.function start) (g'.function start') := by
  refine Rule.Alike.expect.bind fun name name' => Rule.Alike.expect.bind fun _ _ =>
    alike_parameters.bind fun names names' =>
    alike.block.bind fun ⟨body, stop⟩ ⟨body', stop'⟩ => .pure ?_
  rintro ⟨⟨⟨⟨holds, name⟩, -⟩, names⟩, body⟩
  simp only [SameContent] at body
  exact ⟨by simp only [Tree.unplaced, name.unplaced, Token.map_unplaced_eq_of_alike names, body],
    starts holds⟩

theorem Alike.afterWord? (alike : g.Alike m g') (starts : given → m.starts start start')
    (word : Keyword) :
    Option.Rel (Rule.Alike m size given (Tree.Alike m)) (g.afterWord? start word)
      (g'.afterWord? start' word) := by
  cases word with
  | ifWord => exact .some (alike.conditional starts)
  | forWord => exact .some (alike.forLoop starts)
  | whileWord => exact .some (alike.whileLoop starts)
  | funcWord => exact .some (alike.function starts)
  | letWord => exact .none
  | elseWord => exact .none

end Compound

/-! ### Atoms and calls -/

/-- First tokens of the same content are followed by the same rule, or neither begins an atom. -/
theorem Alike.afterFirst? (alike : g.Alike m g') {t u : Token} (same : t.unplaced = u.unplaced) :
    Option.Rel (Rule.Alike m size (given ∧ t.Alike m u) (Tree.Alike m)) (g.afterFirst? t)
      (g'.afterFirst? u) := by
  have word : t.keyword? = u.keyword? := (congrArg Token.keyword? same :)
  unfold Grammar.afterFirst?
  rw [Token.kind_of_unplaced_eq same, word]
  -- the kind of the token chooses the rule, and behind a reserved word the word does
  split
  · exact .some (.pure fun ⟨_, first⟩ => ⟨congrArg Tree.number same, first.start⟩)
  · exact .some (.pure fun ⟨_, first⟩ => ⟨congrArg Tree.number same, first.start⟩)
  · exact .some (.pure fun ⟨_, first⟩ => ⟨congrArg Tree.string same, first.start⟩)
  · exact .some (.pure fun ⟨_, first⟩ => ⟨congrArg Tree.reference same, first.start⟩)
  · exact .some (alike.expression.bind fun _ _ => Rule.Alike.expect.bind fun _ _ =>
      .pure fun ⟨⟨_, inside⟩, _⟩ => inside)
  · cases u.keyword? with
    | none => exact .none
    | some k => exact alike.afterWord? (fun ⟨_, first⟩ => first.start) k
  · exact .none

theorem Alike.atom (alike : g.Alike m g') :
    Rule.Alike m size given (Tree.Alike m) g.atom g'.atom :=
  .onNext (Nat.le_refl _) (Nat.le_refl _) (fun _ _ _ same => alike.afterFirst? same) .missing

/-- A callee is followed by arguments on both sides or on neither. -/
theorem Alike.call (alike : g.Alike m g') :
    Rule.Alike m size given (Tree.Alike m) g.call g'.call := by
  refine alike.atom.bind fun callee callee' => .within (fun _ => rfl)
    (fun _ _ _ => alike.arguments.bind fun ⟨arguments, stop⟩ ⟨arguments', stop'⟩ => .pure ?_)
    (.pure And.right)
  rintro ⟨⟨⟨-, callee⟩, -⟩, arguments⟩
  simp only [SameContent] at arguments
  exact ⟨by simp only [Tree.unplaced, callee.unplaced, arguments], callee.start⟩

/-! ### Levels of operators -/

theorem alike_underOperator {isOperator : Token.Kind → Bool} {operand : Rule n Tree}
    {operand' : Rule k Tree} {bare : Rule (n + 1) Tree} {bare' : Rule (k + 1) Tree}
    (operands : ∀ {size given}, Rule.Alike m size given (Tree.Alike m) operand operand')
    (bares : Rule.Alike m size given (Tree.Alike m) bare bare') :
    Rule.Alike m size given (Tree.Alike m) (underOperator isOperator operand bare)
      (underOperator isOperator operand' bare') := by
  refine .within (fun _ => rfl) (fun _ _ _ => operands.bind fun _ _ => .pure ?_) bares
  rintro ⟨⟨-, operator⟩, operand⟩
  exact ⟨by simp only [Tree.unplaced, operator.unplaced, operand.unplaced], operator.start⟩

theorem Alike.assignmentOr (alike : g.Alike m g') {other : Rule (n + 1) Tree}
    {other' : Rule (k + 1) Tree} (others : Rule.Alike m size given (Tree.Alike m) other other') :
    Rule.Alike m size given (Tree.Alike m) (g.assignmentOr other) (g'.assignmentOr other') := by
  refine .within (fun _ => rfl) (fun _ _ _ => Rule.Alike.expect.bind fun name name' =>
    Rule.Alike.expect.bind fun _ _ => alike.expression.bind fun value value' => .pure ?_) others
  rintro ⟨⟨⟨⟨-, word⟩, name⟩, -⟩, value⟩
  exact ⟨by simp only [Tree.unplaced, name.unplaced, value.unplaced], word.start⟩

/-- Grammars for one token more are alike if those for nested parts are. -/
theorem Alike.next (alike : g.Alike m g') : g.next.Alike m g'.next := by
  have factor {size given} : Rule.Alike m size given (Tree.Alike m) g.next.factor g'.next.factor :=
    alike_underOperator alike.factor alike.call
  have arithmetic {size given} :
      Rule.Alike m size given (Tree.Alike m) g.next.arithmetic g'.next.arithmetic :=
    .binaryChain (.binaryChain factor)
  have comparison {size given} :
      Rule.Alike m size given (Tree.Alike m) g.next.comparison g'.next.comparison := by
    rw [next_comparison, next_comparison]
    exact alike_underOperator alike.comparison (.pin (.binaryChain arithmetic))
  exact ⟨alike.assignmentOr (.pin (.binaryChain comparison)), comparison, arithmetic, factor⟩

/-- The rules of the grammar are alike, whatever their bounds. -/
theorem alike_upTo (n k : Nat) : (upTo n).Alike m (upTo k) := by
  induction n generalizing k with
  | zero =>
    -- a rule with no bound left reads nothing
    have never {size given} {rule : Rule 0 Tree} {rule' : Rule k Tree} :
        Rule.Alike m size given (Tree.Alike m) rule rule' :=
      ⟨fun _ failed => absurd failed.lt (Nat.not_lt_zero _),
        fun _ _ _ _ yields => absurd yields.lt (Nat.not_lt_zero _),
        fun _ _ _ _ failed => absurd failed.lt (Nat.not_lt_zero _)⟩
    exact ⟨never, never, never, never⟩
  | succ n ih =>
    cases k with
    | zero =>
      have self := (ih n).next
      have never {size given} {rule : Rule (n + 1) Tree} {rule' : Rule 0 Tree}
          (alike : Rule.Alike m size given (Tree.Alike m) rule rule) :
          Rule.Alike m size given (Tree.Alike m) rule rule' :=
        ⟨alike.onward, fun _ _ _ room => absurd room (Nat.not_lt_zero _),
          fun _ _ _ room => absurd room (Nat.not_lt_zero _)⟩
      exact ⟨never self.expression, never self.comparison, never self.arithmetic,
        never self.factor⟩
    | succ k => exact (ih k).next

/-- Scripts that are alike as far as the one is read until it fails, fail alike. -/
theorem script_alike {c d : Cursor} {f : Failure} (alike : c.Alike m d)
    (failed : script c = .error f) (sees : f.cursor.Sees m) :
    ∃ f', script d = .error f' ∧ f.Alike m f' := by
  have rules : Rule.Alike m (c.left + 1) True (Tree.Alike m)
      (statements (upTo (c.left + 1)).expression) (statements (upTo (d.left + 1)).expression) :=
    .statements (alike_upTo _ _).expression
  have lt := Nat.lt_succ_self c.left
  have room := Nat.lt_succ_self d.left
  rcases script_eq_error_iff.mp failed with failed | ⟨tree, c', yields, ne, rfl⟩
  · obtain ⟨f', failed', same⟩ := rules.fails trivial lt alike room failed sees
    exact ⟨f', script_eq_error_iff.mpr (.inl failed'), same⟩
  · obtain ⟨tree', d', yields', -, behind⟩ := rules.yields trivial lt alike room yields sees
    -- something is left over on the other side, too
    have ne' : d'.ahead ≠ [] := by
      rcases behind.take? sees with ⟨none, -⟩ | ⟨_, _, _, _, -, there, -⟩
      · exact absurd none ne
      · rw [(Cursor.take?_eq_some_iff.mp there).1]
        exact List.cons_ne_nil _ _
    exact ⟨_, script_eq_error_iff.mpr (.inr ⟨tree', d', yields', ne', rfl⟩), .missing, behind⟩

end Grammar

/-- Failures that are alike are reported alike. -/
theorem Failure.Alike.toError {m : Pairing} {f f' : Failure} (h : f.Alike m f')
    (sees : f.cursor.Sees m) :
    f.toError.kind = f'.toError.kind ∧ f.toError.found = f'.toError.found ∧
      m.starts f.toError.start f'.toError.start := by
  obtain ⟨cause, c⟩ := f
  obtain ⟨cause', d⟩ := f'
  obtain ⟨same, alike⟩ := h
  dsimp only at same alike sees
  cases same with
  | missing =>
    -- the token quoted is the next one, and its lexeme is part of the content
    have found : c.ahead.head?.map Token.lexeme = d.ahead.head?.map Token.lexeme := by
      rcases alike.take? sees with ⟨none, none'⟩ | ⟨t, c₁, u, d₁, taken, there, same, -⟩
      · rw [none, none']
      · rw [Cursor.head?_of_take? taken, Cursor.head?_of_take? there]
        exact congrArg some (congrArg Token.lexeme same.unplaced :)
    exact ⟨rfl, found, (alike.current sees).start⟩
  | notAssignment same => exact ⟨rfl, rfl, same.start⟩

end Scriptlet
