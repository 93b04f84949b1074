import Scriptlet.Tree.Basic
import Scriptlet.Parse.Error

/-!
# Reading a list of tokens

A cursor stands between the tokens already read and those still ahead.

## Main definitions

* `Cursor` — a place in a list of tokens
* `Cursor.take?`, `Cursor.skipSeparators` — read one token, and all separators
* `Failure` — what was missed at a cursor
* `Failure.toError` — a failure as an error about the source

## Main results

* `Cursor.take?_eq_some_iff` — a token that is read passes from those ahead to those read
* `Cursor.left_lt_of_take?`, `Cursor.left_skipSeparators_le` — reading leaves fewer tokens ahead,
  or as many
-/

namespace Scriptlet

/-- A place in a list of tokens: those read, the latest first, those ahead, and the token
that stands for the end of input. -/
structure Cursor where
  passed : List Token
  ahead : List Token
  final : Token

namespace Cursor

/-- How many tokens are ahead. -/
def left (c : Cursor) : Nat := c.ahead.length

/-- The next token, or the end of input. -/
def current (c : Cursor) : Token := c.ahead.headD c.final

/-- Where the last token read ends. -/
def lastStop (c : Cursor) : Position :=
  match c.passed with
  | t :: _ => t.stop
  | [] => c.current.start

/-- The place before the first token. Only the tokens before an end of input count; a list
without one ends where its last token does, and an empty list is that of an empty source. -/
def ofTokens (tokens : List Token) : Cursor :=
  let stop := match tokens.getLast? with
    | some t => t.stop
    | none => Position.start ⟨"", ""⟩
  let goesOn (t : Token) : Bool := t.kind != .endOfInput
  ⟨[], tokens.takeWhile goesOn, (tokens.dropWhile goesOn).headD ⟨.endOfInput, none, stop, stop⟩⟩

/-- Reads the next token, if there is one. -/
def take? (c : Cursor) : Option (Token × Cursor) :=
  match c.ahead with
  | [] => none
  | t :: rest => some (t, { c with passed := t :: c.passed, ahead := rest })

theorem take?_eq_none_iff {c : Cursor} : c.take? = none ↔ c.ahead = [] := by
  unfold take?
  split <;> simp_all

/-- A token that is taken joins those that have been passed. -/
theorem take?_eq_some_iff {c c₁ : Cursor} {t : Token} :
    c.take? = some (t, c₁) ↔
      c.ahead = t :: c₁.ahead ∧ c₁.passed = t :: c.passed ∧ c₁.final = c.final := by
  obtain ⟨passed, ahead, final⟩ := c
  obtain ⟨passed₁, ahead₁, final₁⟩ := c₁
  cases ahead with
  | nil => simp [take?]
  | cons u rest => grind [take?]

/-- Taking a token leaves fewer of them, which is what the rules recurse on. -/
theorem left_lt_of_take? {c c₁ : Cursor} {t : Token} (h : c.take? = some (t, c₁)) :
    c₁.left < c.left := by
  have := (take?_eq_some_iff.mp h).1
  simp [left, this]

/-- The place after all separators that come next. -/
def skipSeparators (c : Cursor) : Cursor :=
  let isSeparator (t : Token) : Bool := t.kind == .separator
  { c with
    passed := (c.ahead.takeWhile isSeparator).reverse ++ c.passed
    ahead := c.ahead.dropWhile isSeparator }

theorem left_skipSeparators_le (c : Cursor) : c.skipSeparators.left ≤ c.left :=
  (List.dropWhile_sublist _).length_le

end Cursor

/-- What can be missed: some token, or, in the header of a `for` loop, an assignment where
another expression stands. -/
inductive Failure.Cause
  | missing (kind : ParseError.Kind)
  | notAssignment (initial : Tree)

/-- What was missed, with the cursor where it was missed. -/
structure Failure where
  cause : Failure.Cause
  cursor : Cursor

/-- A failure as an error about the source: it concerns the next token, or the expression
that should have been an assignment. -/
def Failure.toError (f : Failure) : ParseError :=
  match f.cause with
  | .missing kind =>
    ⟨kind, f.cursor.ahead.head?.map Token.lexeme, f.cursor.current.start, f.cursor.current.stop⟩
  | .notAssignment initial => ⟨.expected .letAssignment, none, initial.start, initial.stop⟩

end Scriptlet
