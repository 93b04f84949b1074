import Scriptlet.Parse.Cursor

/-!
# Rules of a grammar

A rule reads a part of a script and leaves the cursor after it. A rule that is good for
fewer than `n` tokens is a `Rule n`. Where a token has just been read, rules good for one
token less will do, which is what ends the recursion of the grammar; and each loop over a
rule reads a token of its own in every round, which is what ends the loop.

## Main definitions

* `Rule` — reads a part of a script
* `Rule.ifNext`, `Rule.within`, `Rule.dispatch` — decide by the next token
* `Rule.pin` — reports a failure at the first token in terms of the part as a whole
* `Rule.afterCommas`, `Rule.binaryChain`, `Rule.statements` — parts that repeat
-/

namespace Scriptlet

/-- The result of a rule, with the cursor after it. -/
structure Parsed (c : Cursor) (α : Type) where
  value : α
  next : Cursor
  left_le : next.left ≤ c.left

/-- Reads a part of a script of fewer than `n` tokens. -/
def Rule (n : Nat) (α : Type) : Type :=
  (c : Cursor) → c.left < n → Except Failure (Parsed c α)

namespace Rule

variable {m n : Nat} {α β : Type}

/-- A result seen from a cursor further back. -/
def later {c c₁ : Cursor} (h : c₁.left ≤ c.left) (r : Parsed c₁ α) : Parsed c α :=
  ⟨r.value, r.next, Nat.le_trans r.left_le h⟩

/-- Reads by one rule after another. -/
instance : Monad (Rule n) where
  pure a := fun c _ => .ok ⟨a, c, Nat.le_refl _⟩
  bind rule next := fun c h =>
    match rule c h with
    | .error f => .error f
    | .ok r => (next r.value r.next (Nat.lt_of_le_of_lt r.left_le h)).map (later r.left_le)

theorem bind_apply (rule : Rule n α) (next : α → Rule n β) (c : Cursor) (h : c.left < n) :
    (rule >>= next) c h =
      match rule c h with
      | .error f => .error f
      | .ok r => (next r.value r.next (Nat.lt_of_le_of_lt r.left_le h)).map (later r.left_le) :=
  rfl

/-- Reads nothing and fails. -/
def fail (cause : Failure.Cause) : Rule n α := fun c _ => .error ⟨cause, c⟩

/-- Fails because something of this kind is missing. -/
def missing (kind : ParseError.Kind) : Rule n α := fail (.missing kind)

/-- Where the next token begins. -/
def here : Rule n Position := fun c _ => .ok ⟨c.current.start, c, Nat.le_refl _⟩

/-- Where the last token read ends. -/
def lastStop : Rule n Position := fun c _ => .ok ⟨c.lastStop, c, Nat.le_refl _⟩

/-- Reads separators as long as they come next. -/
def skipSeparators : Rule n Unit :=
  fun c _ => .ok ⟨(), c.skipSeparators, c.left_skipSeparators_le⟩

/-- Reads the next token and goes on by the rule that `choose` has for it; if there is none,
reads by `other` from that token on. -/
def onNext (room : n ≤ m + 1) (choose : Token → Option (Rule m α)) (other : Rule n α) :
    Rule n α := fun c h =>
  match taken : c.take? with
  | none => other c h
  | some (t, c₁) =>
    match choose t with
    | none => other c h
    | some rule =>
      have shorter := Cursor.left_lt_of_take? taken
      (rule c₁ (by omega)).map (later (Nat.le_of_lt shorter))

/-- Reads the next token, if it is as asked, and goes on after it; reads by `other`
otherwise. -/
def ifNext (asked : Token → Bool) (after : Token → Rule n α) (other : Rule n α) : Rule n α :=
  onNext (Nat.le_succ n) (fun t => if asked t then some (after t) else none) other

/-- Like `onNext`, with rules good for fewer tokens for what follows the one read. -/
def dispatch (choose : Token → Option (Rule n α)) (other : Rule (n + 1) α) : Rule (n + 1) α :=
  onNext (Nat.le_refl _) choose other

/-- Like `ifNext`, with a rule good for fewer tokens for what follows the one read. -/
def within (asked : Token → Bool) (after : Token → Rule n α) (other : Rule (n + 1) α) :
    Rule (n + 1) α :=
  dispatch (fun t => if asked t then some (after t) else none) other

/-- Reads a token of this kind. -/
def expect (kind : Token.Kind) (what : Expectation) : Rule n Token :=
  ifNext (·.kind == kind) pure (missing (.expected what))

/-- Reads by `rule`; where that fails at once, the failure is that `kind` is missing. A
failure further on tells more and stands. -/
def pin (kind : ParseError.Kind) (rule : Rule n α) : Rule n α := fun c h =>
  (rule c h).mapError fun f => if f.cursor.left = c.left then ⟨.missing kind, c⟩ else f

/-- Reads a comma and an item as long as a comma comes next. -/
def afterCommas (item : Rule n α) : Rule n (List α) := fun c h =>
  match taken : c.take? with
  | none => .ok ⟨[], c, Nat.le_refl _⟩
  | some (t, c₁) =>
    have shorter := Cursor.left_lt_of_take? taken
    if t.kind = .comma then
      match item c₁ (by omega) with
      | .error f => .error f
      | .ok ⟨value, c₂, le⟩ =>
        (afterCommas item c₂ (by omega)).map fun r =>
          ⟨value :: r.value, r.next, by have := r.left_le; omega⟩
    else .ok ⟨[], c, Nat.le_refl _⟩
termination_by c => c.left

/-- Reads an operator and an operand as long as an operator comes next; what was read
before becomes the left operand. -/
def binaryChainFrom (isOperator : Token.Kind → Bool) (operand : Rule n Tree) (left : Tree) :
    Rule n Tree := fun c h =>
  match taken : c.take? with
  | none => .ok ⟨left, c, Nat.le_refl _⟩
  | some (t, c₁) =>
    have shorter := Cursor.left_lt_of_take? taken
    if isOperator t.kind then
      match operand c₁ (by omega) with
      | .error f => .error f
      | .ok ⟨right, c₂, le⟩ =>
        (binaryChainFrom isOperator operand (.binary left t right) c₂ (by omega)).map
          (later (by omega))
    else .ok ⟨left, c, Nat.le_refl _⟩
termination_by c => c.left

/-- Reads operands with operators between them, which associate to the left. -/
def binaryChain (isOperator : Token.Kind → Bool) (operand : Rule n Tree) : Rule n Tree := do
  binaryChainFrom isOperator operand (← operand)

/-- Reads separators and a statement as long as both come next. Where separators end the
statements, the cursor stands after them. -/
def furtherStatements (statement : Rule n Tree) : Rule n (List Tree) := fun c h =>
  let c₁ := c.skipSeparators
  if shorter : c₁.left < c.left then
    match statement c₁ (by omega) with
    | .error f =>
      -- no statement begins here, so the separators were the end of the last one
      if f.cursor.left = c₁.left then .ok ⟨[], c₁, Nat.le_of_lt shorter⟩ else .error f
    | .ok ⟨tree, c₂, le⟩ =>
      (furtherStatements statement c₂ (by omega)).map fun r =>
        ⟨tree :: r.value, r.next, by have := r.left_le; omega⟩
  else .ok ⟨[], c, Nat.le_refl _⟩
termination_by c => c.left

/-- Reads statements, at least one, with separators between them and perhaps around them. -/
def statements (statement : Rule n Tree) : Rule n Tree := do
  let start ← here
  skipSeparators
  let first ← statement
  let others ← furtherStatements statement
  return .sequence (first :: others) start (← lastStop)

end Rule

end Scriptlet
