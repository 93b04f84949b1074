import Scriptlet.Parse.Grammar

/-!
# Parsing a script

A script is the statements that its tokens spell; nothing may be left over after them.

## Main definitions

* `Tree.ofTokens` — the tree of a list of tokens, or the error of syntax in it
-/

namespace Scriptlet

/-- Reads statements up to the end of input. -/
def Grammar.script (c : Cursor) : Except Failure Tree :=
  match Rule.statements (Grammar.upTo (c.left + 1)).expression c (Nat.lt_succ_self _) with
  | .error f => .error f
  | .ok r => if r.next.ahead.isEmpty then .ok r.value else .error ⟨.missing .trailingInput, r.next⟩

/-- The tree of a list of tokens, or the error of syntax in it. Tokens after an end of input
do not count. -/
def Tree.ofTokens (tokens : List Token) : Except ParseError Tree :=
  (Grammar.script (Cursor.ofTokens tokens)).mapError Failure.toError

end Scriptlet
