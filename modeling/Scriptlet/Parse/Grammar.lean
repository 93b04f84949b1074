import Scriptlet.Parse.Rule

/-!
# The grammar of scripts

From the loosest to the tightest, expressions are built as follows; parts in brackets may be
left out, and a star stands for any number of repetitions.

* statements: separators around and between expressions, at least one expression
* expression: `let` name `=` expression, or operands joined by `&&` and `||`
* comparison: `!` comparison, or sums joined by relational operators
* arithmetic: terms joined by `+` and `-`; a term is factors joined by `*` and `/`
* factor: a sign and a factor, or a call
* call: atom [`(` [expression (`,` expression)*] `)`]
* atom: a literal, a name, a parenthesised expression, or a compound expression

Joined operands associate to the left. The compound expressions are conditionals, loops and
function definitions, and their bodies are statements between curly brackets.

## Main definitions

* `Grammar` — rules for the parts of a script that nest
* `Grammar.next` — rules for one token more
* `Grammar.upTo` — rules for any number of tokens
-/

namespace Scriptlet

/-- Rules for the parts of a script that occur inside other parts. -/
structure Grammar (n : Nat) where
  expression : Rule n Tree
  comparison : Rule n Tree
  arithmetic : Rule n Tree
  factor : Rule n Tree

namespace Grammar

open Rule

variable {n : Nat} {α : Type}

/-! ### Operators by level -/

/-- The operators that join conditions. -/
def isLogical (k : Token.Kind) : Bool := k == .and || k == .or

/-- The operators that compare. -/
def isRelational : Token.Kind → Bool
  | .equal | .notEqual | .less | .greater | .lessEqual | .greaterEqual => true
  | _ => false

/-- The operators of sums, which are also signs. -/
def isAdditive (k : Token.Kind) : Bool := k == .plus || k == .minus

/-- The operators of products. -/
def isMultiplicative (k : Token.Kind) : Bool := k == .times || k == .divide

/-! ### Brackets -/

/-- Reads a part between round brackets. -/
def parenthesised (inside : Rule n α) : Rule n α := do
  let _ ← expect .leftParen .leftParen
  let value ← inside
  let _ ← expect .rightParen .rightParen
  return value

/-- Reads statements between curly brackets; also says where the closing one ends. -/
def block (g : Grammar n) : Rule n (Tree × Position) := do
  let _ ← expect .leftCurl .leftCurl
  let body ← statements g.expression
  let close ← expect .rightCurl .rightCurl
  return (body, close.stop)

/-- Reads the arguments of a call and the bracket that closes them; also says where that
ends. -/
def arguments (g : Grammar n) : Rule n (List Tree × Position) :=
  ifNext (·.kind == .rightParen) (fun close => return ([], close.stop)) do
    let first ← pin .expectedArgument g.expression
    let others ← afterCommas g.expression
    let close ← expect .rightParen .commaOrRightParen
    return (first :: others, close.stop)

/-- Reads the parameters of a function and the bracket that closes them. -/
def parameters : Rule n (List Token) :=
  ifNext (·.kind == .identifier)
    (fun first => do
      let others ← afterCommas (expect .identifier .identifier)
      let _ ← expect .rightParen .commaOrRightParen
      return first :: others)
    (do
      let _ ← expect .rightParen .identifierOrRightParen
      return [])

/-! ### Compound expressions

Each is read after its word, which stands at `start`. -/

/-- Reads what follows the word of a conditional. -/
def conditional (g : Grammar n) (start : Position) : Rule n Tree := do
  let condition ← parenthesised g.expression
  let (body, stop) ← g.block
  let (others, stop) ← ifNext (·.isKeyword .elseWord)
    (fun _ => do
      let (body, stop) ← g.block
      return (Arms.otherwise body, stop))
    (return (Arms.none, stop))
  return .conditional (.guarded condition body others) start stop

/-- Reads what follows the word of a `for` loop. The first part of its header is any
expression, which then has to be an assignment. -/
def forLoop (g : Grammar n) (start : Position) : Rule n Tree := do
  let _ ← expect .leftParen .leftParen
  match ← g.expression with
  | .assignment letStart name initial =>
    let _ ← expect .comma .comma
    let condition ← g.comparison
    let _ ← expect .comma .comma
    let update ← g.arithmetic
    let _ ← expect .rightParen .rightParen
    let (body, stop) ← g.block
    return .forLoop letStart name initial condition update body start stop
  | other => fail (.notAssignment other)

/-- Reads what follows the word of a `while` loop. -/
def whileLoop (g : Grammar n) (start : Position) : Rule n Tree := do
  let condition ← parenthesised g.expression
  let (body, stop) ← g.block
  return .whileLoop condition body start stop

/-- Reads what follows the word of a function definition. -/
def function (g : Grammar n) (start : Position) : Rule n Tree := do
  let name ← expect .identifier .identifier
  let _ ← expect .leftParen .leftParen
  let parameters ← parameters
  let (body, stop) ← g.block
  return .function name parameters body start stop

/-! ### Atoms and calls -/

/-- The rule for what follows a reserved word that begins an expression of its own. -/
def afterWord? (g : Grammar n) (start : Position) : Keyword → Option (Rule n Tree)
  | .ifWord => some (g.conditional start)
  | .forWord => some (g.forLoop start)
  | .whileWord => some (g.whileLoop start)
  | .funcWord => some (g.function start)
  | .letWord | .elseWord => none

/-- The rule for what follows the first token of an atom, if the token begins one. -/
def afterFirst? (g : Grammar n) (t : Token) : Option (Rule n Tree) :=
  match t.kind with
  | .int | .float => some (return .number t)
  | .string => some (return .string t)
  | .identifier => some (return .reference t)
  | .leftParen => some do
    let tree ← g.expression
    let _ ← expect .rightParen .rightParen
    return tree
  | .keyword => t.keyword?.bind (g.afterWord? t.start)
  | _ => none

/-- Reads a literal, a name, a parenthesised or a compound expression. -/
def atom (g : Grammar n) : Rule (n + 1) Tree :=
  dispatch g.afterFirst? (missing .expectedAtom)

/-- Reads an atom and the arguments it is called with, if a bracket follows it. -/
def call (g : Grammar n) : Rule (n + 1) Tree := do
  let callee ← g.atom
  within (·.kind == .leftParen)
    (fun _ => do
      let (arguments, stop) ← g.arguments
      return .call callee arguments stop)
    (return callee)

/-! ### Levels of operators -/

/-- Reads an operator in front of its operand; without an operator reads by `bare`. -/
def underOperator (isOperator : Token.Kind → Bool) (operand : Rule n Tree)
    (bare : Rule (n + 1) Tree) : Rule (n + 1) Tree :=
  within (isOperator ·.kind) (fun t => return .unary t (← operand)) bare

/-- Reads `let`, a name, `=` and an expression; without `let` reads by `other`. -/
def assignmentOr (g : Grammar n) (other : Rule (n + 1) Tree) : Rule (n + 1) Tree :=
  within (·.isKeyword .letWord)
    (fun t => do
      let name ← expect .identifier .identifier
      let _ ← expect .assign .assign
      return .assignment t.start name (← g.expression))
    other

/-- Rules for one token more, from rules for the parts nested inside. -/
def next (g : Grammar n) : Grammar (n + 1) :=
  let factor := underOperator isAdditive g.factor g.call
  let arithmetic := binaryChain isAdditive (binaryChain isMultiplicative factor)
  let relation := pin .expectedOperand (binaryChain isRelational arithmetic)
  let comparison := underOperator (· == .not) g.comparison relation
  let conditions := pin .expectedExpression (binaryChain isLogical comparison)
  { factor, arithmetic, comparison, expression := g.assignmentOr conditions }

/-- Rules for scripts of fewer than `n` tokens; there are none of fewer than zero. -/
def upTo : (n : Nat) → Grammar n
  | 0 =>
    let never : Rule 0 Tree := fun _ h => absurd h (Nat.not_lt_zero _)
    ⟨never, never, never, never⟩
  | n + 1 => (upTo n).next

end Grammar

end Scriptlet
