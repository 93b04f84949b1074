import Scriptlet.Token.Basic

/-!
# Syntax trees

The tree of a script. Every expression of the language is a tree, loops and definitions
included, and a script is the sequence of its statements. Tokens are kept as leaves and
operators, so that a tree knows the names, the values and the places it came from.

## Main definitions

* `Tree`, `Arms` — syntax trees, and the arms of a conditional
* `Tree.start`, `Tree.stop` — the part of the source that a tree covers
* `Tree.name?` — the variable or function that a tree names
* `Tree.sameAs` — agreement of two trees in everything, places included
-/

namespace Scriptlet

mutual

/-- A syntax tree. Where the places of the parts do not tell how far a tree reaches, it
keeps its own `start` or `stop`. -/
inductive Tree
  | number (token : Token)
  | string (token : Token)
  | reference (token : Token)
  | assignment (start : Position) (name : Token) (value : Tree)
  | binary (left : Tree) (operator : Token) (right : Tree)
  | unary (operator : Token) (operand : Tree)
  | conditional (arms : Arms) (start stop : Position)
  | forLoop (letStart : Position) (name : Token) (initial condition update body : Tree)
      (start stop : Position)
  | whileLoop (condition body : Tree) (start stop : Position)
  | function (name : Token) (parameters : List Token) (body : Tree) (start stop : Position)
  | call (callee : Tree) (arguments : List Tree) (stop : Position)
  | sequence (statements : List Tree) (start stop : Position)

/-- The arms of a conditional: guarded ones, tried in turn, and perhaps one for all other
cases at the end. -/
inductive Arms
  | none
  | otherwise (body : Tree)
  | guarded (condition body : Tree) (others : Arms)

end

namespace Tree

/-- Where a tree begins. -/
def start : Tree → Position
  | number t | string t | reference t => t.start
  | assignment start _ _ => start
  | binary left _ _ => left.start
  | unary operator _ => operator.start
  | conditional _ start _ => start
  | forLoop _ _ _ _ _ _ start _ => start
  | whileLoop _ _ start _ => start
  | function _ _ _ start _ => start
  | call callee _ _ => callee.start
  | sequence _ start _ => start

/-- Where a tree ends. -/
def stop : Tree → Position
  | number t | string t | reference t => t.stop
  | assignment _ _ value => value.stop
  | binary _ _ right => right.stop
  | unary _ operand => operand.stop
  | conditional _ _ stop => stop
  | forLoop _ _ _ _ _ _ _ stop => stop
  | whileLoop _ _ _ stop => stop
  | function _ _ _ _ stop => stop
  | call _ _ stop => stop
  | sequence _ _ stop => stop

/-- The variable or function that a tree names, if it is one that names any. -/
def name? : Tree → Option String
  | reference t => t.text?
  | assignment _ name _ => name.text?
  | function name _ _ _ _ => name.text?
  | _ => none

/-- How many statements a sequence has; one for any other tree. -/
def statementCount : Tree → Nat
  | sequence statements _ _ => statements.length
  | _ => 1

end Tree

/-- How many arms have a guard. -/
def Arms.guardedCount : Arms → Nat
  | none | otherwise _ => 0
  | guarded _ _ others => others.guardedCount + 1

/-- The last arm, if it has no guard. -/
def Arms.otherwise? : Arms → Option Tree
  | none => Option.none
  | otherwise body => some body
  | guarded _ _ others => others.otherwise?

mutual

/-- Whether two trees agree in everything, places included, where doubles compare as in
arithmetic. -/
def Tree.sameAs : Tree → Tree → Bool
  | .number t, .number t' | .string t, .string t' | .reference t, .reference t' => t.sameAs t'
  | .assignment start name value, .assignment start' name' value' =>
    start == start' && name.sameAs name' && value.sameAs value'
  | .binary left operator right, .binary left' operator' right' =>
    left.sameAs left' && operator.sameAs operator' && right.sameAs right'
  | .unary operator operand, .unary operator' operand' =>
    operator.sameAs operator' && operand.sameAs operand'
  | .conditional arms start stop, .conditional arms' start' stop' =>
    arms.sameAs arms' && start == start' && stop == stop'
  | .forLoop letStart name initial condition update body start stop,
    .forLoop letStart' name' initial' condition' update' body' start' stop' =>
    letStart == letStart' && name.sameAs name' && initial.sameAs initial' &&
      condition.sameAs condition' && update.sameAs update' && body.sameAs body' &&
      start == start' && stop == stop'
  | .whileLoop condition body start stop, .whileLoop condition' body' start' stop' =>
    condition.sameAs condition' && body.sameAs body' && start == start' && stop == stop'
  | .function name parameters body start stop, .function name' parameters' body' start' stop' =>
    name.sameAs name' && parameters.isEqv parameters' Token.sameAs && body.sameAs body' &&
      start == start' && stop == stop'
  | .call callee arguments stop, .call callee' arguments' stop' =>
    callee.sameAs callee' && Tree.sameEach arguments arguments' && stop == stop'
  | .sequence statements start stop, .sequence statements' start' stop' =>
    Tree.sameEach statements statements' && start == start' && stop == stop'
  | _, _ => false

/-- Agreement of arms, in turn. -/
def Arms.sameAs : Arms → Arms → Bool
  | .none, .none => true
  | .otherwise body, .otherwise body' => body.sameAs body'
  | .guarded condition body others, .guarded condition' body' others' =>
    condition.sameAs condition' && body.sameAs body' && others.sameAs others'
  | _, _ => false

/-- Agreement of lists of trees, in turn. -/
def Tree.sameEach : List Tree → List Tree → Bool
  | [], [] => true
  | t :: ts, u :: us => t.sameAs u && Tree.sameEach ts us
  | _, _ => false

end

end Scriptlet
