import Scriptlet.Source

/-!
# Errors of syntax

## Main definitions

* `Expectation` — a particular word or sign that the grammar asks for
* `ParseError.Kind` — what the grammar asks for at a place
* `ParseError` — what was asked for, what stands there instead, and where
* `ParseError.message` — an error in words
-/

namespace Scriptlet

/-- A particular word, sign or part that the grammar asks for. -/
inductive Expectation
  | leftParen | rightParen | leftCurl | rightCurl | comma | assign | identifier
  | commaOrRightParen | identifierOrRightParen | letAssignment
  deriving DecidableEq, Repr

/-- An expectation in words. -/
def Expectation.description : Expectation → String
  | leftParen => "'('"
  | rightParen => "')'"
  | leftCurl => "'\x7b'"
  | rightCurl => "'\x7d'"
  | comma => "','"
  | assign => "'='"
  | identifier => "identifier"
  | commaOrRightParen => "',' or ')'"
  | identifierOrRightParen => "identifier or ')'"
  | letAssignment => "'let' assignment"

namespace ParseError

/-- What the grammar asks for at a place: something particular, or a part that can begin in
many ways, named for how much of the grammar can stand there. Input that goes on after a
whole script is a kind of its own. -/
inductive Kind
  | expected (what : Expectation)
  | expectedAtom | expectedOperand | expectedExpression | expectedArgument
  | trailingInput
  deriving DecidableEq, Repr

/-- A kind in words. -/
def Kind.description : Kind → String
  | expected what => "Expected " ++ what.description
  | expectedAtom => "Expected number, identifier, 'if', 'for', 'while', 'func'"
  | expectedOperand => "Expected int, float, identifier, '+', '-', '(' or '!'"
  | expectedExpression => "Expected let, if, for, while, func, number or identifier"
  | expectedArgument =>
    "Expected ')', 'let', 'if', 'for', 'while', 'func', int, float, identifier, " ++
      "'+', '-', '(' or '!'"
  | trailingInput => "Expected '+', '-', '*' or '/'"

end ParseError

/-- An error of syntax. At the end of input nothing is found. -/
structure ParseError where
  kind : ParseError.Kind
  found : Option String
  start : Position
  stop : Position
  deriving DecidableEq, Repr

namespace ParseError

/-- An error in words, without its place. -/
def description (e : ParseError) : String :=
  let found := match e.found with
    | some lexeme => ", got '" ++ lexeme ++ "'"
    | none => ""
  "Invalid Syntax: " ++ e.kind.description ++ found

end ParseError

end Scriptlet
