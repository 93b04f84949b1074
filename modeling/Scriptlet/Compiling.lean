import Scriptlet.Tokenizing
import Scriptlet.Parse.Program
import Scriptlet.Code.Generator
import Scriptlet.Excerpt

/-!
# Compiling a source

## Main definitions

* `Error` — what is wrong with a source: a character or its syntax
* `Error.message`, `Error.render` — an error in words, and with the part of the source that
  it concerns
* `Source.tree` — the syntax tree of a source
* `Source.compile` — the text of its code
-/

namespace Scriptlet

/-- What is wrong with a source. -/
inductive Error
  | lex (error : LexError)
  | parse (error : ParseError)
  deriving DecidableEq, Repr

/-- A fault in words. -/
def Lexeme.Fault.description : Lexeme.Fault → String
  | illegalCharacter c => "Illegal Character: '" ++ c.toString ++ "'"
  | expectedCharacter expected after =>
    "Expected Character: '" ++ expected.toString ++ "' (after '" ++ after.toString ++ "')"

/-- A place in words. -/
def Position.description (p : Position) : String :=
  p.source.name ++ ", line " ++ toString p.line ++ ", column " ++ toString p.column

namespace Error

/-- Where the part that an error concerns begins. -/
def start : Error → Position
  | lex e => e.start
  | parse e => e.start

/-- Where the part that an error concerns ends. -/
def stop : Error → Position
  | lex e => e.stop
  | parse e => e.stop

/-- What is wrong, in words. -/
def description : Error → String
  | lex e => e.fault.description
  | parse e => e.description

/-- What is wrong and where, in words. -/
def message (e : Error) : String := e.description ++ " at " ++ e.start.description

/-- An error in words, followed by the part of the source that it concerns. -/
def render (e : Error) : String := e.message ++ "\n\n" ++ Excerpt.render e.start e.stop

end Error

namespace Source

/-- The syntax tree of a source. -/
def tree (s : Source) : Except Error Tree := do
  let tokens ← s.tokens.mapError .lex
  (Tree.ofTokens tokens).mapError .parse

/-- The text of the code of a source. -/
def compile (s : Source) : Except Error String := do
  let tree ← s.tree
  return Instruction.listing tree.code

/-- What is computed of the tree of a source holds of it. -/
theorem exists_tree {s : Source} {p : Tree → Bool} (h : s.tree.toOption.any p) :
    ∃ root, s.tree = .ok root ∧ p root := by
  cases parsed : s.tree with
  | error e =>
    rw [parsed] at h
    cases h
  | ok root =>
    rw [parsed] at h
    exact ⟨root, rfl, h⟩

end Source

end Scriptlet
