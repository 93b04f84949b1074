import Scriptlet.Lexeme

/-!
# The tokens of a source

A source is cut into lexemes from its first character on, blanks between them left out.
Each lexeme becomes a token at its place, and one more token marks the end.

## Main definitions

* `LexError` — a place where no token begins
* `Token.readFrom` — the tokens of a text whose first character stands at a given place
* `Source.tokens` — the tokens of a source
-/

namespace Scriptlet

/-- A place where no token begins, and why. -/
structure LexError where
  fault : Lexeme.Fault
  start : Position
  stop : Position
  deriving DecidableEq, Repr

/-- The tokens of a text whose first character stands at `p`; the last is the end of
input. -/
def Token.readFrom (p : Position) (text : List Char) : Except LexError (List Token) :=
  match text with
  | [] => .ok [⟨.endOfInput, none, p, p⟩]
  | c :: rest =>
    if Lexeme.isBlank c then readFrom (p.advance c) rest
    else match Lexeme.first c rest with
      | .error fault => .error ⟨fault, p, p.advanceAll ((c :: rest).take fault.extent)⟩
      | .ok lexeme =>
        have := List.length_pos_iff.mpr lexeme.spelling_ne_nil
        let stop := p.advanceAll lexeme.spelling
        (readFrom stop ((c :: rest).drop lexeme.spelling.length)).map
          (⟨lexeme.kind, lexeme.value, p, stop⟩ :: ·)
termination_by text.length
decreasing_by
  · simp
  · simp only [List.length_drop, List.length_cons]
    omega

/-- The tokens of a source. -/
def Source.tokens (s : Source) : Except LexError (List Token) :=
  Token.readFrom (Position.start s) s.text.toList

end Scriptlet
