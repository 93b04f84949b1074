/-!
# Source texts and positions

A script is read from a named text, and everything said about it afterwards, from a token
to an error, points back into that text.

## Main definitions

* `Source` — a text with the name it is known by
* `Position` — a place between two characters of a source
* `Position.advanceAll` — the place reached by reading a run of characters
-/

namespace Scriptlet

/-- A named text: a file, or one line of a session. -/
structure Source where
  name : String
  text : String
  deriving DecidableEq, Repr, Inhabited

/-- A place in a source: how many bytes of UTF-8 stand before it, and its line and column.
Lines and columns count from one, and a column counts characters. -/
structure Position where
  source : Source
  index : Nat
  line : Nat
  column : Nat
  deriving DecidableEq, Repr

namespace Position

/-- The place before the first character. -/
def start (source : Source) : Position := ⟨source, 0, 1, 1⟩

/-- The place after one character: a line feed begins a new line. -/
def advance (p : Position) (c : Char) : Position :=
  if c = '\n' then
    { p with index := p.index + c.utf8Size, line := p.line + 1, column := 1 }
  else
    { p with index := p.index + c.utf8Size, column := p.column + 1 }

/-- The place after a run of characters. -/
def advanceAll (p : Position) (cs : List Char) : Position := cs.foldl advance p

@[simp] theorem advanceAll_nil (p : Position) : p.advanceAll [] = p := rfl

@[simp] theorem advanceAll_cons (p : Position) (c : Char) (cs : List Char) :
    p.advanceAll (c :: cs) = (p.advance c).advanceAll cs := rfl

/-- Behind one text and another is behind both of them. -/
theorem advanceAll_append (p : Position) (cs ds : List Char) :
    p.advanceAll (cs ++ ds) = (p.advanceAll cs).advanceAll ds :=
  List.foldl_append

@[simp] theorem advance_source (p : Position) (c : Char) : (p.advance c).source = p.source := by
  unfold advance; split <;> rfl

@[simp] theorem advance_index (p : Position) (c : Char) :
    (p.advance c).index = p.index + c.utf8Size := by
  unfold advance; split <;> rfl

@[simp] theorem advanceAll_source (p : Position) (cs : List Char) :
    (p.advanceAll cs).source = p.source := by
  induction cs generalizing p with
  | nil => rfl
  | cons c cs ih => simp [ih]

end Position

end Scriptlet
