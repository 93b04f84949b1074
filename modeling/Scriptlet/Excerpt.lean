import Scriptlet.Source
import Scriptlet.Text.Lines

/-!
# Excerpts

An excerpt shows the lines of a source that a part of it touches, each with marks below the
columns that the part covers. A line without such a column is marked once all the same.

## Main definitions

* `Excerpt.markColumns` — which columns of a line are marked
* `Excerpt.render` — the lines from one position to another, with their marks
-/

namespace Scriptlet.Excerpt

/-- How many columns of the line `number` with `width` characters stand before the marks, and
how many marks there are, for a part from `start` to `stop`. -/
def markColumns (start stop : Position) (number width : Nat) : Nat × Nat :=
  let first := if number = start.line then start.column - 1 else 0
  let last := if number = stop.line then stop.column - 1 else width
  (first, max (last - first) 1)

/-- A line of a source and the marks below it. Carriage returns at its end are left out. -/
def renderLine (start stop : Position) (number : Nat) (line : List Char) : List Char :=
  let line := (line.reverse.dropWhile (· == '\r')).reverse
  let (blanks, marks) := markColumns start stop number line.length
  line ++ '\n' :: List.replicate blanks ' ' ++ List.replicate marks '^' ++ ['\n']

/-- The lines of the source from `start` to `stop`, each with its marks. -/
def render (start stop : Position) : String :=
  let lines := (Text.split '\n' start.source.text.toList).drop (start.line - 1)
  let shown := lines.take (max stop.line start.line - start.line + 1)
  String.ofList <| (shown.zipIdx start.line).flatMap fun (line, number) =>
    renderLine start stop number line

end Scriptlet.Excerpt
