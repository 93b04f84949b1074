import Mathlib.Data.List.DropRight
import Scriptlet.Proofs.Source.Places

/-!
# What an excerpt marks

An error concerns the characters between two places of a source. Its excerpt shows lines by their
numbers and puts marks below columns, so the question is which lines and columns these characters
have. Lines and columns put places in the same order as bytes do, and every column of a line up to
the one behind its last character is that of a place. With that the arithmetic of an excerpt can be
compared with the characters themselves.

An excerpt shows the line on which the part ends, even when the part ends with the line feed before
it and reaches no character there.

## Main definitions

* `Position.Before` — the order of places by line and column
* `Source.CharacterAt` — a character and the place where it stands
* `Source.Covers` — a column of a line holds a character of a part
* `Source.Marks` — marks below a line tell the characters of a part

## Main results

* `Source.Place.index_lt_iff` — bytes and lines put places in the same order
* `Source.exists_place_iff` — the lines and columns that places have
* `Source.excerpt_of_error` — which lines the excerpt of an error shows, and what it marks
-/

namespace Scriptlet

/-! ### The order of places -/

namespace Position

/-- A place comes before another in reading: on an earlier line, or on the same one further to the
left. -/
def Before (p q : Position) : Prop :=
  p.line < q.line ∨ p.line = q.line ∧ p.column < q.column

theorem Before.trans {p q r : Position} (h : p.Before q) (h' : q.Before r) : p.Before r := by
  unfold Before at *
  omega

theorem Before.asymm {p q : Position} (h : p.Before q) : ¬ q.Before p := by
  unfold Before at *
  omega

theorem before_advance (p : Position) (c : Char) : p.Before (p.advance c) := by
  unfold Before advance
  split
  · exact .inl (Nat.lt_succ_self _)
  · exact .inr ⟨rfl, Nat.lt_succ_self _⟩

theorem before_advanceAll (p : Position) {cs : List Char} (ne : cs ≠ []) :
    p.Before (p.advanceAll cs) := by
  induction cs generalizing p with
  | nil => exact absurd rfl ne
  | cons c cs ih =>
    rw [advanceAll_cons]
    by_cases last : cs = []
    · rw [last]
      exact p.before_advance c
    · exact (p.before_advance c).trans (ih _ last)

end Position

namespace Source.Place

variable {s : Source} {p q : Position}

theorem iff_prefix :
    s.Place p ↔ ∃ u, u <+: s.text.toList ∧ p = (Position.start s).advanceAll u := by
  constructor
  · rintro ⟨u, after, whole, eq⟩
    exact ⟨u, ⟨after, whole.symm⟩, eq⟩
  · rintro ⟨u, ⟨after, whole⟩, eq⟩
    exact ⟨u, after, whole.symm, eq⟩

/-- Of two places the one that is reached first has fewer bytes before it, and an earlier line or
column. -/
theorem trichotomy (hp : s.Place p) (hq : s.Place q) :
    p = q ∨ (p.index < q.index ∧ p.Before q) ∨ (q.index < p.index ∧ q.Before p) := by
  have behind {u v : List Char} (prefixed : u <+: v) :
      (Position.start s).advanceAll u = (Position.start s).advanceAll v ∨
        ((Position.start s).advanceAll u).index < ((Position.start s).advanceAll v).index ∧
          ((Position.start s).advanceAll u).Before ((Position.start s).advanceAll v) := by
    obtain ⟨rest, rfl⟩ := prefixed
    rw [Position.advanceAll_append]
    by_cases same : rest = []
    · rw [same]
      exact .inl rfl
    · exact .inr ⟨Position.index_lt_advanceAll _ same, Position.before_advanceAll _ same⟩
  obtain ⟨u, isPrefix, rfl⟩ := iff_prefix.mp hp
  obtain ⟨v, isPrefix', rfl⟩ := iff_prefix.mp hq
  rcases List.prefix_or_prefix_of_prefix isPrefix isPrefix' with prefixed | prefixed
  · exact (behind prefixed).imp_right .inl
  · exact (behind prefixed).imp Eq.symm .inr

/-- Bytes and lines put places in the same order. -/
theorem index_lt_iff (hp : s.Place p) (hq : s.Place q) : p.index < q.index ↔ p.Before q := by
  rcases trichotomy hp hq with rfl | ⟨less, before⟩ | ⟨less, before⟩
  · simp [Position.Before]
  · exact iff_of_true less before
  · exact iff_of_false (by omega) before.asymm

end Source.Place

/-! ### Lines and columns -/

/-- The lines of a source, without the line feeds between them. -/
def Source.lines (s : Source) : List (List Char) := Text.split '\n' s.text.toList

/-- The line of this number. -/
def Source.line (s : Source) (number : Nat) : List Char := s.lines[number - 1]?.getD []

/-- The line of this number as an excerpt shows it, without carriage returns at its end. -/
def Source.shownLine (s : Source) (number : Nat) : List Char :=
  (s.line number).rdropWhile (· == '\r')

theorem Source.length_shownLine_le (s : Source) (number : Nat) :
    (s.shownLine number).length ≤ (s.line number).length :=
  (List.rdropWhile_prefix _ _).length_le

namespace Position

/-- Reading some of a text from a place on leads to this line and column. -/
def Reaches (p : Position) (text : List Char) (line column : Nat) : Prop :=
  ∃ u, u <+: text ∧ (p.advanceAll u).line = line ∧ (p.advanceAll u).column = column

variable {p : Position} {text : List Char} {c : Char} {line column : Nat}

theorem reaches_nil : p.Reaches [] line column ↔ p.line = line ∧ p.column = column := by
  simp [Reaches]

theorem reaches_cons : p.Reaches (c :: text) line column ↔
    (p.line = line ∧ p.column = column) ∨ (p.advance c).Reaches text line column := by
  constructor
  · rintro ⟨u, isPrefix, atPlace⟩
    rcases List.prefix_cons_iff.mp isPrefix with rfl | ⟨v, rfl, inside⟩
    · exact .inl atPlace
    · exact .inr ⟨v, inside, atPlace⟩
  · rintro (atPlace | ⟨v, isPrefix, atPlace⟩)
    · exact ⟨[], List.nil_prefix, atPlace⟩
    · exact ⟨c :: v, List.cons_prefix_cons.mpr ⟨rfl, isPrefix⟩, atPlace⟩

theorem Reaches.le_line (h : p.Reaches text line column) : p.line ≤ line := by
  obtain ⟨u, -, rfl, -⟩ := h
  rw [advanceAll_line]
  exact Nat.le_add_right _ _

/-- The lines reached along a text are its pieces between line feeds. Each has a column for every
character in it and one more behind the last. -/
theorem reaches_iff (i k : Nat) :
    p.Reaches text (p.line + i) ((if i = 0 then p.column else 1) + k) ↔
      ∃ piece, (Text.split '\n' text)[i]? = some piece ∧ k ≤ piece.length := by
  induction text generalizing p i k with
  | nil =>
    rw [reaches_nil]
    cases i <;> simp [Text.split]
  | cons c rest ih =>
    rw [reaches_cons]
    by_cases feed : c = '\n'
    · rw [feed, Text.split, if_pos rfl]
      have onward := @ih (p.advance '\n')
      have line : (p.advance '\n').line = p.line + 1 := rfl
      have column : (p.advance '\n').column = 1 := rfl
      rw [line, column] at onward
      cases i with
      | zero =>
        have behind : ¬ (p.advance '\n').Reaches rest p.line (p.column + k) := fun reached =>
          Nat.not_succ_le_self _ (line ▸ reached.le_line)
        simp [behind]
      | succ i => simpa [Nat.add_assoc, Nat.add_comm 1 i] using onward i k
    · obtain ⟨piece, pieces, split⟩ :=
        List.exists_cons_of_ne_nil (Text.split_ne_nil '\n' rest)
      rw [Text.split_cons_of_ne feed split]
      have onward := @ih (p.advance c)
      have line : (p.advance c).line = p.line := by rw [advance, if_neg feed]
      have column : (p.advance c).column = p.column + 1 := by rw [advance, if_neg feed]
      rw [line, column, split] at onward
      cases i with
      | zero =>
        cases k with
        | zero => simp
        | succ k => simpa [Nat.add_assoc, Nat.add_comm 1 k] using onward 0 k
      | succ i => simpa using onward (i + 1) k

end Position

/-- The lines and columns that places of a source have. -/
theorem Source.exists_place_iff {s : Source} {number column : Nat} (first : 0 < number)
    (left : 0 < column) :
    (∃ p, s.Place p ∧ p.line = number ∧ p.column = column) ↔
      number ≤ s.lines.length ∧ column ≤ (s.line number).length + 1 := by
  -- lines and columns are counted from one, and reached from the beginning in as many steps
  have reached : (Position.start s).Reaches s.text.toList _ _ ↔ _ :=
    Position.reaches_iff (number - 1) (column - 1)
  have line : (Position.start s).line + (number - 1) = number := Nat.add_sub_of_le first
  have column_eq : (if number - 1 = 0 then (Position.start s).column else 1) + (column - 1) =
      column := by
    rw [show (Position.start s).column = 1 from rfl, ite_self, Nat.add_sub_of_le left]
  rw [line, column_eq] at reached
  calc
    _ ↔ (Position.start s).Reaches s.text.toList number column := by
      simp only [Place.iff_prefix, Position.Reaches]
      constructor
      · rintro ⟨_, ⟨u, isPrefix, rfl⟩, atPlace⟩
        exact ⟨u, isPrefix, atPlace⟩
      · rintro ⟨u, isPrefix, atPlace⟩
        exact ⟨_, ⟨u, isPrefix, rfl⟩, atPlace⟩
    _ ↔ ∃ piece, s.lines[number - 1]? = some piece ∧ column - 1 ≤ piece.length := reached
    _ ↔ _ := by
      by_cases isLine : number ≤ s.lines.length
      · have lt : number - 1 < s.lines.length := by omega
        simp only [Source.line, List.getElem?_eq_getElem lt, Option.some.injEq, exists_eq_left',
          Option.getD_some]
        omega
      · have none : s.lines[number - 1]? = none := List.getElem?_eq_none (by omega)
        simp [none, isLine]

theorem Source.Place.bounds {s : Source} {p : Position} (h : s.Place p) :
    0 < p.line ∧ 0 < p.column ∧ p.line ≤ s.lines.length ∧
      p.column ≤ (s.line p.line).length + 1 := by
  have faithful := h.faithful
  have line : 0 < p.line := by rw [faithful.line]; omega
  have column : 0 < p.column := by rw [faithful.column]; omega
  exact ⟨line, column, (Source.exists_place_iff line column).mp ⟨p, h, rfl, rfl⟩⟩

/-! ### The characters of a part -/

/-- A character of a source, and the place where it stands. -/
def Source.CharacterAt (s : Source) (p : Position) (c : Char) : Prop :=
  ∃ before after, s.text.toList = before ++ c :: after ∧ p = (Position.start s).advanceAll before

/-- A column of a line holds a character whose bytes lie from one place on and before another. -/
def Source.Covers (s : Source) (start stop : Position) (number column : Nat) : Prop :=
  ∃ p c, s.CharacterAt p c ∧ p.line = number ∧ p.column = column ∧
    start.index ≤ p.index ∧ p.index < stop.index

/-- At a place that has another behind it stands a character. -/
theorem Source.Place.exists_characterAt_iff {s : Source} {p stop : Position}
    (isPlace : s.Place stop)
    (before : p.index < stop.index) : (∃ c, s.CharacterAt p c) ↔ s.Place p := by
  constructor
  · rintro ⟨c, u, after, whole, eq⟩
    exact ⟨u, c :: after, whole, eq⟩
  · rintro ⟨u, after, whole, rfl⟩
    cases after with
    | nil =>
      -- Nothing is left to read behind the place, so no other place comes after it.
      obtain ⟨v, ⟨rest, whole'⟩, rfl⟩ := iff_prefix.mp isPlace
      rw [← whole'.trans (whole.trans (List.append_nil u)), Position.advanceAll_append,
        Position.advanceAll_index _ rest] at before
      exact absurd before (Nat.not_lt_of_le (Nat.le_add_right _ _))
    | cons c after => exact ⟨c, u, after, whole, rfl⟩

/-- The columns of a part, told by the lines and columns where it begins and ends. On the lines
before the last one the line feed has a column too. -/
theorem Source.covers_iff {s : Source} {start stop : Position} (isStart : s.Place start)
    (isStop : s.Place stop) {number column : Nat} :
    s.Covers start stop number column ↔ 0 < column ∧
      (start.line < number ∨ start.line = number ∧ start.column ≤ column) ∧
      (number < stop.line ∧ column ≤ (s.line number).length + 1 ∨
        number = stop.line ∧ column < stop.column) := by
  -- places stand in the order of their lines and columns, as their indices do
  have started {p : Position} (isPlace : s.Place p) : start.index ≤ p.index ↔
      start.line < p.line ∨ start.line = p.line ∧ start.column ≤ p.column := by
    rw [← Nat.not_lt, isPlace.index_lt_iff isStart, Position.Before]
    omega
  have ended {p : Position} (isPlace : s.Place p) : p.index < stop.index ↔
      p.line < stop.line ∨ p.line = stop.line ∧ p.column < stop.column :=
    isPlace.index_lt_iff isStop
  have ⟨firstLine, _, _, _⟩ := isStart.bounds
  have ⟨_, _, lastLine, lastColumn⟩ := isStop.bounds
  constructor
  · rintro ⟨p, c, character, rfl, rfl, behind, before⟩
    have isPlace := (isStop.exists_characterAt_iff before).mp ⟨c, character⟩
    have ⟨_, left, _, right⟩ := isPlace.bounds
    refine ⟨left, (started isPlace).mp behind, ?_⟩
    have := (ended isPlace).mp before
    omega
  · rintro ⟨left, behind, before⟩
    -- a column on an inner line is one of its characters or its line feed
    have right : column ≤ (s.line number).length + 1 := by
      rcases before with ⟨-, right⟩ | ⟨rfl, right⟩ <;> omega
    obtain ⟨p, isPlace, rfl, rfl⟩ := (exists_place_iff (s := s) (by omega) left).mpr
      ⟨by omega, right⟩
    have before' : p.index < stop.index := (ended isPlace).mpr (by omega)
    obtain ⟨c, character⟩ := (isStop.exists_characterAt_iff before').mpr isPlace
    exact ⟨p, c, character, rfl, rfl, (started isPlace).mpr behind, before'⟩

/-- The lines of a part are those from where it begins to where it ends. The last of them may have
none of its characters. -/
theorem Source.exists_covers_iff {s : Source} {start stop : Position} (isStart : s.Place start)
    (isStop : s.Place stop) (ordered : start.index ≤ stop.index) (number : Nat) :
    ((∃ column, s.Covers start stop number column) ∨
        number = stop.line ∧ (start.index = stop.index ∨ stop.column = 1)) ↔
      start.line ≤ number ∧ number ≤ stop.line := by
  simp only [covers_iff isStart isStop]
  have ⟨_, left, _, right⟩ := isStart.bounds
  have ⟨_, left', _, _⟩ := isStop.bounds
  have inOrder : ¬ stop.Before start := by
    rw [← isStop.index_lt_iff isStart]
    omega
  -- either nothing is covered or the end stands behind the beginning
  have apart : start.index = stop.index ∨ start.Before stop := by
    rw [← isStart.index_lt_iff isStop]
    omega
  unfold Position.Before at inOrder apart
  constructor
  · rintro (⟨column, inside⟩ | ⟨rfl, -⟩) <;> omega
  · rintro ⟨behind, before⟩
    -- the first line holds the first column, and a line behind it holds its own first column
    by_cases own : number = start.line
    · subst own
      by_cases last : start.line = stop.line
      · by_cases empty : start.index = stop.index
        · exact .inr ⟨last, .inl empty⟩
        · exact .inl ⟨start.column, left, by omega, by omega⟩
      · exact .inl ⟨start.column, left, by omega, .inl ⟨by omega, right⟩⟩
    · by_cases last : number = stop.line
      · by_cases unreached : stop.column = 1
        · exact .inr ⟨last, .inr unreached⟩
        · exact .inl ⟨1, by omega⟩
      · exact .inl ⟨1, by omega⟩

/-! ### Lines with their marks -/

/-- Marks below a line, behind some blanks, tell the characters of a part: they stand below columns
that hold one, and all that are shown have a mark. A line without such a character has a single
mark, where the part begins if it begins on this line. -/
structure Source.Marks (s : Source) (start stop : Position) (number blanks marks : Nat) : Prop where
  positive : 0 < marks
  marked : ∀ column, blanks < column → column ≤ blanks + marks →
    s.Covers start stop number column ∨
      (∀ other, ¬ s.Covers start stop number other) ∧ marks = 1 ∧
        (number = start.line → column = start.column)
  complete : ∀ column, s.Covers start stop number column →
    column ≤ (s.shownLine number).length → blanks < column ∧ column ≤ blanks + marks

namespace Excerpt

variable {s : Source} {start stop : Position}

theorem marks_markColumns (isStart : s.Place start) (isStop : s.Place stop)
    (ordered : start.index ≤ stop.index) {number : Nat} (behind : start.line ≤ number)
    (before : number ≤ stop.line) :
    let columns := markColumns start stop number (s.shownLine number).length
    s.Marks start stop number columns.1 columns.2 := by
  have ⟨_, left, _, right⟩ := isStart.bounds
  have ⟨_, left', _, _⟩ := isStop.bounds
  have inOrder : ¬ stop.Before start := by
    rw [← isStop.index_lt_iff isStart]
    omega
  have shorter := s.length_shownLine_le number
  have inLine : number = start.line → start.column ≤ (s.line number).length + 1 :=
    fun first => first ▸ right
  unfold Position.Before at inOrder
  intro columns
  -- on the first line marks begin at the first column of the part, and elsewhere at the margin
  have own : number = start.line → columns.1 = start.column - 1 := fun own => if_pos own
  have other : number ≠ start.line → columns.1 = 0 := fun other => if_neg other
  -- on the last line marks end with the part, and elsewhere with the line
  have final : number = stop.line → columns.2 = max (stop.column - 1 - columns.1) 1 := by
    intro final
    simp only [columns, markColumns, if_pos final]
  have inner : number ≠ stop.line →
      columns.2 = max ((s.shownLine number).length - columns.1) 1 := by
    intro inner
    simp only [columns, markColumns, if_neg inner]
  constructor
  case positive => by_cases last : number = stop.line <;> omega
  case marked =>
    intro column above upTo
    simp only [Source.covers_iff isStart isStop]
    -- a line of which nothing is covered has one mark all the same
    by_cases unreached : number = stop.line ∧ stop.column - 1 ≤ columns.1
    · right
      refine ⟨fun other inside => ?_, by omega, by omega⟩
      by_cases first : number = start.line <;> omega
    · left
      by_cases first : number = start.line <;> by_cases last : number = stop.line <;> omega
  case complete =>
    intro column
    rw [Source.covers_iff isStart isStop]
    by_cases first : number = start.line <;> by_cases last : number = stop.line <;> omega

/-- The lines of a list from one to another, with their numbers. -/
theorem zipIdx_take_drop {α : Type} (lines : List (List α)) {first count : Nat}
    (positive : 0 < first) (le : first - 1 + count ≤ lines.length) :
    ((lines.drop (first - 1)).take count).zipIdx first =
      (List.range' first count).map fun number => (lines[number - 1]?.getD [], number) := by
  apply List.ext_getElem
  · simp
    omega
  · intro i lt lt'
    have inside : first + i - 1 < lines.length := by
      simp only [List.length_map, List.length_range'] at lt'
      omega
    have shift : first - 1 + i = first + i - 1 := by omega
    simp [shift, inside]

/-- An excerpt shows the lines from that of one place to that of another. -/
theorem render_eq (isStart : s.Place start) (isStop : s.Place stop)
    (ordered : start.index ≤ stop.index) :
    render start stop = String.ofList
      ((List.range' start.line (stop.line + 1 - start.line)).flatMap fun number =>
        let columns := markColumns start stop number (s.shownLine number).length
        s.shownLine number ++ '\n' :: List.replicate columns.1 ' ' ++
          List.replicate columns.2 '^' ++ ['\n']) := by
  have ⟨first, _, _, _⟩ := isStart.bounds
  have ⟨_, _, last, _⟩ := isStop.bounds
  have inOrder : ¬ stop.Before start := by
    rw [← isStop.index_lt_iff isStart]
    omega
  unfold Position.Before at inOrder
  have count : max stop.line start.line - start.line + 1 = stop.line + 1 - start.line := by omega
  have source : start.source = s := isStart.faithful.source
  have fits : start.line - 1 + (stop.line + 1 - start.line) ≤ s.lines.length := by omega
  rw [render, count, source, ← Source.lines, zipIdx_take_drop s.lines first fits,
    List.flatMap_map]
  rfl

end Excerpt

/-! ### The part that an error concerns -/

/-- The tokens of a source end behind their beginnings, and the end of input where it begins. -/
theorem Source.start_le_stop_of_tokens {s : Source} {tokens : List Token}
    (read : s.tokens = .ok tokens) : ∀ t ∈ tokens, t.start.index ≤ t.stop.index := by
  obtain ⟨w, cut, rfl⟩ := Token.readFrom_eq_ok_iff.mp read
  exact List.forall_mem_append.mpr ⟨fun t mem => Nat.le_of_lt (cut.ordered.1.nonempty t mem),
    List.forall_mem_singleton.mpr (Nat.le_refl _)⟩

/-- An error concerns the part of a source from one of its places to the same or a later one. -/
theorem Source.places_of_error {s : Source} {e : Error} (failed : s.tree = .error e) :
    s.Place e.start ∧ s.Place e.stop ∧ e.start.index ≤ e.stop.index := by
  cases read : s.tokens with
  | error e' =>
    rw [tree, read] at failed
    cases failed
    have places := places_of_lexError read
    refine ⟨places.1, places.2, ?_⟩
    obtain ⟨_, _, _, -, -, -, -, -, stop⟩ := Token.exists_of_readFrom_eq_error read
    exact (congrArg Position.index stop).trans (Position.advanceAll_index _ _) ▸
      Nat.le_add_right _ _
  | ok tokens =>
    rw [tree_of_tokens read] at failed
    obtain ⟨e', atTokens, rfl⟩ := mapError_eq_error_iff.mp failed
    have places := places_of_parseError read atTokens
    refine ⟨places.1, places.2, ?_⟩
    have ordered := start_le_stop_of_tokens read
    obtain ⟨w, cut, rfl⟩ := Token.readFrom_eq_ok_iff.mp read
    rw [Tree.ofTokens, cut.ofTokens_eq rfl] at atTokens
    obtain ⟨f, script, rfl⟩ := mapError_eq_error_iff.mp atTokens
    -- an error concerns one token or an expression of several
    rcases Grammar.script_error_spans script with ⟨t, mem, start, stop⟩ | ⟨part, inside, spans⟩
    · have inOrder := ordered t mem
      rw [← start, ← stop] at inOrder
      exact inOrder
    · have partOrdered := cut.ordered.1.sublist inside.sublist
      obtain ⟨⟨t, mem, start⟩, -⟩ := spans.exists_mem
      obtain ⟨behind, before⟩ := partOrdered.between spans t mem
      have own := partOrdered.nonempty t mem
      exact Nat.le_trans behind (Nat.le_trans (Nat.le_of_lt own) before)

/-- The excerpt of an error shows, one below the other and with a line of marks behind each, the
lines that hold some of the characters which the error concerns. The line where these end is shown
in any case: it holds none of them if there are none, or if the last is the line feed before it.
The marks tell these characters and nothing else. -/
theorem Source.excerpt_of_error {s : Source} {e : Error} (failed : s.compile = .error e) :
    ∃ (shown : List Nat) (blanks marks : Nat → Nat),
      Excerpt.render e.start e.stop = String.ofList (shown.flatMap fun number =>
        s.shownLine number ++ '\n' :: List.replicate (blanks number) ' ' ++
          List.replicate (marks number) '^' ++ ['\n']) ∧
      shown.Pairwise (· < ·) ∧
      (∀ number, number ∈ shown ↔ (∃ column, s.Covers e.start e.stop number column) ∨
        number = e.stop.line ∧ (e.start.index = e.stop.index ∨ e.stop.column = 1)) ∧
      ∀ number ∈ shown, s.Marks e.start e.stop number (blanks number) (marks number) := by
  have parsed : s.tree = .error e := by
    cases parsed : s.tree with
    | ok root => cases (compile_of_tree parsed).symm.trans failed
    | error e' =>
      rw [compile, parsed] at failed
      cases failed
      rfl
  obtain ⟨isStart, isStop, ordered⟩ := places_of_error parsed
  refine ⟨_, _, _, Excerpt.render_eq isStart isStop ordered, List.pairwise_lt_range' .., ?_, ?_⟩
  · intro number
    rw [exists_covers_iff isStart isStop ordered, List.mem_range'_1]
    omega
  · intro number mem
    rw [List.mem_range'_1] at mem
    exact Excerpt.marks_markColumns isStart isStop ordered mem.1 (by omega)

theorem Source.excerpt_of_error_string :
    let s : Source := ⟨"", "let \"a\nb\" + 1"⟩
    ∃ e blanks marks, s.compile = .error e ∧
      Excerpt.render e.start e.stop = "let \"a\n    ^^\nb\" + 1\n^^\n" ∧
      s.Marks e.start e.stop 2 blanks marks := by
  intro s
  have failed : s.compile = .error (.parse ⟨.expected .identifier, some "\"a\nb\"", ⟨s, 4, 1, 5⟩,
      ⟨s, 9, 2, 3⟩⟩) := by
    decide +kernel
  obtain ⟨shown, blanks, marks, -, -, isShown, marked⟩ := Source.excerpt_of_error failed
  have second : s.Covers ⟨s, 4, 1, 5⟩ ⟨s, 9, 2, 3⟩ 2 1 :=
    ⟨⟨s, 7, 2, 1⟩, 'b', ⟨['l', 'e', 't', ' ', '"', 'a', '\n'], ['"', ' ', '+', ' ', '1'],
      by decide +kernel, by decide +kernel⟩, rfl, rfl, by decide, by decide⟩
  exact ⟨_, blanks 2, marks 2, failed, by decide +kernel,
    marked 2 ((isShown 2).mpr (.inl ⟨1, second⟩))⟩

/-- A separator that is a line feed ends on the next line, which has no part in it and is shown all
the same. -/
theorem Source.excerpt_of_error_lineFeed :
    let s : Source := ⟨"", "let\nx"⟩
    ∃ e, s.compile = .error e ∧ e.start.index < e.stop.index ∧
      Excerpt.render e.start e.stop = "let\n   ^\nx\n^\n" ∧
      ∀ column, ¬ s.Covers e.start e.stop 2 column := by
  intro s
  have failed : s.compile = .error (.parse ⟨.expected .identifier, some "newline", ⟨s, 3, 1, 4⟩,
      ⟨s, 4, 2, 1⟩⟩) := by
    decide +kernel
  have isStart : s.Place ⟨s, 3, 1, 4⟩ := ⟨['l', 'e', 't'], ['\n', 'x'], by decide +kernel, rfl⟩
  have isStop : s.Place ⟨s, 4, 2, 1⟩ := ⟨['l', 'e', 't', '\n'], ['x'], by decide +kernel, rfl⟩
  refine ⟨_, failed, Nat.lt_succ_self 3, by decide +kernel, fun column inside => ?_⟩
  have ⟨left, _, right⟩ := (covers_iff isStart isStop).mp inside
  simp only [Nat.lt_irrefl, false_and, true_and, false_or] at right
  exact Nat.not_lt_of_le left right

end Scriptlet
