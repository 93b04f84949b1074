import Scriptlet.Proofs.Source.Places

/-!
# Blanks between tokens

Blanks keep lexemes apart and say nothing themselves. Where no token reaches over a place of a text,
blanks may be put in: the tokens stay what they are, those in front of the place stay where they
are, and those behind it move on by as many bytes as there are blanks. Their columns move on as far
only up to the next line feed, which may stand in a string.

A string that is not closed would take the blanks in.

## Main definitions

* `Source.between` — the characters of a source between two numbers of bytes
* `Position.behindBlanks` — where a position comes to lie when blanks are put in before it
* `Token.spaced` — a token of a source into which blanks were put

## Main results

* `Cut.relocate` — a text is cut alike where its places are other ones
* `Cut.exists_append` — a text is cut where no word reaches over
* `Source.tokens_spaced` — the tokens of a source into which blanks were put
-/

namespace Scriptlet

/-- The characters of a source that stand behind its first `start` bytes, up to the byte `stop`. -/
def Source.between (s : Source) (start stop : Nat) : List Char :=
  (String.Pos.Raw.extract s.text ⟨start⟩ ⟨stop⟩).toList

/-- The characters of a part of a text are found by the number of bytes before it and in it. -/
theorem Source.between_eq {s : Source} {before part after : List Char}
    (text : s.text.toList = before ++ part ++ after) :
    s.between (String.utf8Len before) (String.utf8Len before + String.utf8Len part) = part := by
  have extract := String.extract_of_valid before part after
  rw [← text, String.ofList_toList] at extract
  exact (congrArg String.toList extract).trans String.toList_ofList

/-! ### Places that move -/

namespace Position

/-- A position in another source. -/
def inSource (s : Source) (p : Position) : Position := { p with source := s }

/-- A position in the source `s`, which has `n` blanks more than that of the position: they stand
behind the first `split` bytes and before the position. They count in its column if they are on its
line. -/
def behindBlanks (s : Source) (split n : Nat) (p : Position) : Position :=
  ⟨s, p.index + n, p.line,
    if '\n' ∈ p.source.between split p.index then p.column else p.column + n⟩

theorem inSource_advanceAll (s : Source) (p : Position) (cs : List Char) :
    (p.advanceAll cs).inSource s = (p.inSource s).advanceAll cs := by
  induction cs generalizing p with
  | nil => rfl
  | cons c cs ih =>
    rw [advanceAll_cons, advanceAll_cons, ih]
    congr 1
    unfold advance
    split <;> rfl

/-- Columns stay apart up to the next line feed, and are the same behind it. -/
theorem column_advanceAll_of_add {p q : Position} {n : Nat} (h : q.column = p.column + n)
    (cs : List Char) : (q.advanceAll cs).column =
      if '\n' ∈ cs then (p.advanceAll cs).column else (p.advanceAll cs).column + n := by
  induction cs using List.reverseRecOn with
  | nil => simpa using h
  | append_singleton cs c ih =>
    simp only [advanceAll_append, advanceAll_cons, advanceAll_nil, advance]
    by_cases feed : c = '\n'
    · simp [feed]
    · simp only [if_neg feed, ih, List.mem_append, List.mem_singleton, Ne.symm feed, or_false]
      split
      · rfl
      · exact Nat.add_right_comm _ n 1

/-- Each blank is one byte and one column. -/
theorem advanceAll_blanks (p : Position) {cs : List Char} (blank : ∀ c ∈ cs, Lexeme.isBlank c) :
    p.advanceAll cs = ⟨p.source, p.index + cs.length, p.line, p.column + cs.length⟩ := by
  induction cs generalizing p with
  | nil => rfl
  | cons c cs ih =>
    obtain ⟨first, others⟩ := List.forall_mem_cons.mp blank
    have one : p.advance c = ⟨p.source, p.index + 1, p.line, p.column + 1⟩ := by
      rcases Lexeme.isBlank_iff.mp first with rfl | rfl | rfl <;> rfl
    rw [advanceAll_cons, one, ih _ others, List.length_cons]
    simp only [mk.injEq, true_and]
    omega

/-- Behind blanks that were put in, reading goes on as it did without them. -/
theorem behindBlanks_advanceAll {s : Source} {p : Position} {split n : Nat} {part : List Char}
    (read : p.source.between split (p.index + String.utf8Len part) = part) :
    (p.advanceAll part).behindBlanks s split n =
      (⟨s, p.index + n, p.line, p.column + n⟩ : Position).advanceAll part := by
  -- where reading goes on, against the place without the blanks
  let q : Position := ⟨s, p.index + n, p.line, p.column + n⟩
  have column := column_advanceAll_of_add (p := p) (q := q) rfl part
  have index : (q.advanceAll part).index = (p.advanceAll part).index + n := by
    rw [advanceAll_index, advanceAll_index p, Nat.add_right_comm]
  have line : (q.advanceAll part).line = (p.advanceAll part).line := by
    rw [advanceAll_line, advanceAll_line p]
  calc
    _ = (⟨s, (p.advanceAll part).index + n, (p.advanceAll part).line,
        (q.advanceAll part).column⟩ : Position) := by
      rw [behindBlanks, advanceAll_source, advanceAll_index p, read, column]
    _ = ⟨(q.advanceAll part).source, (q.advanceAll part).index, (q.advanceAll part).line,
        (q.advanceAll part).column⟩ := by
      rw [advanceAll_source q, index, line]
    _ = q.advanceAll part := rfl

/-- A source with blanks put in is read up to them as before, and behind them at places that have
moved. -/
theorem behindBlanks_start (s' : Source) {s : Source} {front behind blanks part : List Char}
    (text : s.text.toList = front ++ behind) (blank : ∀ c ∈ blanks, Lexeme.isBlank c)
    (isPrefix : part <+: behind) :
    (((start s).advanceAll front).advanceAll part).behindBlanks s' (String.utf8Len front)
        blanks.length =
      (((start s').advanceAll front).advanceAll blanks).advanceAll part := by
  obtain ⟨after, rfl⟩ := isPrefix
  have same : (start s').advanceAll front = ((start s).advanceAll front).inSource s' :=
    (inSource_advanceAll s' (start s) front).symm
  rw [behindBlanks_advanceAll, advanceAll_blanks _ blank, same]
  · rfl
  · rw [advanceAll_source, start_advanceAll_index]
    exact Source.between_eq (text.trans (List.append_assoc _ _ _).symm)

end Position

/-! ### Words that move -/

/-- A token whose places are other ones. -/
def Token.relocate (f : Position → Position) (t : Token) : Token :=
  { t with start := f t.start, stop := f t.stop }

/-- A token of a source after `n` blanks were put in behind the first `split` bytes, which makes it
one of the source `s`. -/
def Token.spaced (s : Source) (split n : Nat) (t : Token) : Token :=
  if t.kind ≠ .endOfInput ∧ t.stop.index ≤ split then t.relocate (Position.inSource s)
  else t.relocate (Position.behindBlanks s split n)

namespace Cut

variable {p : Position} {text rest blanks : List Char} {w : List Token}

/-- A text is cut alike where it begins at another place and is read on from there. -/
theorem relocate {f : Position → Position} {q : Position} (h : Cut p text w)
    (reads : ∀ u, u <+: text → f (p.advanceAll u) = q.advanceAll u) :
    Cut q text (w.map (Token.relocate f)) := by
  induction h generalizing q with
  | nil => exact .nil
  | @blank p c text w blank _ ih =>
    refine .blank blank (ih fun u isPrefix => ?_)
    exact reads (c :: u) (List.cons_prefix_cons.mpr ⟨rfl, isPrefix⟩)
  | @word p text word kind value w longest _ ih =>
    have start : f p = q := reads [] List.nil_prefix
    have stop := reads word (List.prefix_append word text)
    have others := ih (q := q.advanceAll word) fun u isPrefix => by
      rw [← Position.advanceAll_append, ← Position.advanceAll_append]
      exact reads (word ++ u) ((List.prefix_append_right_inj word).mpr isPrefix)
    rw [List.map_cons, Token.relocate, start, stop]
    exact .word longest others

/-- A text is cut alike with blanks in front of it. -/
theorem behind_blanks (h : Cut (p.advanceAll blanks) text w)
    (blank : ∀ c ∈ blanks, Lexeme.isBlank c) : Cut p (blanks ++ text) w := by
  induction blanks generalizing p with
  | nil => exact h
  | cons c blanks ih =>
    obtain ⟨first, others⟩ := List.forall_mem_cons.mp blank
    exact .blank first (ih h others)

theorem stop_le (h : Cut p text w) : ∀ t ∈ w, t.stop.index ≤ (p.advanceAll text).index := by
  induction h with
  | nil => exact List.forall_mem_nil _
  | blank _ _ ih => exact ih
  | @word p text word _ _ _ _ _ ih =>
    rw [Position.advanceAll_append]
    refine List.forall_mem_cons.mpr ⟨?_, ih⟩
    rw [Position.advanceAll_index _ text]
    exact Nat.le_add_right _ _

/-- A text is cut into two where no word reaches over. -/
theorem exists_append (h : Cut p (text ++ rest) w)
    (apart : ∀ t ∈ w, ¬ (t.start.index < (p.advanceAll text).index ∧
      (p.advanceAll text).index < t.stop.index)) :
    ∃ u v, w = u ++ v ∧ Cut p text u ∧ Cut (p.advanceAll text) rest v := by
  generalize whole : text ++ rest = both at h
  induction h generalizing text with
  | nil =>
    obtain ⟨rfl, rfl⟩ := List.append_eq_nil_iff.mp whole
    exact ⟨[], [], rfl, .nil, .nil⟩
  | @blank p c others w blank cut ih =>
    cases text with
    | nil =>
      rw [List.nil_append] at whole
      exact ⟨[], w, rfl, .nil, whole ▸ .blank blank cut⟩
    | cons d text =>
      obtain ⟨rfl, eq⟩ := List.cons_eq_cons.mp whole
      obtain ⟨u, v, rfl, cut, cut'⟩ := ih apart eq
      exact ⟨u, v, rfl, .blank blank cut, cut'⟩
  | @word p others word kind value w longest cut ih =>
    obtain ⟨first, later⟩ := List.forall_mem_cons.mp apart
    by_cases front : text = []
    · subst front
      rw [List.nil_append] at whole
      exact ⟨[], _, rfl, .nil, whole ▸ .word longest cut⟩
    -- the word begins in front of the place, so that it ends there at the latest
    obtain ⟨text, rfl, rfl⟩ : ∃ text', text = word ++ text' ∧ others = text' ++ rest := by
      rcases List.append_eq_append_iff.mp whole with ⟨more, rfl, rfl⟩ | inside
      · have within := Position.index_lt_advanceAll p front
        have none : more = [] := by
          by_contra ne
          rw [Position.advanceAll_append] at first
          exact first ⟨within, Position.index_lt_advanceAll _ ne⟩
        subst none
        exact ⟨[], by simp, rfl⟩
      · exact inside
    rw [Position.advanceAll_append] at later
    obtain ⟨u, v, rfl, cut, cut'⟩ := ih later rfl
    refine ⟨_, v, rfl, .word ?_ cut, ?_⟩
    · -- it stays the longest with less text behind
      by_cases last : rest = []
      · simpa [last] using longest
      · rw [← List.append_assoc] at longest
        exact (longest.of_append (List.prefix_append _ _) last).2
    · rwa [Position.advanceAll_append]

/-- The last word of a text that ends in a string which is not closed is this string. -/
theorem exists_openString (h : Cut p text w) (isOpen : EndsInString text) :
    ∃ t ∈ w, ∃ before word, text = before ++ word ∧ Lexeme.OpenString word ∧
      t.start = p.advanceAll before ∧ t.stop = p.advanceAll text := by
  induction h with
  | nil =>
    generalize eq : [] = text at isOpen
    cases isOpen with
    | here isOpen => cases eq ▸ isOpen
    | blank => cases eq
    | word longest => exact absurd (List.append_eq_nil_iff.mp eq.symm).1 longest.fits.ne_nil
  | @blank p c text w blank _ ih =>
    -- neither a string nor another word begins with the blank
    generalize eq : c :: text = whole at isOpen
    cases isOpen with
    | here isOpen =>
      rw [← eq] at isOpen
      cases Option.some.inj isOpen.head?_eq
      cases blank
    | blank _ isOpen =>
      obtain ⟨rfl, rfl⟩ := List.cons_eq_cons.mp eq
      obtain ⟨t, mem, before, word, rfl, found⟩ := ih isOpen
      exact ⟨t, mem, c :: before, word, rfl, found⟩
    | word longest _ =>
      rw [← eq] at longest
      rw [longest.fits.not_isBlank] at blank
      cases blank
  | @word p text first kind value w longest _ ih =>
    -- only one word is the longest, so that the string is this word or stands behind it
    generalize eq : first ++ text = whole at isOpen
    rw [eq] at longest
    cases isOpen with
    | here isOpen =>
      obtain ⟨kind', value', longest'⟩ := isOpen.exists_longest
      obtain rfl := longest.eq longest'
      exact ⟨_, List.mem_cons_self, [], first, rfl, isOpen, rfl, rfl⟩
    | blank blank _ =>
      rw [longest.fits.not_isBlank] at blank
      cases blank
    | word longest' isOpen =>
      obtain rfl := longest.eq longest'
      obtain rfl := List.append_cancel_left eq
      obtain ⟨t, mem, before, word, rfl, isOpen, start, stop⟩ := ih isOpen
      refine ⟨t, List.mem_cons_of_mem _ mem, first ++ before, word, ?_, isOpen, ?_, ?_⟩
      · rw [List.append_assoc]
      · rw [start, Position.advanceAll_append]
      · rw [stop, ← Position.advanceAll_append]

end Cut

/-! ### Sources with blanks put in -/

namespace Token

variable {s : Source} {split n : Nat} {t : Token}

theorem spaced_of_le (ordinary : t.kind ≠ .endOfInput) (le : t.stop.index ≤ split) :
    t.spaced s split n = t.relocate (Position.inSource s) :=
  if_pos ⟨ordinary, le⟩

theorem spaced_of_lt (lt : split < t.stop.index) :
    t.spaced s split n = t.relocate (Position.behindBlanks s split n) :=
  if_neg fun both => Nat.not_le_of_lt lt both.2

/-- Where no blanks are put in, no token moves. -/
theorem spaced_zero : t.spaced s split 0 = t.relocate (Position.inSource s) := by
  have same : Position.behindBlanks s split 0 = Position.inSource s := by
    funext p
    simp [Position.behindBlanks, Position.inSource]
  rw [spaced, same, ite_self]

end Token

section

variable {s : Source} {front behind blanks : List Char} {w : List Token}

/-- No string is left open in front of a place if none of the tokens that end there is one. -/
theorem Cut.not_endsInString (h : Cut (.start s) front w)
    (text : s.text.toList = front ++ behind)
    (closed : ∀ t ∈ w, t.stop.index = String.utf8Len front →
      ¬ Lexeme.OpenString (s.between t.start.index t.stop.index)) : ¬ EndsInString front := by
  intro ends
  obtain ⟨t, mem, before, word, rfl, isOpen, start, stop⟩ := h.exists_openString ends
  have stop : t.stop.index = String.utf8Len (before ++ word) := by
    rw [stop, Position.start_advanceAll_index]
  refine closed t mem stop ?_
  rwa [start, stop, Position.start_advanceAll_index, String.utf8Len_append, Source.between_eq text]

/-- A source into which blanks are put between two words is cut alike. -/
theorem Cut.spaced (s' : Source) (h : Cut (.start s) (front ++ behind) w)
    (text : s.text.toList = front ++ behind)
    (apart : ∀ t ∈ w,
      ¬ (t.start.index < String.utf8Len front ∧ String.utf8Len front < t.stop.index))
    (closed : ∀ t ∈ w, t.stop.index = String.utf8Len front →
      ¬ Lexeme.OpenString (s.between t.start.index t.stop.index))
    (blank : ∀ c ∈ blanks, Lexeme.isBlank c) :
    Cut (.start s') (front ++ (blanks ++ behind))
      (w.map (Token.spaced s' (String.utf8Len front) blanks.length)) := by
  by_cases none : blanks = []
  · -- then what stands behind the place may carry on the word in front of it
    have same : Token.spaced s' (String.utf8Len front) blanks.length =
        Token.relocate (Position.inSource s') := by
      funext t
      rw [none, List.length_nil, Token.spaced_zero]
    rw [same, none, List.nil_append]
    exact h.relocate fun u _ => Position.inSource_advanceAll s' (.start s) u
  have index := Position.start_advanceAll_index s front
  have moves {part : List Char} (isPrefix : part <+: behind) :=
    Position.behindBlanks_start s' text blank isPrefix
  obtain ⟨u, v, rfl, cut, cut'⟩ := h.exists_append (index ▸ apart)
  -- the words in front of the place stay
  have stay : u.map (Token.spaced s' (String.utf8Len front) blanks.length) =
      u.map (Token.relocate (Position.inSource s')) :=
    List.map_congr_left fun t mem =>
      Token.spaced_of_le (cut.kind_ne t mem) (index ▸ cut.stop_le t mem)
  -- and those behind it move
  have move : v.map (Token.spaced s' (String.utf8Len front) blanks.length) =
      v.map (Token.relocate (Position.behindBlanks s' (String.utf8Len front) blanks.length)) := by
    obtain ⟨ordered, le⟩ := cut'.ordered
    refine List.map_congr_left fun t mem => Token.spaced_of_lt ?_
    rw [← index]
    exact Nat.lt_of_le_of_lt (le t mem) (ordered.nonempty t mem)
  have inFront := cut.relocate fun u _ => Position.inSource_advanceAll s' (.start s) u
  have ends : ∀ c ∈ (blanks ++ behind).head?, Lexeme.continues c = false := by
    obtain ⟨c, rest, rfl⟩ := List.exists_cons_of_ne_nil none
    simpa using Lexeme.continues_of_isBlank (blank c List.mem_cons_self)
  have isClosed := cut.not_endsInString text fun t mem => closed t (List.mem_append_left _ mem)
  rw [List.map_append, stay, move]
  exact inFront.append isClosed ends (.behind_blanks (cut'.relocate fun _ => moves) blank)

end

/-- Blanks are put into a source at a place over which no token reaches, and not behind a string
that is not closed. The tokens keep their kinds and their values. Those in front of the place keep
their positions, and those behind it move on by the blanks. -/
theorem Source.tokens_spaced {name a b blanks : String} {tokens : List Token}
    (read : Source.tokens ⟨name, a ++ b⟩ = .ok tokens)
    (apart : ∀ t ∈ tokens,
      ¬ (t.start.index < a.utf8ByteSize ∧ a.utf8ByteSize < t.stop.index))
    (closed : ∀ t ∈ tokens, t.stop.index = a.utf8ByteSize →
      ¬ Lexeme.OpenString (Source.between ⟨name, a ++ b⟩ t.start.index t.stop.index))
    (blank : ∀ c ∈ blanks.toList, Lexeme.isBlank c) :
    Source.tokens ⟨name, a ++ blanks ++ b⟩ = .ok
      (tokens.map (Token.spaced ⟨name, a ++ blanks ++ b⟩ a.utf8ByteSize blanks.length)) := by
  let s : Source := ⟨name, a ++ b⟩
  let s' : Source := ⟨name, a ++ blanks ++ b⟩
  obtain ⟨w, cut, rfl⟩ := Token.readFrom_eq_ok_iff.mp read
  have text : s.text.toList = a.toList ++ b.toList := String.toList_append
  have text' : s'.text.toList = a.toList ++ (blanks.toList ++ b.toList) := by
    simp [s', String.toList_append]
  have size : a.utf8ByteSize = String.utf8Len a.toList := (String.utf8Len_toList a).symm
  rw [size] at apart closed ⊢
  rw [← String.length_toList]
  have words := (text ▸ cut).spaced s' text (fun t mem => apart t (List.mem_append_left _ mem))
    (fun t mem => closed t (List.mem_append_left _ mem)) blank
  have stop : s.stop.behindBlanks s' (String.utf8Len a.toList) blanks.toList.length = s'.stop := by
    have moves := Position.behindBlanks_start s' text blank List.prefix_rfl
    rw [Source.stop, text, Position.advanceAll_append, moves, Source.stop, text',
      Position.advanceAll_append, Position.advanceAll_append]
  have final : Token.spaced s' (String.utf8Len a.toList) blanks.toList.length
      ⟨.endOfInput, none, s.stop, s.stop⟩ = ⟨.endOfInput, none, s'.stop, s'.stop⟩ := by
    rw [Token.spaced, if_neg fun both => both.1 rfl, Token.relocate, stop]
  refine Token.readFrom_eq_ok_iff.mpr ⟨_, text' ▸ words, ?_⟩
  rw [List.map_append, List.map_singleton]
  exact congrArg (_ ++ [·]) final

/-- Blanks between two words, in front of a string with a line feed in it. -/
theorem Source.tokens_spaced_string :
    let s' : Source := ⟨"", "x \t=\"\n\"y"⟩
    s'.tokens = .ok
      [⟨.identifier, some (.text "x"), ⟨s', 0, 1, 1⟩, ⟨s', 1, 1, 2⟩⟩,
        ⟨.assign, none, ⟨s', 3, 1, 4⟩, ⟨s', 4, 1, 5⟩⟩,
        ⟨.string, some (.text "\n"), ⟨s', 4, 1, 5⟩, ⟨s', 7, 2, 2⟩⟩,
        ⟨.identifier, some (.text "y"), ⟨s', 7, 2, 2⟩, ⟨s', 8, 2, 3⟩⟩,
        ⟨.endOfInput, none, ⟨s', 8, 2, 3⟩, ⟨s', 8, 2, 3⟩⟩] := by
  intro s'
  let s : Source := ⟨"", "x=\"\n\"y"⟩
  have read : Source.tokens ⟨"", "x" ++ "=\"\n\"y"⟩ = .ok (s.tokens.toOption.getD []) := by
    decide +kernel
  have unquoted : ∀ t ∈ s.tokens.toOption.getD [], t.stop.index = "x".utf8ByteSize →
      (s.between t.start.index t.stop.index).head? ≠ some '"' := by
    decide +kernel
  have blank : ∀ c ∈ " \t".toList, Lexeme.isBlank c := List.all_eq_true.mp (by decide)
  have spaced := Source.tokens_spaced read (by decide +kernel)
    (fun t mem ends isOpen => unquoted t mem ends isOpen.head?_eq) blank
  refine spaced.trans ?_
  decide +kernel

end Scriptlet
