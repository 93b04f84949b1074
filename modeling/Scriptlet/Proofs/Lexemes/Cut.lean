import Scriptlet.Proofs.Lexemes.Seam
import Scriptlet.Proofs.Syntax.Unplaced

/-!
# How a text is cut into tokens

From its beginning on, a text is cut into words, each the longest where it stands, with blanks
between them. Reading a text finds that cut, and fails only at a place where neither a blank nor
a word stands; up to that place the text is cut all the same.

## Main definitions

* `Cut` — a text cut into tokens
* `EndsInString` — a text whose last word is a string that is not closed
* `Source.stop` — the place behind the last character of a source

## Main results

* `Token.readFrom_eq_ok_iff` — what is read of a text are the tokens that it is cut into
* `Token.exists_of_readFrom_eq_error` — where reading fails, and why
* `Cut.append` — texts that meet are cut where each of them is
* `Source.tokens_longest` — the tokens of a source, and the errors
-/

namespace Scriptlet

/-- A text whose first character stands at a place is cut into tokens: each is the longest word
where it stands, and between them are blanks only. -/
inductive Cut : Position → List Char → List Token → Prop
  | nil {p : Position} : Cut p [] []
  | blank {p : Position} {c : Char} {text : List Char} {w : List Token} :
    Lexeme.isBlank c → Cut (p.advance c) text w → Cut p (c :: text) w
  | word {p : Position} {text word : List Char} {kind : Token.Kind}
      {value : Option Token.Value} {w : List Token} :
    Lexeme.Longest (word ++ text) word kind value → Cut (p.advanceAll word) text w →
      Cut p (word ++ text) (⟨kind, value, p, p.advanceAll word⟩ :: w)

/-- The place behind the last character of a source. -/
def Source.stop (s : Source) : Position := (Position.start s).advanceAll s.text.toList

/-! ### Blanks and words -/

namespace Lexeme.Fits

variable {text word : List Char} {kind : Token.Kind} {value : Option Token.Value}

/-- No word begins with a blank. -/
theorem not_isBlank {c : Char} (h : Fits (c :: text) word kind value) : isBlank c = false := by
  rw [← Bool.not_eq_true]
  intro blank
  have begins : c.isDigit = false ∧ c ≠ '.' ∧ c.isAlpha = false ∧ c ≠ '"' := by
    rcases isBlank_iff.mp blank with rfl | rfl | rfl <;> decide
  obtain ⟨l, listed, spelling⟩ := h.exists_sign begins
  have heads : ∀ l ∈ signs, l.spelling.head?.all fun d => !isBlank d := by decide
  obtain ⟨rest, rfl⟩ := h.exists_eq_cons
  have head := heads l listed
  rw [spelling] at head
  simp [blank] at head

/-- The end of input is no word. -/
theorem kind_ne (h : Fits text word kind value) : kind ≠ .endOfInput := by
  cases h with
  | numeral _ numeral => cases numeral <;> nofun
  | name _ name => cases name <;> nofun
  | sign _ sign =>
    cases sign with
    | fixed _ ordinary => exact fun eq => ordinary (by simp [eq])
    | semicolon | lineFeed => nofun
  | closedString | openString | openGuard => nofun

end Lexeme.Fits

namespace Cut

variable {p : Position} {text : List Char} {w : List Token}

theorem kind_ne (h : Cut p text w) : ∀ t ∈ w, t.kind ≠ .endOfInput := by
  induction h with
  | nil => exact List.forall_mem_nil _
  | blank _ _ ih => exact ih
  | word longest _ ih => exact List.forall_mem_cons.mpr ⟨longest.fits.kind_ne, ih⟩

/-- A text is cut alike wherever it stands. -/
theorem moved (h : Cut p text w) (q : Position) :
    ∃ w', Cut q text w' ∧ w'.map Token.unplaced = w.map Token.unplaced := by
  induction h generalizing q with
  | nil => exact ⟨[], .nil, rfl⟩
  | @blank _ c _ _ blank _ ih =>
    obtain ⟨w', cut, alike⟩ := ih (q.advance c)
    exact ⟨w', .blank blank cut, alike⟩
  | @word _ _ word _ _ _ longest _ ih =>
    obtain ⟨w', cut, alike⟩ := ih (q.advanceAll word)
    exact ⟨_, .word longest cut, by simp only [List.map_cons, alike]; rfl⟩

/-- A word with nothing behind it is cut into itself alone. -/
theorem single {word : List Char} {kind : Token.Kind} {value : Option Token.Value}
    (h : Lexeme.Longest word word kind value) :
    Cut p word [⟨kind, value, p, p.advanceAll word⟩] := by
  have longest : Lexeme.Longest (word ++ []) word kind value := by rwa [List.append_nil]
  have cut := Cut.word (p := p) longest .nil
  rwa [List.append_nil] at cut

end Cut

namespace Token

/-- Where a word stands, it is read, and then the text behind it. -/
theorem readFrom_word {p : Position} {text word : List Char} {kind : Kind} {value : Option Value}
    (longest : Lexeme.Longest (word ++ text) word kind value) :
    readFrom p (word ++ text) = (readFrom (p.advanceAll word) text).map
      (⟨kind, value, p, p.advanceAll word⟩ :: ·) := by
  obtain ⟨c, rest, rfl⟩ := List.exists_cons_of_ne_nil longest.fits.ne_nil
  rw [List.cons_append] at longest ⊢
  have read : Lexeme.first c (rest ++ text) =
      .ok ⟨kind, value, c :: rest, List.cons_ne_nil c rest⟩ := Lexeme.first_eq_ok_iff.mpr longest
  rw [readFrom, longest.fits.not_isBlank, read]
  simp

/-- What is read of a text are the tokens that it is cut into, and the end of input. -/
theorem readFrom_eq_ok_iff {p : Position} {text : List Char} {tokens : List Token} :
    readFrom p text = .ok tokens ↔ ∃ w, Cut p text w ∧
      tokens = w ++ [⟨.endOfInput, none, p.advanceAll text, p.advanceAll text⟩] := by
  constructor
  · intro h
    fun_induction readFrom p text generalizing tokens with
    | case1 p =>
      cases h
      exact ⟨[], .nil, rfl⟩
    | case2 p c rest blank ih =>
      obtain ⟨w, cut, eq⟩ := ih h
      exact ⟨w, .blank blank cut, eq⟩
    | case3 p c rest blank fault failed => cases h
    | case4 p c rest blank lexeme ok _ stop =>
      rename_i ih
      cases others : readFrom stop ((c :: rest).drop lexeme.spelling.length) with
      | error e =>
        rw [others] at h
        cases h
      | ok more =>
        rw [others] at h
        cases h
        obtain ⟨w, cut, rfl⟩ := ih others
        have whole := List.prefix_iff_eq_append.mp (Lexeme.first_spelling_isPrefix ok)
        have longest := Lexeme.longest_of_first ok
        refine ⟨⟨lexeme.kind, lexeme.value, p, stop⟩ :: w, ?_, ?_⟩
        · rw [← whole] at longest ⊢
          exact .word longest cut
        · rw [← Position.advanceAll_append, whole]
          rfl
  · rintro ⟨w, cut, rfl⟩
    induction cut with
    | nil => rw [readFrom]; rfl
    | blank blank _ ih =>
      rw [readFrom, if_pos blank]
      exact ih
    | word longest _ ih =>
      rw [readFrom_word longest, ih, Position.advanceAll_append]
      rfl

/-- Reading fails only where no lexeme begins, and the text up to there is cut into tokens. -/
theorem exists_of_readFrom_eq_error {p : Position} {text : List Char} {e : LexError}
    (h : readFrom p text = .error e) : ∃ before c rest, text = before ++ c :: rest ∧
      (∃ w, Cut p before w) ∧ Lexeme.isBlank c = false ∧
      Lexeme.first c rest = .error e.fault ∧ e.start = p.advanceAll before ∧
      e.stop = e.start.advanceAll ((c :: rest).take e.fault.extent) := by
  fun_induction readFrom p text with
  | case1 p => cases h
  | case2 p c rest blank ih =>
    obtain ⟨before, d, behind, rfl, ⟨w, cut⟩, fails⟩ := ih h
    exact ⟨c :: before, d, behind, rfl, ⟨w, .blank blank cut⟩, fails⟩
  | case3 p c rest blank fault failed =>
    cases h
    exact ⟨[], c, rest, rfl, ⟨[], .nil⟩, by simpa using blank, failed, rfl, rfl⟩
  | case4 p c rest blank lexeme ok _ stop =>
    rename_i ih
    cases others : readFrom stop ((c :: rest).drop lexeme.spelling.length) with
    | ok more =>
      rw [others] at h
      cases h
    | error e' =>
      rw [others] at h
      cases h
      obtain ⟨before, d, behind, eq, ⟨w, cut⟩, notBlank, failed, start, stop_eq⟩ := ih others
      have whole := List.prefix_iff_eq_append.mp (Lexeme.first_spelling_isPrefix ok)
      rw [eq, ← List.append_assoc] at whole
      -- the lexeme is the longest word too in the text up to the place of the error
      have longest := Lexeme.longest_of_first ok
      rw [← whole] at longest
      obtain ⟨-, longest⟩ := longest.of_append (List.prefix_append _ _) (List.cons_ne_nil _ _)
      refine ⟨lexeme.spelling ++ before, d, behind, whole.symm, ⟨_, .word longest cut⟩, notBlank,
        failed, ?_, stop_eq⟩
      rw [start, Position.advanceAll_append]

end Token

/-! ### Texts that meet -/

/-- A text whose last word is a string that is not closed. -/
inductive EndsInString : List Char → Prop
  | here {word : List Char} : Lexeme.OpenString word → EndsInString word
  | blank {c : Char} {text : List Char} :
    Lexeme.isBlank c → EndsInString text → EndsInString (c :: text)
  | word {text word : List Char} {kind : Token.Kind} {value : Option Token.Value} :
    Lexeme.Longest (word ++ text) word kind value → EndsInString text →
      EndsInString (word ++ text)

/-- Without quotes no string is open. -/
theorem EndsInString.quote_mem {text : List Char} (h : EndsInString text) : '"' ∈ text := by
  induction h with
  | here isOpen => cases isOpen <;> exact List.mem_cons_self
  | blank _ _ ih => exact List.mem_cons_of_mem _ ih
  | word _ _ ih => exact List.mem_append_right _ ih

/-- A text that ends in no open string is cut as it is on its own, with a text behind that does
not carry its last word on. -/
theorem Cut.append {p : Position} {text rest : List Char} {w v : List Token} (h : Cut p text w)
    (closed : ¬ EndsInString text) (ends : ∀ c ∈ rest.head?, Lexeme.continues c = false)
    (behind : Cut (p.advanceAll text) rest v) : Cut p (text ++ rest) (w ++ v) := by
  induction h with
  | nil => exact behind
  | blank blank _ ih =>
    exact .blank blank (ih (fun isOpen => closed (.blank blank isOpen)) behind)
  | @word p text word kind value w longest cut ih =>
    have closedWord : ¬ Lexeme.OpenString word := by
      intro isOpen
      obtain rfl := isOpen.eq_nil longest.fits
      exact closed (.here (by simpa using isOpen))
    have longest' := longest.append closedWord ends
    rw [List.append_assoc] at longest' ⊢
    rw [Position.advanceAll_append] at behind
    exact .word longest' (ih (fun isOpen => closed (.word longest isOpen)) behind)

/-! ### The tokens of a source -/

/-- The tokens of a source are the words that its text is cut into, each the longest where it
stands and between them blanks only, and one end of input behind the last character. A source
without tokens has some up to the place of the error, where a character stands that is no blank
and begins no word: a lone half of `&&` or `||`, or any other. -/
theorem Source.tokens_longest (s : Source) :
    (∀ tokens, s.tokens = .ok tokens ↔ ∃ w, Cut (.start s) s.text.toList w ∧
      (∀ t ∈ w, t.kind ≠ .endOfInput) ∧ tokens = w ++ [⟨.endOfInput, none, s.stop, s.stop⟩]) ∧
    ∀ e, s.tokens = .error e → ∃ before c rest, s.text.toList = before ++ c :: rest ∧
      e.start = (Position.start s).advanceAll before ∧
      (∃ tokens, Source.tokens ⟨s.name, String.ofList before⟩ = .ok tokens) ∧
      Lexeme.isBlank c = false ∧ (∀ word kind value, ¬ Lexeme.Fits (c :: rest) word kind value) ∧
      ((c ∈ ['&', '|'] ∧ rest.head? ≠ some c ∧ e.fault = .expectedCharacter c c) ∨
        (c ∉ ['&', '|'] ∧ e.fault = .illegalCharacter c)) := by
  refine ⟨fun tokens => Token.readFrom_eq_ok_iff.trans (exists_congr fun w => ?_), fun e h => ?_⟩
  · exact ⟨fun ⟨cut, eq⟩ => ⟨cut, cut.kind_ne, eq⟩, fun ⟨cut, _, eq⟩ => ⟨cut, eq⟩⟩
  obtain ⟨before, c, rest, text, ⟨w, cut⟩, notBlank, failed, start, -⟩ :=
    Token.exists_of_readFrom_eq_error h
  obtain ⟨fault, none⟩ := Lexeme.not_fits_of_first failed
  refine ⟨before, c, rest, text, start, ?_, notBlank, none, ?_⟩
  · obtain ⟨w', cut', -⟩ := cut.moved (.start ⟨s.name, String.ofList before⟩)
    exact ⟨_, Token.readFrom_eq_ok_iff.mpr ⟨w', by simpa using cut', rfl⟩⟩
  · by_cases half : c = '&' ∨ c = '|'
    · refine .inl ⟨by simpa using half, ?_, by rw [fault, Lexeme.faultAt, if_pos half]⟩
      -- with its double behind, the half would begin a sign
      intro double
      obtain ⟨behind, rfl⟩ := List.head?_eq_some_iff.mp double
      rcases half with rfl | rfl
      · have sign : Sign ['&', '&'] .and := Lexeme.sign_iff.mpr (by decide)
        exact none _ _ _ (.sign (List.prefix_append _ _) sign)
      · have sign : Sign ['|', '|'] .or := Lexeme.sign_iff.mpr (by decide)
        exact none _ _ _ (.sign (List.prefix_append _ _) sign)
    · exact .inr ⟨by simpa using half, by rw [fault, Lexeme.faultAt, if_neg half]⟩

theorem Source.tokens_longest_half : ∃ e before rest,
    Source.tokens ⟨"", "a = 1 & b"⟩ = .error e ∧ "a = 1 & b".toList = before ++ '&' :: rest ∧
      (∃ tokens, Source.tokens ⟨"", String.ofList before⟩ = .ok tokens) ∧
      rest.head? ≠ some '&' := by
  have failed : Source.tokens ⟨"", "a = 1 & b"⟩ = .error ⟨.expectedCharacter '&' '&',
      ⟨⟨"", "a = 1 & b"⟩, 6, 1, 7⟩, ⟨⟨"", "a = 1 & b"⟩, 8, 1, 9⟩⟩ := by
    decide +kernel
  obtain ⟨before, c, rest, text, -, tokens, -, -, ⟨-, lone, fault⟩ | ⟨-, fault⟩⟩ :=
    (Source.tokens_longest _).2 _ failed
  · cases fault
    exact ⟨_, before, rest, failed, text, tokens, lone⟩
  · cases fault

end Scriptlet
