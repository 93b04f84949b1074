import Scriptlet.Proofs.Lexemes.Class

/-!
# Words where texts meet

A word is the longest where it stands, and whether it is can depend on what stands behind it.
It does not if the text behind begins with a character that carries on no word, and if the
word is not a string that still waits for its closing quote.

## Main definitions

* `Lexeme.continues` — the characters that may carry on a word before them
* `Lexeme.OpenString` — a string that is not closed

## Main results

* `Lexeme.first_eq_ok_iff` — the lexeme at the head of a text is the longest word there, and
  nothing else is
* `Lexeme.Longest.append`, `Lexeme.Longest.of_append` — more text behind, and less
-/

namespace Scriptlet.Lexeme

/-- Characters that may carry on a word before them. -/
def continues (c : Char) : Bool :=
  isWordCharacter c || c ∈ ['.', '=', '&', '|']

/-- An opening quote and a body with no closing quote behind it. -/
inductive OpenString : List Char → Prop
  | body {body value : List Char} : StringBody body value → OpenString ('"' :: body)
  | guarding {body value : List Char} :
    StringBody body value → OpenString ('"' :: body ++ ['\\'])

variable {text word : List Char} {kind : Token.Kind} {value : Option Token.Value}

theorem continues_of_isBlank {c : Char} (blank : isBlank c) : continues c = false := by
  rcases isBlank_iff.mp blank with rfl | rfl | rfl <;> decide

/-- Only one word is the longest. -/
theorem Longest.eq {word' : List Char} {kind' : Token.Kind} {value' : Option Token.Value}
    (h : Longest text word kind value) (h' : Longest text word' kind' value') : word = word' :=
  (List.prefix_of_prefix_length_le h.fits.isPrefix h'.fits.isPrefix
    (h'.longest _ _ _ h.fits)).eq_of_length_le (h.longest _ _ _ h'.fits)

namespace Fits

/-- A word with nothing behind it is the longest. -/
theorem longest_self (h : Fits word word kind value) : Longest word word kind value :=
  ⟨h, fun _ _ _ other => other.isPrefix.length_le⟩

/-- A word fits any text that begins with it, unless it is a string that is not closed. -/
theorem of_isPrefix (h : Fits text word kind value) (closed : ¬ OpenString word)
    {text' : List Char} (isPrefix : word <+: text') : Fits text' word kind value := by
  cases h with
  | numeral _ numeral => exact .numeral isPrefix numeral
  | name _ name => exact .name isPrefix name
  | sign _ sign => exact .sign isPrefix sign
  | closedString _ inside => exact .closedString isPrefix inside
  | openString _ inside => exact absurd (.body inside) closed
  | openGuard _ inside => exact absurd (.guarding inside) closed

/-- The characters of a word behind its first carry it on, if it is not a string. -/
theorem continues_of_mem_tail (h : Fits text word kind value) (notString : word.head? ≠ some '"')
    {c : Char} (mem : c ∈ word.tail) : continues c := by
  have wordlike {d : Char} (digit : d.isDigit) : continues d := by
    simp [continues, isWordCharacter, Char.isAlphanum, digit]
  cases h with
  | numeral _ numeral =>
    have mem := List.mem_of_mem_tail mem
    cases numeral with
    | integer _ digits | wideInteger _ digits => exact wordlike (digits c mem)
    | float _ digits digits' =>
      rcases List.mem_append.mp mem with mem | mem
      · exact wordlike (digits c mem)
      rcases List.mem_cons.mp mem with rfl | mem
      · decide
      · exact wordlike (digits' c mem)
  | name _ name =>
    obtain ⟨d, rest, rfl, -, others⟩ := name.begins
    simp [continues, others c mem]
  | sign _ sign =>
    obtain ⟨l, listed, rfl, -⟩ := sign_iff.mp sign
    -- the characters behind the first of a sign carry it on
    have tails : ∀ l ∈ signs, l.spelling.tail.all continues := by decide
    exact List.all_eq_true.mp (tails l listed) c mem
  | closedString | openString | openGuard => exact absurd rfl notString

end Fits

/-- A string that is not left open has its closing quote. -/
theorem exists_of_not_openString (h : ¬ OpenString ('"' :: stringBody text)) :
    ∃ body value rest, StringBody body value ∧ text = body ++ '"' :: rest := by
  obtain ⟨body, value, inside, ⟨rest, rfl⟩ | rfl | rfl⟩ := exists_stringBody text
  · exact ⟨body, value, rest, inside, rfl⟩
  · rw [stringBody_open inside] at h
    exact absurd (.body inside) h
  · rw [stringBody_guarding inside] at h
    exact absurd (.guarding inside) h

/-- A string that is closed within a text is read alike with more text behind. -/
theorem stringBody_append_of_closed (h : ¬ OpenString ('"' :: stringBody text))
    (rest : List Char) : stringBody (text ++ rest) = stringBody text := by
  obtain ⟨body, value, behind, inside, rfl⟩ := exists_of_not_openString h
  rw [List.append_assoc, List.cons_append, stringBody_closed inside, stringBody_closed inside]

theorem stringBody_eq_nil_iff : stringBody text = [] ↔ text = [] := by
  constructor
  · intro none
    unfold stringBody at none
    split at none
    · rfl
    · cases none
    · split at none <;> cases none
  · rintro rfl
    rfl

/-- A string that is not closed is all the rest of its text. -/
theorem OpenString.eq_nil (h : OpenString word) {more : List Char}
    (fits : Fits (word ++ more) word kind value) : more = [] := by
  cases h with
  | @body body _ inside =>
    have read : _ = '"' :: stringBody (body ++ more) := Fits.eq_stringBody fits
    rw [stringBody_append inside] at read
    exact stringBody_eq_nil_iff.mp (by simpa using read)
  | @guarding body _ inside =>
    have read : _ = '"' :: stringBody (body ++ ['\\'] ++ more) := Fits.eq_stringBody fits
    rw [List.append_assoc, stringBody_append inside] at read
    cases more with
    | nil => rfl
    | cons c more => simp [stringBody] at read

/-- A string that is not closed is a word, and the longest. -/
theorem OpenString.exists_longest (h : OpenString word) :
    ∃ kind value, Longest word word kind value := by
  cases h with
  | body inside => exact ⟨_, _, Fits.longest_self (.openString rfl inside)⟩
  | guarding inside => exact ⟨_, _, Fits.longest_self (.openGuard rfl inside)⟩

theorem OpenString.head?_eq (h : OpenString word) : word.head? = some '"' := by
  cases h <;> rfl

/-- A string with its closing quote is not open. -/
theorem not_openString_closed {body value : List Char} (h : StringBody body value) :
    ¬ OpenString ('"' :: body ++ ['"']) := by
  intro isOpen
  generalize eq : '"' :: body ++ ['"'] = word at isOpen
  cases isOpen with
  | @body body' _ inside =>
    -- with more behind, the quote would be passed by
    obtain rfl : body ++ ['"'] = body' := by simpa using eq
    have passed := stringBody_append inside ['"']
    rw [List.append_assoc, List.singleton_append, stringBody_closed h] at passed
    simp [stringBody] at passed
  | @guarding body' _ _ =>
    have last := (List.append_inj' eq rfl).2
    cases last

/-! ### More text behind a word, and less -/

/-- A word without a quote at its head is not a string. -/
theorem Fits.not_quote {c : Char} (h : Fits (c :: text) word kind value) (notQuote : c ≠ '"') :
    word.head? ≠ some '"' ∧ ¬ OpenString word := by
  obtain ⟨rest, rfl⟩ := h.exists_eq_cons
  refine ⟨by simpa using notQuote, ?_⟩
  rintro (_ | _) <;> exact notQuote rfl

/-- A word stays the longest with a text behind that does not carry it on. -/
theorem Longest.append (h : Longest text word kind value) (closed : ¬ OpenString word)
    {rest : List Char} (ends : ∀ c ∈ rest.head?, continues c = false) :
    Longest (text ++ rest) word kind value := by
  refine ⟨h.fits.of_isPrefix closed (h.fits.isPrefix.trans (List.prefix_append _ _)), ?_⟩
  intro word' kind' value' other
  obtain ⟨c, tail, rfl⟩ := List.exists_cons_of_ne_nil h.fits.text_ne_nil
  rw [List.cons_append] at other
  by_cases quote : c = '"'
  · subst quote
    have here := h.fits.eq_stringBody
    rw [here] at closed ⊢
    rw [other.eq_stringBody, stringBody_append_of_closed closed]
  · obtain ⟨notString, closed'⟩ := other.not_quote quote
    have within : word' <+: c :: tail := by
      rcases List.prefix_or_prefix_of_prefix other.isPrefix (List.prefix_append (c :: tail) rest)
        with within | ⟨more, rfl⟩
      · exact within
      · -- the first character behind the text would carry the word on
        have isPrefix : more <+: rest := (List.prefix_append_right_inj _).mp other.isPrefix
        cases more with
        | nil => simp
        | cons d more =>
          obtain ⟨behind, rfl⟩ := isPrefix
          have goesOn := other.continues_of_mem_tail notString (c := d) (by simp)
          rw [ends d (by simp)] at goesOn
          cases goesOn
    exact h.longest _ _ _ (other.of_isPrefix closed' within)

/-- A word is the longest too in a text that goes on less far. -/
theorem Longest.of_append {more : List Char} (h : Longest (text ++ more) word kind value)
    (within : word <+: text) (ne : more ≠ []) :
    ¬ OpenString word ∧ Longest text word kind value := by
  -- an open string would go on to the end of the longer text
  have closed : ¬ OpenString word := by
    intro isOpen
    obtain ⟨behind, rfl⟩ := within
    have fits := h.fits
    rw [List.append_assoc] at fits
    exact ne (List.append_eq_nil_iff.mp (isOpen.eq_nil fits)).2
  have fits := h.fits.of_isPrefix closed within
  refine ⟨closed, fits, fun word' kind' value' other => ?_⟩
  obtain ⟨c, tail, rfl⟩ := List.exists_cons_of_ne_nil fits.text_ne_nil
  by_cases quote : c = '"'
  · subst quote
    rw [other.eq_stringBody, fits.eq_stringBody]
  · have closed' := (other.not_quote quote).2
    exact h.longest _ _ _
      (other.of_isPrefix closed' (other.isPrefix.trans (List.prefix_append _ _)))

/-- A sign of one character with which no other begins is a word whatever stands behind. -/
theorem longest_single {c : Char} (sign : Sign [c] kind)
    (only : c ∉ ['!', '=', '<', '>', '&', '|']) (text : List Char) :
    Longest (c :: text) [c] kind none := by
  refine ⟨.sign (List.prefix_append [c] text) sign, fun word kind' value' other => ?_⟩
  obtain ⟨l, listed, rfl⟩ := other.exists_sign (sign_head sign)
  have single : ∀ l ∈ signs,
      l.spelling.length ≤ 1 ∨ l.spelling.head?.all (· ∈ ['!', '=', '<', '>', '&', '|']) := by
    decide
  obtain ⟨rest, eq⟩ := other.exists_eq_cons
  refine (single l listed).resolve_right fun head => only ?_
  rw [eq] at head
  exact of_decide_eq_true head

/-! ### The only lexeme -/

/-- Every sign is read as itself: none is found before it. -/
theorem sign?_spelling {l : Lexeme} (listed : l ∈ signs) : sign? l.spelling = some l := by
  have all : ∀ l ∈ signs, sign? l.spelling = some l := by
    simp only [signs, List.forall_mem_cons]
    repeat' apply And.intro
    all_goals first | rfl | simp
  exact all l listed

theorem numeral_eq {value : Token.Value} (h : Numeral word kind value) : numeral word = word :=
  (numeral_isPrefix word).eq_of_length_le (prefix_numeral List.prefix_rfl h).length_le

theorem first_of_numeral {c : Char} {rest : List Char} {value : Token.Value}
    (h : Numeral (c :: rest) kind value) :
    first c rest = .ok ⟨kind, some value, c :: rest, List.cons_ne_nil c rest⟩ := by
  obtain ⟨d, tail, eq, begins⟩ := h.begins
  obtain ⟨rfl, rfl⟩ := List.cons_eq_cons.mp eq
  have whole := numeral_eq h
  unfold first
  rcases begins with digit | ⟨rfl, next⟩
  · rw [numeral_of_isDigit digit] at whole
    simp only [digit, if_true, whole, ofNumeral_eq h]
  · rw [numeral_point] at whole
    rw [if_neg (by decide), if_pos ⟨rfl, next⟩]
    simp only [whole, ofNumeral_eq h]

theorem first_of_name {c : Char} {rest : List Char} (h : Name (c :: rest) kind) :
    first c rest = .ok
      ⟨kind, some (.text (String.ofList (c :: rest))), c :: rest, List.cons_ne_nil c rest⟩ := by
  obtain ⟨d, tail, eq, letter, others⟩ := h.begins
  obtain ⟨rfl, rfl⟩ := List.cons_eq_cons.mp eq
  have notDigit : ¬ c.isDigit := fun digit => by
    rw [Text.not_isAlpha_of_isDigit digit] at letter
    cases letter
  have notPoint : ¬ (c = '.' ∧ rest.head?.any Char.isDigit) := by
    rintro ⟨rfl, -⟩
    cases letter
  have whole : rest.takeWhile isWordCharacter = rest := List.takeWhile_eq_self_iff.mpr others
  unfold first
  rw [if_neg notDigit, if_neg notPoint, if_pos letter]
  simp only [whole, ofWord_eq h]

theorem first_of_sign {c : Char} {rest : List Char} (h : Sign (c :: rest) kind) :
    ∃ lexeme, first c rest = .ok lexeme ∧ lexeme.kind = kind ∧ lexeme.value = none := by
  obtain ⟨l, listed, spelling, isKind⟩ := sign_iff.mp h
  obtain ⟨notDigit, notPoint, notLetter, notQuote⟩ := sign_head h
  have found := sign?_spelling listed
  rw [spelling] at found
  refine ⟨l, ?_, isKind, (sign_of_sign? found).2.1⟩
  unfold first
  rw [if_neg (by simp [notDigit]), if_neg fun point => notPoint point.1,
    if_neg (by simp [notLetter]), if_neg notQuote, found]

/-- A word on its own is read as what it fits as. -/
theorem first_of_fits {c : Char} {rest : List Char} (h : Fits text (c :: rest) kind value) :
    ∃ lexeme, first c rest = .ok lexeme ∧ lexeme.kind = kind ∧ lexeme.value = value := by
  generalize eq : c :: rest = word at h
  -- a string is read by its own rule, and each of its three ends is seen there
  cases h with
  | numeral _ numeral => exact ⟨_, first_of_numeral (eq ▸ numeral), rfl, rfl⟩
  | name _ name =>
    subst eq
    exact ⟨_, first_of_name name, rfl, rfl⟩
  | sign _ sign => exact first_of_sign (eq ▸ sign)
  | @closedString body _ _ inside =>
    obtain ⟨rfl, rfl⟩ : c = '"' ∧ rest = body ++ ['"'] := by simpa using eq
    exact ⟨_, rfl, rfl, by simp only [stringBody_closed inside, stringText_closed inside]⟩
  | openString _ inside =>
    obtain ⟨rfl, rfl⟩ := List.cons_eq_cons.mp eq
    exact ⟨_, rfl, rfl, by simp only [stringBody_open inside, stringText_open inside]⟩
  | @openGuard body _ _ inside =>
    obtain ⟨rfl, rfl⟩ : c = '"' ∧ rest = body ++ ['\\'] := by simpa using eq
    exact ⟨_, rfl, rfl, by simp only [stringBody_guarding inside, stringText_guarding inside]⟩

/-- A word has one kind and one value. -/
theorem Fits.unique {kind' : Token.Kind} {value' : Option Token.Value}
    (h : Fits text word kind value) {text' : List Char} (h' : Fits text' word kind' value') :
    kind = kind' ∧ value = value' := by
  obtain ⟨c, rest, rfl⟩ := List.exists_cons_of_ne_nil h.ne_nil
  obtain ⟨lexeme, read, rfl, rfl⟩ := first_of_fits h
  obtain ⟨lexeme', read', rfl, rfl⟩ := first_of_fits h'
  cases read.symm.trans read'
  exact ⟨rfl, rfl⟩

/-- The lexeme at the head of a text is the longest word there. -/
theorem first_eq_ok_iff {c : Char} {lexeme : Lexeme} :
    first c text = .ok lexeme ↔
      Longest (c :: text) lexeme.spelling lexeme.kind lexeme.value := by
  refine ⟨longest_of_first, fun h => ?_⟩
  cases read : first c text with
  | error fault => exact absurd h.fits ((not_fits_of_first read).2 _ _ _)
  | ok lexeme' =>
    have h' := longest_of_first read
    have spelling : lexeme'.spelling = lexeme.spelling := h'.eq h
    obtain ⟨kind, value⟩ := (spelling ▸ h'.fits).unique h.fits
    cases lexeme
    cases lexeme'
    cases spelling
    cases kind
    cases value
    rfl

end Scriptlet.Lexeme
