import Mathlib.Algebra.Group.Nat.Defs
import Mathlib.Data.List.TakeWhile
import Scriptlet.Tokenizing

/-!
# Classes of words

What may stand at the head of a text as a token, said without any scanner: numerals, names,
signs and strings, each with the kind and the value that it has. At one place several words may
stand, for instance `1`, `12` and `12.5`; a lexeme is the longest of them.

## Main definitions

* `Numeral`, `Name`, `Sign`, `StringBody` — the classes of words
* `Lexeme.Fits` — a word at the head of a text that belongs to a class
* `Lexeme.Longest` — the longest such word

## Main results

* `Lexeme.longest_of_first` — the lexeme at the head of a text is the longest word there
* `Lexeme.not_fits_of_first` — where no lexeme begins, no word of any class stands
-/

namespace Scriptlet

/-- Words of digits, with a point or without. An integer that 64 bits do not hold keeps its
digits as they are. -/
inductive Numeral : List Char → Token.Kind → Token.Value → Prop
  | integer {digits : List Char} :
    digits ≠ [] → (∀ c ∈ digits, c.isDigit) → Text.digitsValue digits < 2 ^ 63 →
      Numeral digits .int (.int (Int64.ofNat (Text.digitsValue digits)))
  | wideInteger {digits : List Char} :
    digits ≠ [] → (∀ c ∈ digits, c.isDigit) → 2 ^ 63 ≤ Text.digitsValue digits →
      Numeral digits .int (.wideInt (String.ofList digits))
  | float {whole fraction : List Char} :
    whole ++ fraction ≠ [] → (∀ c ∈ whole, c.isDigit) → (∀ c ∈ fraction, c.isDigit) →
      Numeral (whole ++ '.' :: fraction) .float (.float (.ofDigits false whole fraction))

/-- Words that begin with a letter: reserved words, and identifiers. -/
inductive Name : List Char → Token.Kind → Prop
  | reserved {first : Char} {others : List Char} {k : Keyword} :
    first.isAlpha → (∀ c ∈ others, Lexeme.isWordCharacter c) →
      String.ofList (first :: others) = k.spelling → Name (first :: others) .keyword
  | identifier {first : Char} {others : List Char} :
    first.isAlpha → (∀ c ∈ others, Lexeme.isWordCharacter c) →
      (∀ k : Keyword, String.ofList (first :: others) ≠ k.spelling) →
      Name (first :: others) .identifier

/-- Signs with a fixed spelling, and separators. -/
inductive Sign : List Char → Token.Kind → Prop
  | fixed {kind : Token.Kind} {spelling : String} :
    kind.symbol? = some spelling → kind ∉ [.separator, .endOfInput] → Sign spelling.toList kind
  | semicolon : Sign [';'] .separator
  | lineFeed : Sign ['\n'] .separator

/-- What may stand between the quotes of a string, and the text that it stands for. Every quote
is guarded by a backslash. -/
inductive StringBody : List Char → List Char → Prop
  | nil : StringBody [] []
  | plain {c : Char} {body text : List Char} :
    c ≠ '"' → c ≠ '\\' → StringBody body text → StringBody (c :: body) (c :: text)
  | lineFeed {body text : List Char} :
    StringBody body text → StringBody ('\\' :: 'n' :: body) ('\n' :: text)
  | tab {body text : List Char} :
    StringBody body text → StringBody ('\\' :: 't' :: body) ('\t' :: text)
  | guarded {c : Char} {body text : List Char} :
    c ≠ 'n' → c ≠ 't' → StringBody body text → StringBody ('\\' :: c :: body) (c :: text)

namespace Lexeme

/-- A word at the head of a text that belongs to a class, with its kind and its value. A string
that is not closed is all the rest of the text. -/
inductive Fits (text : List Char) : List Char → Token.Kind → Option Token.Value → Prop
  | numeral {word : List Char} {kind : Token.Kind} {value : Token.Value} :
    word <+: text → Numeral word kind value → Fits text word kind (some value)
  | name {word : List Char} {kind : Token.Kind} :
    word <+: text → Name word kind → Fits text word kind (some (.text (String.ofList word)))
  | sign {word : List Char} {kind : Token.Kind} :
    word <+: text → Sign word kind → Fits text word kind none
  | closedString {body value : List Char} :
    '"' :: body ++ ['"'] <+: text → StringBody body value →
      Fits text ('"' :: body ++ ['"']) .string (some (.text (String.ofList value)))
  | openString {body value : List Char} :
    '"' :: body = text → StringBody body value →
      Fits text ('"' :: body) .string (some (.text (String.ofList value)))
  | openGuard {body value : List Char} :
    '"' :: body ++ ['\\'] = text → StringBody body value →
      Fits text ('"' :: body ++ ['\\']) .string (some (.text (String.ofList value)))

/-- The longest word at the head of a text that belongs to a class. -/
structure Longest (text word : List Char) (kind : Token.Kind) (value : Option Token.Value) :
    Prop where
  fits : Fits text word kind value
  longest : ∀ word' kind' value', Fits text word' kind' value' → word'.length ≤ word.length

end Lexeme

/-! ### Runs of characters of one sort -/

/-- A run of such characters at the head of a text is part of the longest one. -/
theorem prefix_takeWhile {p : Char → Bool} {run text : List Char} (h : run <+: text)
    (all : ∀ c ∈ run, p c) : run <+: text.takeWhile p := by
  obtain ⟨rest, rfl⟩ := h
  rw [List.takeWhile_append_of_pos all]
  exact List.prefix_append _ _

/-! ### How words begin -/

theorem Numeral.begins {word : List Char} {kind : Token.Kind} {value : Token.Value}
    (h : Numeral word kind value) : ∃ c rest, word = c :: rest ∧
      (c.isDigit ∨ c = '.' ∧ rest.head?.any Char.isDigit) := by
  cases h with
  | integer ne digits | wideInteger ne digits =>
    obtain ⟨c, rest, rfl⟩ := List.exists_cons_of_ne_nil ne
    exact ⟨c, rest, rfl, .inl (digits c List.mem_cons_self)⟩
  | @float whole fraction ne digits digits' =>
    cases whole with
    | cons c whole => exact ⟨c, _, rfl, .inl (digits c List.mem_cons_self)⟩
    | nil =>
      obtain ⟨d, rest, rfl⟩ := List.exists_cons_of_ne_nil ne
      exact ⟨'.', _, rfl, .inr ⟨rfl, by simpa using digits' d List.mem_cons_self⟩⟩

theorem Name.begins {word : List Char} {kind : Token.Kind} (h : Name word kind) :
    ∃ c rest, word = c :: rest ∧ c.isAlpha ∧ ∀ d ∈ rest, Lexeme.isWordCharacter d := by
  cases h with
  | reserved letter others | identifier letter others => exact ⟨_, _, rfl, letter, others⟩

namespace Lexeme

/-- The signs in the list are those that the kinds are spelled as, and the separators. -/
theorem sign_iff {word : List Char} {kind : Token.Kind} :
    Sign word kind ↔ ∃ l ∈ signs, l.spelling = word ∧ l.kind = kind := by
  constructor
  · intro h
    cases h with
    | @fixed _ spelling symbol ordinary =>
      cases kind <;> simp only [Token.Kind.symbol?, Option.some.injEq, reduceCtorEq] at symbol <;>
        first | (subst symbol; decide) | simp at ordinary
    | semicolon | lineFeed => decide
  · rintro ⟨l, mem, rfl, rfl⟩
    -- the list of signs is checked against the spellings of the kinds
    have listed : ∀ l ∈ signs,
        (l.kind = .separator ∧ (l.spelling = [';'] ∨ l.spelling = ['\n'])) ∨
        (l.kind ∉ [.separator, .endOfInput] ∧
          l.kind.symbol? = some (String.ofList l.spelling)) := by decide
    rcases listed l mem with ⟨kind, spelling | spelling⟩ | ⟨ordinary, symbol⟩
    · exact kind ▸ spelling ▸ .semicolon
    · exact kind ▸ spelling ▸ .lineFeed
    · have sign := Sign.fixed symbol ordinary
      rwa [String.toList_ofList] at sign

/-- Every sign begins with a character that begins no other word. -/
theorem sign_head {c : Char} {rest : List Char} {kind : Token.Kind} (h : Sign (c :: rest) kind) :
    c.isDigit = false ∧ c ≠ '.' ∧ c.isAlpha = false ∧ c ≠ '"' := by
  obtain ⟨l, mem, spelling, -⟩ := sign_iff.mp h
  have heads : ∀ l ∈ signs, l.spelling.head?.all fun c =>
      !(c.isDigit || c == '.' || c.isAlpha || c == '"') := by decide
  have head := heads l mem
  rw [spelling] at head
  simpa [and_assoc] using head

/-! ### Numerals -/

theorem numeral_of_isDigit {c : Char} (h : c.isDigit) (text : List Char) :
    numeral (c :: text) = c :: numeral text := by
  simp [numeral, h]

theorem numeral_point (text : List Char) :
    numeral ('.' :: text) = '.' :: text.takeWhile Char.isDigit := by
  rw [numeral, List.takeWhile_cons_of_neg (by decide), List.dropWhile_cons_of_neg (by decide)]
  rfl

/-- A numeral in a text is part of the longest one. -/
theorem prefix_numeral {word text : List Char} {kind : Token.Kind} {value : Token.Value}
    (h : word <+: text) (numeral : Numeral word kind value) : word <+: Lexeme.numeral text := by
  cases numeral with
  | integer _ digits | wideInteger _ digits =>
    exact (prefix_takeWhile h digits).trans (List.prefix_append _ _)
  | @float whole fraction _ digits digits' =>
    obtain ⟨rest, rfl⟩ := h
    -- the digits before the point are the longest run at the head of the text
    have run : (whole ++ '.' :: fraction ++ rest).takeWhile Char.isDigit = whole := by
      rw [List.append_assoc, List.takeWhile_append_of_pos digits, List.cons_append,
        List.takeWhile_cons_of_neg (by decide), List.append_nil]
    have behind : (whole ++ '.' :: fraction ++ rest).dropWhile Char.isDigit =
        '.' :: (fraction ++ rest) := by
      rw [List.append_assoc, List.dropWhile_append_of_pos digits, List.cons_append,
        List.dropWhile_cons_of_neg (by decide)]
    rw [Lexeme.numeral, run, behind]
    exact (List.prefix_append_right_inj _).mpr (List.cons_prefix_cons.mpr
      ⟨rfl, prefix_takeWhile (List.prefix_append _ _) digits'⟩)

/-- Digits and at most one point are a numeral, unless they are the point alone. A point with no
digit before it has one behind. -/
theorem exists_numeral {text : List Char} (ne : Lexeme.numeral text ≠ [])
    (begins : ∀ fraction, text = '.' :: fraction → fraction.head?.any Char.isDigit) :
    ∃ kind value, Numeral (Lexeme.numeral text) kind value := by
  have digits : ∀ c ∈ text.takeWhile Char.isDigit, c.isDigit := fun c => List.mem_takeWhile_imp
  have whole : text.takeWhile Char.isDigit ++ text.dropWhile Char.isDigit = text :=
    List.takeWhile_append_dropWhile
  unfold Lexeme.numeral at ne ⊢
  split
  · next fraction behind =>
    refine ⟨_, _, .float (fun none => ?_) digits fun c => List.mem_takeWhile_imp⟩
    obtain ⟨none, none'⟩ := List.append_eq_nil_iff.mp none
    rw [none, behind, List.nil_append] at whole
    -- with no digit before the point there is one behind it
    have next := begins fraction whole.symm
    cases fraction with
    | nil => cases next
    | cons d fraction =>
      have digit : d.isDigit := by simpa using next
      simp [digit] at none'
  · next other =>
    -- without a point the numeral is the run of digits alone
    have eq : text.takeWhile Char.isDigit ++ [] = text.takeWhile Char.isDigit := List.append_nil _
    split at ne
    · next fraction behind => exact absurd behind (other fraction)
    rw [eq] at ne ⊢
    rcases Nat.lt_or_ge (Text.digitsValue (text.takeWhile Char.isDigit)) (2 ^ 63) with
      small | wide
    · exact ⟨_, _, .integer ne digits small⟩
    · exact ⟨_, _, .wideInteger ne digits wide⟩

/-- A numeral is read as what it spells. -/
theorem ofNumeral_eq {word : List Char} {kind : Token.Kind} {value : Token.Value}
    (h : Numeral word kind value) (ne : word ≠ []) :
    ofNumeral word ne = ⟨kind, some value, word, ne⟩ := by
  unfold ofNumeral
  cases h with
  | integer _ digits small =>
    rw [List.dropWhile_eq_nil_iff.mpr digits]
    simp only [integerValue]
    rw [if_pos (show Text.digitsValue word < Nat.pow 2 63 from small)]
  | wideInteger _ digits wide =>
    rw [List.dropWhile_eq_nil_iff.mpr digits]
    simp only [integerValue]
    rw [if_neg (show ¬ Text.digitsValue word < Nat.pow 2 63 from Nat.not_lt.mpr wide)]
  | @float whole fraction _ digits digits' =>
    have run : (whole ++ '.' :: fraction).takeWhile Char.isDigit = whole := by
      rw [List.takeWhile_append_of_pos digits, List.takeWhile_cons_of_neg (by decide),
        List.append_nil]
    have behind : (whole ++ '.' :: fraction).dropWhile Char.isDigit = '.' :: fraction := by
      rw [List.dropWhile_append_of_pos digits, List.dropWhile_cons_of_neg (by decide)]
    simp only [behind, run]

/-! ### Names -/

theorem exists_name {c : Char} (letter : c.isAlpha) {others : List Char}
    (all : ∀ d ∈ others, isWordCharacter d) : ∃ kind, Name (c :: others) kind := by
  by_cases reserved : ∃ k : Keyword, String.ofList (c :: others) = k.spelling
  · obtain ⟨k, spelling⟩ := reserved
    exact ⟨_, .reserved letter all spelling⟩
  · exact ⟨_, .identifier letter all (not_exists.mp reserved)⟩

/-- A name is read as what it is. -/
theorem ofWord_eq {word : List Char} {kind : Token.Kind} (h : Name word kind) (ne : word ≠ []) :
    ofWord word ne = ⟨kind, some (.text (String.ofList word)), word, ne⟩ := by
  cases h with
  | @reserved first others k letter all spelling =>
    simp only [ofWord, spelling, Keyword.ofSpelling?_spelling]
    rfl
  | @identifier first others letter all ordinary =>
    have none : Keyword.ofSpelling? (String.ofList (first :: others)) = none := by
      by_contra found
      obtain ⟨k, found⟩ := Option.ne_none_iff_exists'.mp found
      exact ordinary k (Keyword.ofSpelling?_eq_some_iff.mp found)
    simp only [ofWord, none]
    rfl

/-! ### Strings -/

/-- The body of a string is read through, whatever stands behind it. -/
theorem stringBody_append {body value : List Char} (h : StringBody body value)
    (rest : List Char) : stringBody (body ++ rest) = body ++ stringBody rest := by
  induction h with
  | nil => rfl
  | plain notQuote notGuard _ ih => simp [stringBody, notQuote, notGuard, ih]
  | lineFeed _ ih | tab _ ih | guarded _ _ _ ih => simp [stringBody, ih]

theorem stringText_append {body value : List Char} (h : StringBody body value)
    (rest : List Char) : stringText (body ++ rest) = value ++ stringText rest := by
  induction h with
  | nil => rfl
  | plain notQuote notGuard _ ih => simp [stringText, notQuote, notGuard, ih]
  | lineFeed _ ih | tab _ ih => simp [stringText, unescaped, ih]
  | guarded notN notT _ ih => simp [stringText, unescaped, notN, notT, ih]

section

variable {body value : List Char} (h : StringBody body value)

include h

theorem stringBody_closed (rest : List Char) :
    stringBody (body ++ '"' :: rest) = body ++ ['"'] := by
  rw [stringBody_append h]
  simp [stringBody]

theorem stringBody_open : stringBody body = body := by
  simpa [stringBody] using stringBody_append h []

theorem stringBody_guarding : stringBody (body ++ ['\\']) = body ++ ['\\'] := by
  rw [stringBody_append h]
  simp [stringBody]

theorem stringText_closed : stringText (body ++ ['"']) = value := by
  rw [stringText_append h]
  simp [stringText]

theorem stringText_open : stringText body = value := by
  simpa [stringText] using stringText_append h []

theorem stringText_guarding : stringText (body ++ ['\\']) = value := by
  rw [stringText_append h]
  simp [stringText]

end

theorem stringBody_escape {body value : List Char} (h : StringBody body value) (c : Char) :
    StringBody ('\\' :: c :: body) (unescaped c :: value) := by
  unfold unescaped
  split
  · next isN => exact isN ▸ .lineFeed h
  · next notN =>
    split
    · next isT => exact isT ▸ .tab h
    · next notT => exact .guarded notN notT h

/-- Behind an opening quote stands the body of a string, and then a quote, or nothing more, or a
backslash at the very end. -/
theorem exists_stringBody (text : List Char) : ∃ body value, StringBody body value ∧
    ((∃ rest, text = body ++ '"' :: rest) ∨ text = body ∨ text = body ++ ['\\']) := by
  fun_induction stringBody text with
  | case1 => exact ⟨[], [], .nil, .inr (.inl rfl)⟩
  | case2 c text ih =>
    obtain ⟨body, value, inside, stop⟩ := ih
    refine ⟨'\\' :: c :: body, _, stringBody_escape inside c, ?_⟩
    simpa using stop
  | case3 text => exact ⟨[], [], .nil, .inl ⟨text, rfl⟩⟩
  | case4 c text notGuarded notQuote ih =>
    obtain ⟨body, value, inside, stop⟩ := ih
    by_cases isGuard : c = '\\'
    · -- a backslash that guards nothing is the last character
      subst isGuard
      cases text with
      | nil => exact ⟨[], [], .nil, .inr (.inr rfl)⟩
      | cons d text => exact absurd rfl (notGuarded d text rfl)
    · refine ⟨c :: body, c :: value, .plain notQuote isGuard inside, ?_⟩
      simpa using stop

/-- A string is closed where it is read, or it is all of the text. -/
theorem fits_stringBody (text : List Char) :
    Fits ('"' :: text) ('"' :: stringBody text) .string
      (some (.text (String.ofList (stringText (stringBody text))))) := by
  obtain ⟨body, value, inside, ⟨rest, rfl⟩ | rfl | rfl⟩ := exists_stringBody text
  · rw [stringBody_closed inside, stringText_closed inside]
    exact .closedString (by simp) inside
  · rw [stringBody_open inside, stringText_open inside]
    exact .openString rfl inside
  · rw [stringBody_guarding inside, stringText_guarding inside]
    exact .openGuard rfl inside

/-! ### Words at the head of a text -/

section

variable {text word : List Char} {kind : Token.Kind} {value : Option Token.Value}

theorem Fits.isPrefix (h : Fits text word kind value) : word <+: text := by
  cases h with
  | numeral isPrefix | name isPrefix | sign isPrefix | closedString isPrefix => exact isPrefix
  | openString eq | openGuard eq => exact eq ▸ List.prefix_rfl

theorem Fits.ne_nil (h : Fits text word kind value) : word ≠ [] := by
  cases h with
  | numeral _ numeral =>
    obtain ⟨c, rest, rfl, -⟩ := numeral.begins
    exact List.cons_ne_nil c rest
  | name _ name =>
    obtain ⟨c, rest, rfl, -⟩ := name.begins
    exact List.cons_ne_nil c rest
  | sign _ sign =>
    obtain ⟨l, -, rfl, -⟩ := sign_iff.mp sign
    exact l.spelling_ne_nil
  | closedString | openString | openGuard => exact List.cons_ne_nil _ _

theorem Fits.text_ne_nil (h : Fits text word kind value) : text ≠ [] := fun nil =>
  h.ne_nil (List.prefix_nil.mp (nil ▸ h.isPrefix))

/-- A word begins with the first character of the text. -/
theorem Fits.exists_eq_cons {c : Char} (h : Fits (c :: text) word kind value) :
    ∃ rest, word = c :: rest := by
  obtain ⟨d, rest, rfl⟩ := List.exists_cons_of_ne_nil h.ne_nil
  obtain ⟨rfl, -⟩ := List.cons_prefix_cons.mp h.isPrefix
  exact ⟨rest, rfl⟩

end

/-- The words at the head of a text are those of one sort, which its first character decides. -/
theorem fits_cons {c : Char} {text word : List Char} {kind : Token.Kind}
    {value : Option Token.Value} (h : Fits (c :: text) word kind value) :
    ((c.isDigit ∨ c = '.' ∧ text.head?.any Char.isDigit) ∧ word <+: numeral (c :: text)) ∨
    (c.isAlpha ∧ word <+: c :: text.takeWhile isWordCharacter) ∨
    (c = '"' ∧ word = '"' :: stringBody text) ∨
    ((c.isDigit = false ∧ c ≠ '.' ∧ c.isAlpha = false ∧ c ≠ '"') ∧
      ∃ l ∈ signs, l.spelling = word ∧ word <+: c :: text) := by
  cases h with
  | numeral isPrefix numeral =>
    obtain ⟨d, rest, rfl, begins⟩ := numeral.begins
    obtain ⟨rfl, more⟩ := List.cons_prefix_cons.mp isPrefix
    refine .inl ⟨begins.imp_right fun ⟨point, next⟩ => ⟨point, ?_⟩, prefix_numeral isPrefix numeral⟩
    obtain ⟨others, rfl⟩ := more
    cases rest with
    | nil => cases next
    | cons e rest => exact next
  | name isPrefix name =>
    obtain ⟨d, rest, rfl, letter, others⟩ := name.begins
    obtain ⟨rfl, more⟩ := List.cons_prefix_cons.mp isPrefix
    exact .inr (.inl ⟨letter, List.cons_prefix_cons.mpr ⟨rfl, prefix_takeWhile more others⟩⟩)
  | sign isPrefix sign =>
    obtain ⟨l, mem, rfl, -⟩ := sign_iff.mp sign
    obtain ⟨d, rest, spelling⟩ := List.exists_cons_of_ne_nil l.spelling_ne_nil
    rw [spelling] at sign isPrefix
    obtain ⟨rfl, -⟩ := List.cons_prefix_cons.mp isPrefix
    exact .inr (.inr (.inr ⟨sign_head sign, l, mem, rfl, spelling ▸ isPrefix⟩))
  | @closedString body _ isPrefix inside =>
    obtain ⟨rest, eq⟩ := isPrefix
    obtain ⟨rfl, rfl⟩ : '"' = c ∧ body ++ '"' :: rest = text := by simpa using eq
    exact .inr (.inr (.inl ⟨rfl, by rw [stringBody_closed inside, List.cons_append]⟩))
  | openString eq inside =>
    obtain ⟨rfl, rfl⟩ := List.cons_eq_cons.mp eq
    exact .inr (.inr (.inl ⟨rfl, by rw [stringBody_open inside]⟩))
  | @openGuard body _ eq inside =>
    obtain ⟨rfl, rfl⟩ : '"' = c ∧ body ++ ['\\'] = text := by simpa using eq
    exact .inr (.inr (.inl ⟨rfl, by rw [stringBody_guarding inside, List.cons_append]⟩))

section

variable {c : Char} {text word : List Char} {kind : Token.Kind} {value : Option Token.Value}

/-- Where a number begins, every word is part of its numeral. -/
theorem Fits.isPrefix_numeral (h : Fits (c :: text) word kind value)
    (begins : c.isDigit ∨ c = '.' ∧ text.head?.any Char.isDigit) :
    word <+: Lexeme.numeral (c :: text) := by
  rcases fits_cons h with ⟨-, part⟩ | ⟨letter, -⟩ | ⟨rfl, -⟩ | ⟨⟨notDigit, notPoint, -⟩, -⟩
  · exact part
  · rcases begins with digit | ⟨rfl, -⟩
    · rw [Text.not_isAlpha_of_isDigit digit] at letter
      cases letter
    · cases letter
  · rcases begins with digit | ⟨point, -⟩
    · cases digit
    · cases point
  · rcases begins with digit | ⟨point, -⟩
    · rw [digit] at notDigit
      cases notDigit
    · exact absurd point notPoint

/-- Where a name begins, every word is part of it. -/
theorem Fits.isPrefix_name (h : Fits (c :: text) word kind value) (letter : c.isAlpha) :
    word <+: c :: text.takeWhile isWordCharacter := by
  rcases fits_cons h with ⟨digit | ⟨rfl, -⟩, -⟩ | ⟨-, part⟩ | ⟨rfl, -⟩ | ⟨⟨-, -, notLetter, -⟩, -⟩
  · rw [Text.not_isAlpha_of_isDigit digit] at letter
    cases letter
  · cases letter
  · exact part
  · cases letter
  · rw [letter] at notLetter
    cases notLetter

/-- Where a string begins, the only word is the string. -/
theorem Fits.eq_stringBody (h : Fits ('"' :: text) word kind value) :
    word = '"' :: stringBody text := by
  rcases fits_cons h with
    ⟨digit | ⟨point, -⟩, -⟩ | ⟨letter, -⟩ | ⟨-, rfl⟩ | ⟨⟨-, -, -, notQuote⟩, -⟩
  · cases digit
  · cases point
  · cases letter
  · rfl
  · exact absurd rfl notQuote

/-- Where nothing else begins, every word is a sign. -/
theorem Fits.exists_sign (h : Fits (c :: text) word kind value)
    (begins : c.isDigit = false ∧ c ≠ '.' ∧ c.isAlpha = false ∧ c ≠ '"') :
    ∃ l ∈ signs, l.spelling = word := by
  obtain ⟨notDigit, notPoint, notLetter, notQuote⟩ := begins
  rcases fits_cons h with
    ⟨digit | ⟨point, -⟩, -⟩ | ⟨letter, -⟩ | ⟨quote, -⟩ | ⟨-, l, listed, spelling, -⟩
  · rw [notDigit] at digit
    cases digit
  · exact absurd point notPoint
  · rw [notLetter] at letter
    cases letter
  · exact absurd quote notQuote
  · exact ⟨l, listed, spelling⟩

end

/-- The sign that is found is the longest: no sign in the list begins with an earlier one. -/
theorem length_le_of_sign? {text : List Char} {lexeme : Lexeme}
    (found : sign? text = some lexeme) {l : Lexeme} (mem : l ∈ signs)
    (isPrefix : l.spelling <+: text) : l.spelling.length ≤ lexeme.spelling.length := by
  have ordered : signs.Pairwise fun l l' =>
      l.spelling <+: l'.spelling → l'.spelling.length ≤ l.spelling.length := by decide
  obtain ⟨stands, before, behind, eq, earlier⟩ := List.find?_eq_some_iff_append.mp found
  have head : lexeme.spelling <+: text := List.isPrefixOf_iff_prefix.mp stands
  rw [eq] at mem ordered
  rcases List.mem_append.mp mem with passed | mem
  · -- an earlier sign does not stand in the text
    have out : l.spelling.isPrefixOf text = false := by simpa using earlier l passed
    rw [List.isPrefixOf_iff_prefix.mpr isPrefix] at out
    cases out
  · rcases List.mem_cons.mp mem with rfl | later
    · exact Nat.le_refl _
    · by_contra longer
      have within : lexeme.spelling <+: l.spelling :=
        List.prefix_of_prefix_length_le head isPrefix (by omega)
      have next := (List.pairwise_cons.mp (List.pairwise_append.mp ordered).2.1).1 l later
      exact longer (next within)

/-- The sign that is found belongs to the signs and stands in the text. -/
theorem sign_of_sign? {text : List Char} {lexeme : Lexeme} (found : sign? text = some lexeme) :
    Sign lexeme.spelling lexeme.kind ∧ lexeme.value = none ∧ lexeme.spelling <+: text := by
  have valueless : ∀ l ∈ signs, l.value = none := by decide
  have mem := List.mem_of_find?_eq_some found
  exact ⟨sign_iff.mpr ⟨lexeme, mem, rfl, rfl⟩, valueless lexeme mem,
    List.isPrefixOf_iff_prefix.mp (List.find?_some found :)⟩

/-- A numeral is the longest word where it stands, if no digit is left out. -/
theorem longest_ofNumeral {c : Char} {text spelling : List Char}
    (begins : c.isDigit ∨ c = '.' ∧ text.head?.any Char.isDigit)
    (eq : spelling = numeral (c :: text)) (ne : spelling ≠ []) :
    Longest (c :: text) (ofNumeral spelling ne).spelling (ofNumeral spelling ne).kind
      (ofNumeral spelling ne).value := by
  subst eq
  have pointed : ∀ fraction, c :: text = '.' :: fraction → fraction.head?.any Char.isDigit := by
    rintro fraction ⟨⟩
    rcases begins with digit | ⟨-, next⟩
    · cases digit
    · exact next
  obtain ⟨kind, value, spelled⟩ := exists_numeral ne pointed
  rw [ofNumeral_eq spelled ne]
  exact ⟨.numeral (numeral_isPrefix _) spelled,
    fun _ _ _ other => (other.isPrefix_numeral begins).length_le⟩

theorem longest_ofWord {c : Char} (letter : c.isAlpha) (text : List Char)
    (ne : c :: text.takeWhile isWordCharacter ≠ []) :
    Longest (c :: text) (c :: text.takeWhile isWordCharacter)
      (ofWord (c :: text.takeWhile isWordCharacter) ne).kind
      (ofWord (c :: text.takeWhile isWordCharacter) ne).value := by
  have others : ∀ d ∈ text.takeWhile isWordCharacter, isWordCharacter d :=
    fun d => List.mem_takeWhile_imp
  obtain ⟨kind, name⟩ := exists_name letter others
  have isPrefix : c :: text.takeWhile isWordCharacter <+: c :: text :=
    List.cons_prefix_cons.mpr ⟨rfl, List.takeWhile_prefix _⟩
  rw [ofWord_eq name ne]
  exact ⟨.name isPrefix name, fun _ _ _ other => (other.isPrefix_name letter).length_le⟩

theorem longest_string (text : List Char) :
    Longest ('"' :: text) ('"' :: stringBody text) .string
      (some (.text (String.ofList (stringText (stringBody text))))) :=
  ⟨fits_stringBody text, fun _ _ _ other => other.eq_stringBody ▸ Nat.le_refl _⟩

theorem longest_sign {c : Char} {text : List Char} {lexeme : Lexeme}
    (found : sign? (c :: text) = some lexeme) :
    Longest (c :: text) lexeme.spelling lexeme.kind lexeme.value := by
  obtain ⟨sign, valueless, isPrefix⟩ := sign_of_sign? found
  obtain ⟨d, rest, spelling⟩ := List.exists_cons_of_ne_nil lexeme.spelling_ne_nil
  obtain ⟨rfl, -⟩ := List.cons_prefix_cons.mp (spelling ▸ isPrefix)
  rw [valueless]
  refine ⟨.sign isPrefix sign, fun word kind value other => ?_⟩
  obtain ⟨l, listed, rfl⟩ := other.exists_sign (sign_head (spelling ▸ sign))
  exact length_le_of_sign? found listed other.isPrefix

/-- The lexeme at the head of a text is the longest word that stands there. -/
theorem longest_of_first {c : Char} {text : List Char} {lexeme : Lexeme}
    (h : first c text = .ok lexeme) :
    Longest (c :: text) lexeme.spelling lexeme.kind lexeme.value := by
  unfold first at h
  split at h
  · next digit =>
    cases h
    exact longest_ofNumeral (.inl digit) (numeral_of_isDigit digit text).symm _
  split at h
  · next point =>
    cases h
    obtain ⟨rfl, next⟩ := point
    exact longest_ofNumeral (.inr ⟨rfl, next⟩) (numeral_point text).symm _
  split at h
  · next letter =>
    cases h
    exact longest_ofWord letter text _
  split at h
  · next quote =>
    cases h
    exact quote ▸ longest_string text
  split at h
  · next found =>
    cases h
    exact longest_sign found
  · cases h

/-- Where no lexeme begins, no word of any class stands. -/
theorem not_fits_of_first {c : Char} {text : List Char} {fault : Fault}
    (h : first c text = .error fault) :
    fault = faultAt c ∧ ∀ word kind value, ¬ Fits (c :: text) word kind value := by
  unfold first at h
  split_ifs at h with digit point letter quote
  split at h
  · cases h
  · next none =>
    cases h
    refine ⟨rfl, fun word kind value other => ?_⟩
    rcases fits_cons other with ⟨begins, -⟩ | ⟨letter', -⟩ | ⟨quote', -⟩ | ⟨-, l, mem, rfl, part⟩
    · exact begins.elim digit point
    · exact letter letter'
    · exact quote quote'
    · exact List.find?_eq_none.mp none l mem (List.isPrefixOf_iff_prefix.mpr part)

end Lexeme

end Scriptlet
