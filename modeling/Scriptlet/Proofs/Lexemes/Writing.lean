import Scriptlet.Proofs.Lexemes.Cut

/-!
# Tokens in writing

Tokens are written one behind the other with a blank between two, except around parentheses, in
front of commas, and at the ends of lines. What is written is cut into the same tokens again.

## Main definitions

* `Token.isWritable` — the tokens that can be written: all but doubles and the end of input
* `Token.written`, `Token.writeAll` — a token in writing, and tokens in a row

## Main results

* `Token.exists_cut_writeAll` — tokens in writing are cut into the same tokens
-/

namespace Scriptlet

/-- Integers that can be written without a sign. -/
def Token.Value.isCount : Token.Value → Bool
  | .int n => 0 ≤ n.toInt
  | .wideInt digits =>
    digits ≠ "" && digits.toList.all Char.isDigit && 2 ^ 63 ≤ Text.digitsValue digits.toList
  | _ => false

namespace Token

/-- A character as it stands in a string. -/
def guarded (c : Char) : List Char := if c = '"' ∨ c = '\\' then ['\\', c] else [c]

/-- A token in writing. -/
def written (t : Token) : List Char :=
  match t.kind, t.value with
  | .separator, _ => ['\n']
  | .string, some (.text text) => '"' :: text.toList.flatMap guarded ++ ['"']
  | _, some value => value.toText.toList
  | kind, none => (kind.symbol?.getD "").toList

/-- A sign as a token. -/
def ofSign (kind : Kind) : Token := ⟨kind, none, .nowhere, .nowhere⟩

/-- A reserved word as a token. -/
def ofKeyword (k : Keyword) : Token := ⟨.keyword, some (.text k.spelling), .nowhere, .nowhere⟩

/-- A name that is not reserved. -/
def isName (t : Token) : Bool :=
  t.kind == .identifier && t.text?.any fun word =>
    word.toList.head?.any Char.isAlpha && word.toList.tail.all Lexeme.isWordCharacter &&
      (Keyword.ofSpelling? word).isNone

/-- An integer that can be written. -/
def isNumber (t : Token) : Bool := t.kind == .int && t.value.any Value.isCount

/-- A string. -/
def isString (t : Token) : Bool := t.kind == .string && t.text?.isSome

/-- A reserved word. -/
def isReserved (t : Token) : Bool := t.kind == .keyword && t.keyword?.isSome

/-- A sign or a separator. -/
def isSign (t : Token) : Bool :=
  t.value == none && t.kind != .endOfInput && t.kind.symbol?.isSome

/-- The tokens that can be written. -/
def isWritable (t : Token) : Bool :=
  t.isName || t.isNumber || t.isString || t.isReserved || t.isSign

/-- Whether two tokens stand next to one another with no blank between them. -/
def tight (t u : Token) : Bool :=
  t.kind ∈ [.leftParen, .separator] || u.kind ∈ [.rightParen, .comma, .separator] ||
    u.kind == .leftParen && t.kind ∈ [.int, .string, .identifier, .rightParen]

/-- Tokens in a row in writing. -/
def writeAll : List Token → List Char
  | [] => []
  | [t] => t.written
  | t :: u :: rest =>
    t.written ++ (if t.tight u then writeAll (u :: rest) else ' ' :: writeAll (u :: rest))

/-! ### Single tokens -/

theorem text?_eq_some_iff {t : Token} {text : String} :
    t.text? = some text ↔ t.value = some (.text text) := by
  unfold text?
  split <;> simp_all

theorem stringBody_guarded (text : List Char) : StringBody (text.flatMap guarded) text := by
  induction text with
  | nil => exact .nil
  | cons c text ih =>
    rw [List.flatMap_cons, guarded]
    split
    · next special =>
      rcases special with rfl | rfl
      · exact .guarded (by decide) (by decide) ih
      · exact .guarded (by decide) (by decide) ih
    · next plain => exact .plain (fun h => plain (.inl h)) (fun h => plain (.inr h)) ih

/-- A natural number in writing is a numeral. -/
theorem numeral_toString {n : Int64} (h : 0 ≤ n.toInt) :
    Numeral (toString n.toInt).toList .int (.int n) := by
  obtain ⟨k, eq⟩ := Int.eq_ofNat_of_zero_le h
  have small : k < 2 ^ 63 := by
    have bound := n.toInt_lt
    omega
  have same : Int64.ofNat k = n := by
    rw [← Int64.ofInt_eq_ofNat, ← eq, Int64.ofInt_toInt]
  have ne : k.repr.toList ≠ [] := by
    rw [Nat.toList_repr]
    exact Nat.toDigits_ne_nil
  have numeral := Numeral.integer ne (fun _ => Text.isDigit_of_mem_repr)
    ((Text.digitsValue_repr k).symm ▸ small)
  rw [Text.digitsValue_repr, same] at numeral
  rwa [eq]

/-- The text of a whole number is a numeral of the same value. -/
theorem numeral_toText {value : Value} (h : value.isCount) :
    Numeral value.toText.toList .int value := by
  cases value with
  | int n => exact numeral_toString (by simpa [Value.isCount] using h)
  | wideInt digits =>
    simp only [Value.isCount, Bool.and_eq_true, decide_eq_true_eq, List.all_eq_true] at h
    obtain ⟨⟨ne, all⟩, wide⟩ := h
    have numeral := Numeral.wideInteger (by simpa using ne) all wide
    rwa [String.ofList_toList] at numeral
  | float _ | text _ => cases h

theorem fits_written_of_isNumber {t : Token} (h : t.isNumber) :
    Lexeme.Fits t.written t.written t.kind t.value ∧ ¬ Lexeme.OpenString t.written := by
  obtain ⟨kind, value, start, stop⟩ := t
  simp only [isNumber, Bool.and_eq_true, beq_iff_eq] at h
  obtain ⟨rfl, isCount⟩ := h
  cases value with
  | none => cases isCount
  | some value =>
    have numeral := numeral_toText isCount
    refine ⟨.numeral List.prefix_rfl numeral, fun isOpen => ?_⟩
    -- a numeral begins with a digit or a point, and an open string with a quote
    obtain ⟨c, rest, eq, begins⟩ := numeral.begins
    have quote := isOpen.head?_eq
    rw [show (Token.mk .int (some value) start stop).written = value.toText.toList from rfl, eq,
      List.head?_cons] at quote
    cases quote
    rcases begins with digit | ⟨point, -⟩
    · cases digit
    · cases point

theorem fits_of_name {word : List Char} {kind : Kind} (h : Name word kind) :
    Lexeme.Fits word word kind (some (.text (String.ofList word))) ∧
      ¬ Lexeme.OpenString word := by
  refine ⟨.name List.prefix_rfl h, fun isOpen => ?_⟩
  obtain ⟨c, rest, rfl, letter, -⟩ := h.begins
  cases isOpen.head?_eq
  cases letter

/-- A letter with letters, digits and underscores behind. -/
theorem exists_letter {word : List Char} (first : word.head?.any Char.isAlpha)
    (others : word.tail.all Lexeme.isWordCharacter) :
    ∃ c rest, word = c :: rest ∧ c.isAlpha ∧ ∀ d ∈ rest, Lexeme.isWordCharacter d := by
  cases word with
  | nil => cases first
  | cons c rest => exact ⟨c, rest, rfl, by simpa using first, by simpa using others⟩

theorem fits_written_of_isName {t : Token} (h : t.isName) :
    Lexeme.Fits t.written t.written t.kind t.value ∧ ¬ Lexeme.OpenString t.written := by
  obtain ⟨kind, value, start, stop⟩ := t
  simp only [isName, Bool.and_eq_true, beq_iff_eq] at h
  obtain ⟨rfl, isWord⟩ := h
  obtain ⟨word, isText, isWord⟩ := (Option.any_eq_true _ _).mp isWord
  simp only [Bool.and_eq_true] at isWord
  obtain ⟨⟨first, others⟩, ordinary⟩ := isWord
  obtain rfl : value = _ := text?_eq_some_iff.mp isText
  obtain ⟨c, rest, eq, letter, all⟩ := exists_letter first others
  have name : Name word.toList .identifier := by
    rw [eq]
    -- a word that is no keyword is an identifier
    refine .identifier letter all fun k spelling => ?_
    rw [← eq, String.ofList_toList] at spelling
    rw [spelling, Keyword.ofSpelling?_spelling] at ordinary
    cases ordinary
  have fits := fits_of_name name
  rwa [String.ofList_toList] at fits

theorem fits_written_of_isString {t : Token} (h : t.isString) :
    Lexeme.Fits t.written t.written t.kind t.value ∧ ¬ Lexeme.OpenString t.written := by
  obtain ⟨kind, value, start, stop⟩ := t
  simp only [isString, Bool.and_eq_true, beq_iff_eq] at h
  obtain ⟨rfl, isText⟩ := h
  obtain ⟨text, isText⟩ := Option.isSome_iff_exists.mp isText
  obtain rfl : value = _ := text?_eq_some_iff.mp isText
  have inside := stringBody_guarded text.toList
  have fits := Lexeme.Fits.closedString List.prefix_rfl inside
  rw [String.ofList_toList] at fits
  exact ⟨fits, Lexeme.not_openString_closed inside⟩

theorem name_spelling (k : Keyword) : Name k.spelling.toList .keyword := by
  have letters : k.spelling.toList.head?.any Char.isAlpha ∧
      k.spelling.toList.tail.all Lexeme.isWordCharacter := by
    cases k <;> decide
  obtain ⟨c, rest, eq, letter, all⟩ := exists_letter letters.1 letters.2
  have spelling : String.ofList (c :: rest) = k.spelling := by rw [← eq, String.ofList_toList]
  exact eq ▸ .reserved letter all spelling

theorem fits_written_of_isReserved {t : Token} (h : t.isReserved) :
    Lexeme.Fits t.written t.written t.kind t.value ∧ ¬ Lexeme.OpenString t.written := by
  obtain ⟨kind, value, start, stop⟩ := t
  simp only [isReserved, keyword?, Bool.and_eq_true, beq_iff_eq] at h
  obtain ⟨rfl, isWord⟩ := h
  obtain ⟨k, isWord⟩ := Option.isSome_iff_exists.mp isWord
  obtain ⟨word, isText, found⟩ := Option.bind_eq_some_iff.mp isWord
  obtain rfl : value = _ := text?_eq_some_iff.mp isText
  obtain rfl := Keyword.ofSpelling?_eq_some_iff.mp found
  have fits := fits_of_name (name_spelling k)
  rwa [String.ofList_toList] at fits

theorem fits_written_of_isSign {t : Token} (h : t.isSign) :
    Lexeme.Fits t.written t.written t.kind t.value ∧ ¬ Lexeme.OpenString t.written := by
  obtain ⟨kind, value, start, stop⟩ := t
  simp only [isSign, Bool.and_eq_true, beq_iff_eq, bne_iff_ne] at h
  obtain ⟨⟨rfl, notEnd⟩, isSymbol⟩ := h
  have sign : Sign (Token.mk kind none start stop).written kind := by
    cases kind <;>
      first
      | exact .lineFeed
      | exact .fixed rfl (by decide)
      | exact absurd rfl notEnd
      | cases isSymbol
  refine ⟨.sign List.prefix_rfl sign, fun isOpen => ?_⟩
  obtain ⟨rest, eq⟩ := List.head?_eq_some_iff.mp isOpen.head?_eq
  exact (Lexeme.sign_head (eq ▸ sign)).2.2.2 rfl

/-- A token in writing is a word of its kind and its value, and not an open string. -/
theorem fits_written {t : Token} (h : t.isWritable) :
    Lexeme.Fits t.written t.written t.kind t.value ∧ ¬ Lexeme.OpenString t.written := by
  simp only [isWritable, Bool.or_eq_true] at h
  rcases h with (((name | number) | string) | reserved) | sign
  · exact fits_written_of_isName name
  · exact fits_written_of_isNumber number
  · exact fits_written_of_isString string
  · exact fits_written_of_isReserved reserved
  · exact fits_written_of_isSign sign

/-! ### Tokens in a row -/

/-- A token that can be written and is of the kind of a sign is this sign. -/
theorem written_of_kind {t : Token} (h : t.isWritable) {kind : Kind} (isKind : t.kind = kind)
    (sign : kind ∉ [.identifier, .int, .string, .keyword]) :
    t.value = none ∧ t.written = (ofSign kind).written := by
  obtain ⟨_, value, start, stop⟩ := t
  obtain rfl : _ = kind := isKind
  have valueless : value = none := by
    simp only [List.mem_cons, List.not_mem_nil, or_false, not_or] at sign
    simp [isWritable, isName, isNumber, isString, isReserved, isSign, sign] at h
    exact h.1.1
  subst valueless
  exact ⟨rfl, rfl⟩

theorem written_ne_nil {t : Token} (h : t.isWritable) : t.written ≠ [] := (fits_written h).1.ne_nil

theorem head?_writeAll {t : Token} (h : t.isWritable) (rest : List Token) :
    (writeAll (t :: rest)).head? = t.written.head? := by
  cases rest with
  | nil => rfl
  | cons u rest => rw [writeAll, List.head?_append_of_ne_nil _ (written_ne_nil h)]

/-- A token is the longest word in front of what cannot carry it on. Nothing carries an opening
parenthesis or a separator on. -/
theorem longest_written {t : Token} (h : t.isWritable) (rest : List Char)
    (seam : t.kind ∈ [.leftParen, .separator] ∨
      ∀ c ∈ rest.head?, Lexeme.continues c = false) :
    Lexeme.Longest (t.written ++ rest) t.written t.kind t.value := by
  obtain ⟨fits, closed⟩ := fits_written h
  rcases seam with single | ends
  · rcases List.mem_pair.mp single with kind | kind
    · obtain ⟨value, written⟩ := written_of_kind h kind (by decide)
      rw [kind, value, written]
      have sign : Sign ['('] .leftParen := Lexeme.sign_iff.mpr (by decide)
      exact Lexeme.longest_single sign (by decide) rest
    · obtain ⟨value, written⟩ := written_of_kind h kind (by decide)
      rw [kind, value, written]
      exact Lexeme.longest_single .lineFeed (by decide) rest
  · exact fits.longest_self.append closed ends

/-- Tokens with no blank between them do not carry one another on. -/
theorem seam_of_tight {t u : Token} (tight : t.tight u) (h : u.isWritable) (rest : List Token) :
    t.kind ∈ [.leftParen, .separator] ∨
      ∀ c ∈ (writeAll (u :: rest)).head?, Lexeme.continues c = false := by
  simp only [Token.tight, Bool.or_eq_true, Bool.and_eq_true, decide_eq_true_eq, beq_iff_eq]
    at tight
  -- the signs that stand close to a word in front carry no word on
  have ends (kind : u.kind ∈ [.rightParen, .comma, .separator, .leftParen]) :
      ∀ c ∈ (writeAll (u :: rest)).head?, Lexeme.continues c = false := by
    have signs : ∀ kind ∈ [Kind.rightParen, .comma, .separator, .leftParen],
        kind ∉ [.identifier, .int, .string, .keyword] ∧
          (ofSign kind).written.head?.all fun c => !Lexeme.continues c := by decide
    obtain ⟨sign, ends⟩ := signs u.kind kind
    rw [head?_writeAll h, (written_of_kind h rfl sign).2]
    intro c head
    rw [Option.mem_def.mp head] at ends
    simpa using ends
  rcases tight with (single | closing) | ⟨opening, -⟩
  · exact .inl single
  · exact .inr (ends (by simp at closing ⊢; tauto))
  · exact .inr (ends (by simp [opening]))

/-- Tokens in writing are cut into the same tokens. -/
theorem exists_cut_writeAll {tokens : List Token} (h : ∀ t ∈ tokens, t.isWritable)
    (p : Position) :
    ∃ w, Cut p (writeAll tokens) w ∧ w.map unplaced = tokens.map unplaced := by
  fun_induction writeAll tokens generalizing p with
  | case1 => exact ⟨[], .nil, rfl⟩
  | case2 t =>
    have fits := (fits_written (h t List.mem_cons_self)).1
    exact ⟨_, .single fits.longest_self, rfl⟩
  | case3 t u rest ih =>
    obtain ⟨writable, others⟩ := List.forall_mem_cons.mp h
    -- a blank stands between two tokens unless they may stand close
    split
    · next tight =>
      obtain ⟨w, cut, alike⟩ := ih others (p.advanceAll t.written)
      have longest := longest_written writable _
        (seam_of_tight tight (others u List.mem_cons_self) rest)
      exact ⟨_, .word longest cut, by rw [List.map_cons, alike]; rfl⟩
    · obtain ⟨w, cut, alike⟩ := ih others ((p.advanceAll t.written).advance ' ')
      have longest := longest_written writable (' ' :: writeAll (u :: rest))
        (.inr (by simp; decide))
      exact ⟨_, .word longest (.blank rfl cut), by rw [List.map_cons, alike]; rfl⟩

end Token

end Scriptlet
