import Scriptlet.Token.Basic

/-!
# Lexemes

What the characters at the head of a text spell. A lexeme reaches as far as its class
allows: all the digits of a number, all the letters of a word, a string up to its closing
quote, and of the signs the longest that fits.

## Main definitions

* `Lexeme` — a run of characters with the kind and the value that it spells
* `Lexeme.first` — the lexeme at the head of a text, or what is wrong there
* `Lexeme.Fault` — why no lexeme begins at a place

## Main results

* `Lexeme.first_spelling_isPrefix` — a lexeme is spelled by the head of the text
-/

namespace Scriptlet

/-- A run of characters, never empty, with the kind and the value that it spells. -/
structure Lexeme where
  kind : Token.Kind
  value : Option Token.Value
  spelling : List Char
  spelling_ne_nil : spelling ≠ []

namespace Lexeme

/-- Why no lexeme begins at a place: the character there begins none, or it is one half of
a doubled sign whose other half is missing. -/
inductive Fault
  | illegalCharacter (c : Char)
  | expectedCharacter (expected after : Char)
  deriving DecidableEq, Repr

/-- How many characters a fault concerns: with a missing half also the character in its
place. -/
def Fault.extent : Fault → Nat
  | illegalCharacter _ => 1
  | expectedCharacter _ _ => 2

/-- Characters that only keep lexemes apart. -/
def isBlank (c : Char) : Bool := c == ' ' || c == '\t' || c == '\r'

theorem isBlank_iff {c : Char} : isBlank c ↔ c = ' ' ∨ c = '\t' ∨ c = '\r' := by
  simp [isBlank, or_assoc]

/-! ### Numbers -/

/-- Digits, at most one point, and digits after it. -/
def numeral (text : List Char) : List Char :=
  text.takeWhile Char.isDigit ++
    match text.dropWhile Char.isDigit with
    | '.' :: fraction => '.' :: fraction.takeWhile Char.isDigit
    | _ => []

/-- A numeral stands at the front of the text that it is read from. -/
theorem numeral_isPrefix (text : List Char) : numeral text <+: text := by
  have whole : text.takeWhile Char.isDigit ++ text.dropWhile Char.isDigit = text :=
    List.takeWhile_append_dropWhile
  unfold numeral
  split
  · next fraction h =>
    conv => rhs; rw [← whole, h]
    exact (List.prefix_append_right_inj _).mpr
      (List.cons_prefix_cons.mpr ⟨rfl, List.takeWhile_prefix _⟩)
  · rw [List.append_nil]
    exact List.takeWhile_prefix _

/-- An integer, kept as its digits where 64 bits with a sign do not hold it. -/
def integerValue (digits : List Char) : Token.Value :=
  let n := Text.digitsValue digits
  if n < Nat.pow 2 63 then .int (Int64.ofNat n) else .wideInt (String.ofList digits)

/-- What a numeral spells: with a point a double, without one an integer. -/
def ofNumeral (spelling : List Char) (h : spelling ≠ []) : Lexeme :=
  match spelling.dropWhile Char.isDigit with
  | '.' :: fraction =>
    ⟨.float, some (.float (.ofDigits false (spelling.takeWhile Char.isDigit) fraction)),
      spelling, h⟩
  | _ => ⟨.int, some (integerValue spelling), spelling, h⟩

/-! ### Words -/

/-- The characters that continue a word. -/
def isWordCharacter (c : Char) : Bool := c.isAlphanum || c == '_'

/-- What a word spells: a reserved word or an identifier. -/
def ofWord (spelling : List Char) (h : spelling ≠ []) : Lexeme :=
  let word := String.ofList spelling
  let kind := if (Keyword.ofSpelling? word).isSome then .keyword else .identifier
  ⟨kind, some (.text word), spelling, h⟩

/-! ### Strings -/

/-- The part of a text that belongs to a string already opened: up to the first quote that
no backslash guards, or all of it if there is none. -/
def stringBody : List Char → List Char
  | [] => []
  | '\\' :: c :: text => '\\' :: c :: stringBody text
  | c :: text => if c = '"' then [c] else c :: stringBody text

/-- The body of a string stands at the front of the text that it is read from. -/
theorem stringBody_isPrefix (text : List Char) : stringBody text <+: text := by
  fun_induction stringBody text with
  | case1 => exact List.prefix_rfl
  | case2 c text ih =>
    exact List.cons_prefix_cons.mpr ⟨rfl, List.cons_prefix_cons.mpr ⟨rfl, ih⟩⟩
  | case3 text => exact List.cons_prefix_cons.mpr ⟨rfl, List.nil_prefix⟩
  | case4 c text _ _ ih => exact List.cons_prefix_cons.mpr ⟨rfl, ih⟩

/-- The character that stands for a guarded one. -/
def unescaped (c : Char) : Char :=
  if c = 'n' then '\n' else if c = 't' then '\t' else c

/-- The characters that the body of a string stands for. A backslash with nothing after it
stands for none. -/
def stringText : List Char → List Char
  | [] => []
  | ['\\'] => []
  | '\\' :: c :: body => unescaped c :: stringText body
  | c :: body => if c = '"' then [] else c :: stringText body

/-! ### Signs -/

/-- A lexeme that is always spelled the same. -/
def sign (kind : Token.Kind) (spelling : List Char) (h : spelling ≠ [] := by simp) : Lexeme :=
  ⟨kind, none, spelling, h⟩

/-- The signs; one that begins with another comes before it. -/
def signs : List Lexeme :=
  [sign .and ['&', '&'], sign .or ['|', '|'], sign .notEqual ['!', '='],
    sign .equal ['=', '='], sign .lessEqual ['<', '='], sign .greaterEqual ['>', '='],
    sign .not ['!'], sign .assign ['='], sign .less ['<'], sign .greater ['>'],
    sign .plus ['+'], sign .minus ['-'], sign .times ['*'], sign .divide ['/'],
    sign .leftParen ['('], sign .rightParen [')'], sign .leftCurl ['\x7b'],
    sign .rightCurl ['\x7d'], sign .comma [','], sign .separator [';'],
    sign .separator ['\n']]

/-- The sign at the head of a text. -/
def sign? (text : List Char) : Option Lexeme :=
  signs.find? (·.spelling.isPrefixOf text)

/-- Why no sign begins with this character: a lone half of `&&` or `||` lacks its double. -/
def faultAt (c : Char) : Fault :=
  if c = '&' ∨ c = '|' then .expectedCharacter c c else .illegalCharacter c

/-! ### The head of a text -/

/-- The lexeme at the head of a text that begins with `c`. A point begins a number only
before a digit. -/
def first (c : Char) (text : List Char) : Except Fault Lexeme :=
  if c.isDigit then .ok (ofNumeral (c :: numeral text) (by simp))
  else if c = '.' ∧ text.head?.any Char.isDigit then
    .ok (ofNumeral (c :: text.takeWhile Char.isDigit) (by simp))
  else if c.isAlpha then .ok (ofWord (c :: text.takeWhile isWordCharacter) (by simp))
  else if c = '"' then
    let body := stringBody text
    .ok ⟨.string, some (.text (String.ofList (stringText body))), c :: body, by simp⟩
  else match sign? (c :: text) with
    | some lexeme => .ok lexeme
    | none => .error (faultAt c)

@[simp] theorem ofNumeral_spelling (spelling : List Char) (h : spelling ≠ []) :
    (ofNumeral spelling h).spelling = spelling := by
  unfold ofNumeral
  split <;> rfl

/-- A lexeme is spelled by the characters that stand at the head of the text. -/
theorem first_spelling_isPrefix {c : Char} {text : List Char} {lexeme : Lexeme}
    (h : first c text = .ok lexeme) : lexeme.spelling <+: c :: text := by
  unfold first at h
  split at h
  · cases h
    simpa using numeral_isPrefix text
  split at h
  · cases h
    simpa using List.takeWhile_prefix _
  split at h
  · cases h
    simpa [ofWord] using List.takeWhile_prefix _
  split at h
  · cases h
    simpa using stringBody_isPrefix text
  split at h
  · next found =>
    cases h
    exact List.isPrefixOf_iff_prefix.mp (List.find?_some found :)
  · cases h

end Lexeme

end Scriptlet
