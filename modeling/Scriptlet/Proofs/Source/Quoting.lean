import Scriptlet.Proofs.Binary64.Shortest
import Scriptlet.Proofs.Source.Rendering

/-!
# Tokens as messages quote them

A message quotes a token by its lexeme, which is made anew from kind and value. Read as a script of
its own, a lexeme is the token again, with two exceptions. Strings are quoted as they are, with no
backslash in front of the quotes and backslashes in them, and so the string ends at the first quote.
Doubles from `1e16` on and below `1e-4` are quoted with an exponent, and those beyond the greatest
in a word, and no numeral is spelled so.

## Main definitions

* `Binary64.isPositional` — the doubles that are written around a point
* `Token.isQuotable` — the tokens that are not among the exceptions
* `Alone` — a text that is one token

## Main results

* `Token.alone_lexeme_iff` — the lexeme of a word is the word again if it is quotable, and only then
* `Source.tokens_lexeme` — what is read of the lexeme of a token
-/

namespace Scriptlet

/-! ### Doubles in writing -/

namespace Binary64

/-- Zero, and the doubles from `1e-4` on and below `1e16`. -/
def isPositional : Binary64 → Bool
  | finite _ rank =>
    rank.val == 0 || rankOfDecimal 1 (-4) ≤ rank.val && rank.val < rankOfDecimal 1 16
  | infinite _ | nan => false

variable {rank : Nat}

theorem ofRank_of_lt (h : rank < infinityRank) : ofRank false rank = finite false ⟨rank, h⟩ :=
  dif_pos h

theorem ofRank_of_le (h : infinityRank ≤ rank) : ofRank false rank = infinite false :=
  dif_neg (Nat.not_lt.mpr h)

theorem toText_ofRank_zero : (ofRank false 0).toText.toList = ['0', '.', '0'] := by
  decide +kernel

theorem toText_ofRank (finite : rank < infinityRank) (pos : 0 < rank) :
    (ofRank false rank).toText.toList = (shortest rank).toText := by
  rw [ofRank_of_lt finite, toText, String.toList_ofList]
  simp [Nat.ne_of_gt pos]

theorem isPositional_ofRank_iff (finite : rank < infinityRank) (pos : 0 < rank) :
    (ofRank false rank).isPositional ↔
      -4 < (shortest rank).point ∧ (shortest rank).point ≤ 16 := by
  rw [point_shortest_iff pos, ofRank_of_lt finite, isPositional]
  simp [Nat.ne_of_gt pos]

/-- A double that is written around a point is a numeral for itself. -/
theorem numeral_toText (h : (ofRank false rank).isPositional) :
    Numeral (ofRank false rank).toText.toList .float (.float (ofRank false rank)) := by
  rcases Nat.lt_or_ge rank infinityRank with finite | beyond
  · -- zero is written without looking for digits
    rcases Nat.eq_zero_or_pos rank with rfl | pos
    · have digits : ∀ c ∈ ['0'], c.isDigit := List.all_eq_true.mp (by decide)
      have zero : ofDigits false ['0'] ['0'] = ofRank false 0 := by decide +kernel
      rw [toText_ofRank_zero, ← zero]
      exact .float (List.cons_ne_nil _ _) digits digits
    · have digits : ∀ c ∈ (shortest rank).digits, c.isDigit := fun _ => isDigit_of_mem_shortest
      have zero : '0'.isDigit := by decide
      rw [toText_ofRank finite pos, Decimal.toText,
        if_pos ((isPositional_ofRank_iff finite pos).mp h), Decimal.positional_eq,
        ← ofDigits_shortest]
      exact .float (List.append_ne_nil_of_left_ne_nil (Decimal.orZero_ne_nil _) _)
        (Decimal.forall_mem_whole zero digits) (Decimal.forall_mem_fraction zero digits)
  · rw [ofRank_of_le beyond] at h
    cases h

/-- A double that is written otherwise has a letter in it. -/
theorem exists_letter_mem_toText (h : (ofRank false rank).isPositional = false) :
    ∃ c ∈ (ofRank false rank).toText.toList, c.isAlpha := by
  rcases Nat.lt_or_ge rank infinityRank with finite | beyond
  · have pos : 0 < rank := by
      rcases Nat.eq_zero_or_pos rank with rfl | pos
      · rw [ofRank_of_lt finite] at h
        cases h
      · exact pos
    refine ⟨'e', ?_, by decide⟩
    rw [toText_ofRank finite pos, Decimal.toText,
      if_neg fun within => by simp [(isPositional_ofRank_iff finite pos).mpr within] at h,
      Decimal.scientific]
    simp
  · rw [ofRank_of_le beyond]
    exact ⟨'i', by decide, by decide⟩

example : (ofDigits false ['0'] ['0', '0', '0', '0', '1']).toText = "1e-5" := by decide +kernel

end Binary64

/-! ### Strings between quotes -/

/-- A guarded character takes two places, and so a string is no longer than what is written. -/
theorem StringBody.length_le {body value : List Char} (h : StringBody body value) :
    value.length ≤ body.length := by
  induction h with
  | nil => exact Nat.le_refl 0
  | plain _ _ _ ih => exact Nat.succ_le_succ ih
  | lineFeed _ ih | tab _ ih | guarded _ _ _ ih => exact Nat.succ_le_succ (Nat.le_succ_of_le ih)

/-- What stands for itself has no guarded character in it, and so neither quotes nor backslashes. -/
theorem StringBody.not_mem {body value : List Char} (h : StringBody body value)
    (same : body = value) : '"' ∉ body ∧ '\\' ∉ body := by
  induction h with
  | nil => exact ⟨List.not_mem_nil, List.not_mem_nil⟩
  | plain notQuote notGuard _ ih =>
    obtain ⟨noQuote, noGuard⟩ := ih (List.cons_eq_cons.mp same).2
    simp only [List.mem_cons, not_or]
    exact ⟨⟨notQuote.symm, noQuote⟩, notGuard.symm, noGuard⟩
  | lineFeed inside | tab inside | guarded _ _ inside =>
    have length := congrArg List.length same
    have shorter := inside.length_le
    simp only [List.length_cons] at length
    omega

theorem stringBody_self_iff {text : List Char} :
    StringBody text text ↔ '"' ∉ text ∧ '\\' ∉ text := by
  constructor
  · exact fun h => h.not_mem rfl
  · rintro ⟨noQuote, noGuard⟩
    induction text with
    | nil => exact .nil
    | cons c text ih =>
      simp only [List.mem_cons, not_or] at noQuote noGuard
      exact .plain (Ne.symm noQuote.1) (Ne.symm noGuard.1) (ih noQuote.2 noGuard.2)

namespace Lexeme

theorem stringText_stringBody (text : List Char) :
    stringText (stringBody text) = stringText text := by
  obtain ⟨body, value, inside, ⟨rest, rfl⟩ | rfl | rfl⟩ := exists_stringBody text
  · rw [stringBody_closed inside, stringText_closed inside, stringText_append inside]
    simp [stringText]
  · rw [stringBody_open inside]
  · rw [stringBody_guarding inside]

/-- A string that a quote closes stands for all that is in front of the quote only if each
character stands for itself. -/
theorem stringBody_of_stringText_eq {text : List Char} (h : stringText (text ++ ['"']) = text) :
    StringBody text text := by
  obtain ⟨body, value, inside, ⟨rest, rfl⟩ | rfl | rfl⟩ := exists_stringBody text
  · -- an earlier quote closes the string, whose text is too short then
    rw [List.append_assoc, List.cons_append, stringText_append inside] at h
    have length := inside.length_le
    have longer := congrArg List.length h
    simp [stringText] at longer
    omega
  · rw [stringText_closed inside] at h
    exact h ▸ inside
  · rw [List.append_assoc, stringText_append inside] at h
    cases (List.append_inj' h rfl).2

end Lexeme

/-! ### Texts that are one token -/

/-- A text whose first character stands at a place is one token of this kind and this value. -/
def Alone (p : Position) (text : List Char) (kind : Token.Kind) (value : Option Token.Value) :
    Prop :=
  ∃ t, Cut p text [t] ∧ t.kind = kind ∧ t.value = value

section

variable {p : Position} {text : List Char} {kind : Token.Kind} {value : Option Token.Value}

theorem Lexeme.Fits.alone (h : Fits text text kind value) : Alone p text kind value :=
  ⟨_, .single h.longest_self, rfl, rfl⟩

/-- What is read of such a text is this token, and the end of input. -/
theorem Source.alone_iff {s : Source} :
    (∃ u stop, s.tokens = .ok [u, stop] ∧ u.kind = kind ∧ u.value = value ∧
      stop.kind = .endOfInput) ↔ Alone (.start s) s.text.toList kind value := by
  constructor
  · rintro ⟨u, stop, read, rfl, rfl, -⟩
    obtain ⟨w, cut, eq⟩ := Token.readFrom_eq_ok_iff.mp read
    have split : [u] ++ [stop] = w ++ _ := eq
    obtain ⟨rfl, -⟩ := List.append_inj' split rfl
    exact ⟨u, cut, rfl, rfl⟩
  · rintro ⟨t, cut, rfl, rfl⟩
    exact ⟨t, _, Token.readFrom_eq_ok_iff.mpr ⟨[t], cut, rfl⟩, rfl, rfl, rfl⟩

/-- The first token of a text that begins with a quote is the string there. -/
theorem Cut.value_eq_of_quote {t : Token} {w : List Token} (h : Cut p ('"' :: text) (t :: w)) :
    t.value = some (.text (String.ofList (Lexeme.stringText text))) := by
  generalize whole : '"' :: text = quoted at h
  cases h with
  | blank blank =>
    obtain ⟨rfl, -⟩ := List.cons_eq_cons.mp whole
    cases blank
  | word longest =>
    rw [← whole] at longest
    rw [← Lexeme.stringText_stringBody]
    exact (longest.fits.eq_stringBody ▸ longest.fits).unique (Lexeme.fits_stringBody text) |>.2

/-- Between quotes stands the text of the string exactly if it has no quote and no backslash. -/
theorem alone_string_iff (text : List Char) :
    Alone p ('"' :: text ++ ['"']) .string (some (.text (String.ofList text))) ↔
      '"' ∉ text ∧ '\\' ∉ text := by
  rw [← stringBody_self_iff]
  constructor
  · rintro ⟨t, cut, -, value⟩
    have same := cut.value_eq_of_quote.symm.trans value
    exact Lexeme.stringBody_of_stringText_eq (String.ofList_injective (by simpa using same))
  · exact fun plain => (Lexeme.Fits.closedString List.prefix_rfl plain).alone

/-- A word with a letter in it is no double. -/
theorem Lexeme.Fits.kind_ne_float {word : List Char} (h : Fits text word kind value) {c : Char}
    (mem : c ∈ word) (letter : c.isAlpha) : kind ≠ .float := by
  rintro rfl
  have notDigit {d : Char} (digit : d.isDigit) : c ≠ d := by
    rintro rfl
    rw [Text.not_isAlpha_of_isDigit digit] at letter
    cases letter
  -- only a numeral is a double, and it consists of digits and a point
  cases h with
  | numeral _ numeral =>
    cases numeral with
    | float _ whole fraction =>
      rcases List.mem_append.mp mem with mem | mem
      · exact notDigit (whole c mem) rfl
      rcases List.mem_cons.mp mem with rfl | mem
      · cases letter
      · exact notDigit (fraction c mem) rfl
  | name _ name => cases name
  | sign _ sign => cases sign with
    | fixed symbol => cases symbol

/-- A text with a letter in it has other tokens than doubles. -/
theorem Cut.exists_kind_ne_float {w : List Token} (h : Cut p text w) {c : Char}
    (mem : c ∈ text) (letter : c.isAlpha) : ∃ t ∈ w, t.kind ≠ .float := by
  induction h with
  | nil => cases mem
  | @blank _ d _ _ blank _ ih =>
    rcases List.mem_cons.mp mem with rfl | mem
    · rcases Lexeme.isBlank_iff.mp blank with rfl | rfl | rfl <;> cases letter
    · exact ih mem
  | word longest _ ih =>
    rcases List.mem_append.mp mem with mem | mem
    · exact ⟨_, List.mem_cons_self, longest.fits.kind_ne_float mem letter⟩
    · obtain ⟨t, within, other⟩ := ih mem
      exact ⟨t, List.mem_cons_of_mem _ within, other⟩

end

/-! ### Lexemes -/

/-- Whether a token is what its lexeme reads as: strings only without quotes and backslashes, and
doubles only if they are written around a point. -/
def Token.isQuotable (t : Token) : Bool :=
  match t.value with
  | some (.text text) => t.kind ≠ .string || '"' ∉ text.toList && '\\' ∉ text.toList
  | some (.float x) => x.isPositional
  | _ => true

namespace Token

variable {start stop p : Position}

theorem alone_lexeme_string_iff (text : List Char) :
    let t : Token := ⟨.string, some (.text (String.ofList text)), start, stop⟩
    Alone p t.lexeme.toList t.kind t.value ↔ t.isQuotable := by
  intro t
  have quoted : t.lexeme.toList = '"' :: text ++ ['"'] := by
    simp [t, lexeme]
  have quotable : t.isQuotable ↔ '"' ∉ text ∧ '\\' ∉ text := by
    simp [t, isQuotable]
  rw [quoted, quotable]
  exact alone_string_iff text

theorem alone_lexeme_double_iff (rank : Nat) :
    let t : Token := ⟨.float, some (.float (.ofRank false rank)), start, stop⟩
    Alone p t.lexeme.toList t.kind t.value ↔ t.isQuotable := by
  intro t
  constructor
  · rintro ⟨u, cut, double, -⟩
    -- with an exponent the digits are followed by a name, and `inf` is one
    by_contra other
    obtain ⟨c, mem, letter⟩ := Binary64.exists_letter_mem_toText (Bool.not_eq_true _ ▸ other)
    obtain ⟨v, within, notDouble⟩ := cut.exists_kind_ne_float mem letter
    exact notDouble (List.mem_singleton.mp within ▸ double)
  · exact fun positional =>
      (Lexeme.Fits.numeral List.prefix_rfl (Binary64.numeral_toText positional)).alone

/-- The lexeme of a word is the word again if it is quotable, and only then. -/
theorem alone_lexeme_iff {t : Token} {text word : List Char}
    (h : Lexeme.Fits text word t.kind t.value) (ordinary : t.kind ≠ .separator) :
    Alone p t.lexeme.toList t.kind t.value ↔ t.isQuotable := by
  obtain ⟨kind, value, start, stop⟩ := t
  -- names, integers and signs read back always, and doubles and strings if they are quotable
  cases h with
  | numeral _ numeral =>
    have suits := numeral.suits
    cases numeral with
    | integer | wideInteger =>
      refine iff_of_true (Lexeme.Fits.numeral List.prefix_rfl (numeral_toText ?_)).alone rfl
      exact suits
    | float => exact alone_lexeme_double_iff _
  | name _ name =>
    have fits := (fits_of_name name).1
    have plain : kind ≠ .string := by cases name <;> nofun
    have quoted : Token.lexeme ⟨kind, some (.text (String.ofList word)), start, stop⟩ =
        String.ofList word := if_neg plain
    rw [quoted, String.toList_ofList]
    exact iff_of_true fits.alone (by simp [isQuotable, plain])
  | sign _ sign =>
    cases sign with
    | @fixed kind spelling symbol notSeparator =>
      have lexeme : Token.lexeme ⟨kind, none, start, stop⟩ = spelling := by simp [lexeme, symbol]
      rw [lexeme]
      exact iff_of_true (Lexeme.Fits.sign List.prefix_rfl (.fixed symbol notSeparator)).alone rfl
    | semicolon | lineFeed => exact absurd rfl ordinary
  | closedString | openString | openGuard => exact alone_lexeme_string_iff _

end Token

/-- The lexeme of a token reads back as one token with this kind and this value exactly if the
token is quotable: if it is a string, there is no quote and no backslash in its text, and if it is
a double, then it is zero or one from `1e-4` on and below `1e16`. -/
theorem Source.tokens_lexeme {s : Source} {tokens : List Token} (read : s.tokens = .ok tokens)
    {t : Token} (mem : t ∈ tokens) (ordinary : t.kind ∉ [.separator, .endOfInput])
    (name : String) :
    (∃ u stop, Source.tokens ⟨name, t.lexeme⟩ = .ok [u, stop] ∧ u.kind = t.kind ∧
      u.value = t.value ∧ stop.kind = .endOfInput) ↔ t.isQuotable := by
  simp only [List.mem_cons, List.not_mem_nil, or_false, not_or] at ordinary
  obtain ⟨notSeparator, notEnd⟩ := ordinary
  obtain ⟨w, cut, rfl⟩ := Token.readFrom_eq_ok_iff.mp read
  rcases List.mem_append.mp mem with word | last
  · obtain ⟨rest, spelling, fits⟩ := cut.exists_fits t word
    exact Source.alone_iff.trans (Token.alone_lexeme_iff fits notSeparator)
  · rw [List.mem_singleton.mp last] at notEnd
    exact absurd rfl notEnd

/-- The digits of a double need not be those of the script. -/
theorem Source.tokens_lexeme_double :
    let s : Source := ⟨"", "1.50"⟩
    let t : Token := ⟨.float, some (.float (.ofDigits false ['1'] ['5', '0'])), .start s, s.stop⟩
    s.tokens = .ok [t, ⟨.endOfInput, none, s.stop, s.stop⟩] ∧ t.lexeme = "1.5" ∧
      ∃ u stop, Source.tokens ⟨"", "1.5"⟩ = .ok [u, stop] ∧ u.kind = .float ∧
        u.value = t.value ∧ stop.kind = .endOfInput := by
  intro s t
  have read : s.tokens = .ok [t, ⟨.endOfInput, none, s.stop, s.stop⟩] := by decide +kernel
  have lexeme : t.lexeme = "1.5" := by decide +kernel
  have quotable : t.isQuotable := by decide +kernel
  have again := (Source.tokens_lexeme read List.mem_cons_self (by decide) "").mpr quotable
  rw [lexeme] at again
  exact ⟨read, lexeme, again⟩

/-- A guarded quote is quoted without its guard, and closes the string when it is read again. -/
theorem Source.tokens_lexeme_quote : ∃ t stop,
    Source.tokens ⟨"", "\"a\\\"b\""⟩ = .ok [t, stop] ∧ t.kind = .string ∧
      t.lexeme = "\"a\"b\"" ∧
      ¬ ∃ u stop', Source.tokens ⟨"", t.lexeme⟩ = .ok [u, stop'] ∧ u.kind = t.kind ∧
        u.value = t.value ∧ stop'.kind = .endOfInput := by
  let s : Source := ⟨"", "\"a\\\"b\""⟩
  let t : Token := ⟨.string, some (.text "a\"b"), .start s, s.stop⟩
  have read : s.tokens = .ok [t, ⟨.endOfInput, none, s.stop, s.stop⟩] := by decide +kernel
  have kinds : (Source.tokens ⟨"", "\"a\"b\""⟩).map (·.map Token.kind) =
      .ok [.string, .identifier, .string, .endOfInput] := by decide +kernel
  refine ⟨t, _, read, rfl, rfl, ?_⟩
  rintro ⟨u, stop', again, -⟩
  rw [show t.lexeme = "\"a\"b\"" from rfl] at again
  rw [again] at kinds
  simp [Except.map] at kinds

end Scriptlet
