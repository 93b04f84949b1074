import Scriptlet.Proofs.Code.Origins
import Scriptlet.Proofs.Lexemes.Writing
import Scriptlet.Proofs.Syntax.Telling

/-!
# Sources told from the text of their trees

Names and numbers in a source are words in writing, and so are strings of letters and digits. Their
texts tell them apart, as far as doubles in writing do. Sources whose trees look the same on one
line have the same tree, then, but for places.

## Main definitions

* `Token.Value.suits` — the values that a token of some kind can have

## Main results

* `Token.unplaced_eq_of_toText_eq` — tokens with the same text differ in places alone
* `Source.unplaced_eq_of_render_eq` — a tree can be told from its text, but for places
-/

namespace Scriptlet

/-! ### Values of tokens -/

namespace Token.Value

/-- Whether a token of this kind can have this value. -/
def suits : Kind → Value → Bool
  | .int, value => value.isCount
  | .float, .float _ | .string, .text _ | .identifier, .text _ | .keyword, .text _ => true
  | _, _ => false

variable {value other : Value}

theorem eq_of_isCount (h : value.isCount) (h' : other.isCount)
    (same : value.toText = other.toText) : value = other := by
  have numeral := numeral_toText h
  have numeral' := numeral_toText h'
  rw [same] at numeral
  obtain ⟨c, rest, eq, -⟩ := numeral.begins
  have ne : other.toText.toList ≠ [] := eq ▸ List.cons_ne_nil c rest
  -- a numeral is read in one way only
  have read := (Lexeme.ofNumeral_eq numeral ne).symm.trans (Lexeme.ofNumeral_eq numeral' ne)
  simpa using read

/-- Values of tokens of one kind can be told from their texts, doubles if these two can. -/
theorem eq_of_toText_eq {kind : Kind} (h : value.suits kind) (h' : other.suits kind)
    (doubles : ∀ x y, value = .float x → other = .float y → x.toText = y.toText → x = y)
    (same : value.toText = other.toText) : value = other := by
  match kind with
  | .int => exact eq_of_isCount h h' same
  | .float =>
    match value, other with
    | .float x, .float y => rw [doubles x y rfl rfl same]
  | .string | .identifier | .keyword =>
    match value, other with
    | .text s, .text s' => exact congrArg text same

end Token.Value

theorem Numeral.suits {word : List Char} {kind : Token.Kind} {value : Token.Value}
    (h : Numeral word kind value) : value.suits kind := by
  cases h with
  | integer _ _ small =>
    have positive : 0 ≤ (Int64.ofNat (Text.digitsValue word)).toInt := by
      rw [Int64.toInt_ofNat_of_lt small]
      exact Int.natCast_nonneg _
    simpa [Token.Value.suits, Token.Value.isCount] using positive
  | wideInteger ne digits wide =>
    simpa [Token.Value.suits, Token.Value.isCount, ne] using ⟨digits, wide⟩
  | float => rfl

/-- The value of a word suits its kind. -/
theorem Lexeme.Fits.suits {text word : List Char} {kind : Token.Kind} {value : Token.Value}
    (h : Fits text word kind (some value)) : value.suits kind := by
  cases h with
  | numeral _ numeral => exact numeral.suits
  | name _ name => cases name <;> rfl
  | closedString | openString | openGuard => rfl

/-- Words have bare values, but for strings. -/
theorem Lexeme.Fits.bare_value {text word : List Char} {kind : Token.Kind} {value : Token.Value}
    (h : Fits text word kind (some value)) (other : kind ≠ .string) :
    Text.Bare value.toText.toList := by
  cases h with
  | numeral _ numeral => exact numeral.bare
  | name _ name =>
    obtain ⟨first, rest, rfl, letter, others⟩ := name.begins
    rw [Token.Value.toText, String.toList_ofList]
    exact Text.bare_cons_iff.mpr ⟨by simp [Text.isBare, Char.isAlphanum, letter],
      fun c mem => Text.isBare_of_isWordCharacter (others c mem)⟩
  | closedString | openString | openGuard => exact absurd rfl other

/-- The words of a text stand in it somewhere. -/
theorem Cut.exists_fits {p : Position} {text : List Char} {w : List Token} (h : Cut p text w) :
    ∀ t ∈ w, ∃ rest word, Lexeme.Fits rest word t.kind t.value := by
  induction h with
  | nil => exact List.forall_mem_nil _
  | blank _ _ ih => exact ih
  | word longest _ ih => exact List.forall_mem_cons.mpr ⟨⟨_, _, longest.fits⟩, ih⟩

/-! ### Tokens in writing -/

open Outline

namespace Token

variable {t u : Token}

theorem isWordCharacter_of_isBare {c : Char} (h : Text.isBare c) : Piece.isWordCharacter c := by
  have none : [' ', ',', '(', ')', '[', ']'].all fun c => !Text.isBare c := by decide
  rw [Piece.isWordCharacter, decide_eq_true_eq]
  intro mem
  have notBare := List.all_eq_true.mp none c mem
  rw [h] at notBare
  cases notBare

/-- A token is one word in writing if its value is bare. -/
theorem solid_of_bare (h : ∀ value, t.value = some value → Text.Bare value.toText.toList) :
    t.Solid := by
  have label : ∀ c ∈ t.kind.label.toList, Piece.isWordCharacter c := by
    apply List.all_eq_true.mp
    cases t.kind <;> decide
  unfold Solid toText
  split
  · next value eq =>
    rw [String.toList_append, String.toList_append, List.append_assoc]
    refine List.forall_mem_append.mpr ⟨label, List.forall_mem_append.mpr ⟨?_, ?_⟩⟩
    · exact List.forall_mem_singleton.mpr (by decide)
    · exact fun c mem => isWordCharacter_of_isBare (h value eq c mem)
  · exact label

/-- Behind the label of a token stands the text of its value, if it has one. -/
theorem map_toText_eq_of_toText_eq (same : t.toText = u.toText) :
    t.value.map Value.toText = u.value.map Value.toText := by
  unfold toText at same
  rw [kind_eq_of_toText_eq same] at same
  -- a value makes a text longer than its label
  have longer (v : Value) : u.kind.label ≠ u.kind.label ++ ":" ++ v.toText := by
    intro eq
    have lengths := congrArg String.length eq
    rw [String.length_append, String.length_append, show ":".length = 1 from rfl] at lengths
    omega
  cases own : t.value with
  | none =>
    cases own' : u.value with
    | none => rfl
    | some v' =>
      rw [own, own'] at same
      exact absurd same (longer v')
  | some v =>
    cases own' : u.value with
    | none =>
      rw [own, own'] at same
      exact absurd same.symm (longer v)
    | some v' =>
      rw [own, own'] at same
      exact congrArg some ((String.append_right_inj _).mp same)

/-- Tokens with the same text differ in places alone, if their values suit their kinds and doubles
can be told from their texts. -/
theorem unplaced_eq_of_toText_eq (suits : ∀ value, t.value = some value → value.suits t.kind)
    (suits' : ∀ value, u.value = some value → value.suits u.kind)
    (doubles : ∀ x y, t.value = some (.float x) → u.value = some (.float y) →
      x.toText = y.toText → x = y)
    (same : t.toText = u.toText) : t.unplaced = u.unplaced := by
  have kinds := kind_eq_of_toText_eq same
  have texts := map_toText_eq_of_toText_eq same
  have values : t.value = u.value := by
    cases own : t.value with
    | none =>
      rw [own] at texts
      exact (Option.map_eq_none_iff.mp texts.symm).symm
    | some v =>
      rw [own] at texts
      obtain ⟨v', own', eq⟩ := Option.map_eq_some_iff.mp texts.symm
      have told := Value.eq_of_toText_eq (suits v own) (kinds ▸ suits' v' own')
        (fun x y isFloat isFloat' => doubles x y (isFloat ▸ own) (isFloat' ▸ own')) eq.symm
      rw [own', told]
  rw [unplaced, unplaced, kinds, values]

end Token

/-! ### Trees in writing -/

/-- What is computed of the tokens of a source holds of them. -/
theorem Source.exists_tokens {s : Source} {p : List Token → Bool} (h : s.tokens.toOption.any p) :
    ∃ tokens, s.tokens = .ok tokens ∧ p tokens := by
  cases read : s.tokens with
  | error e =>
    rw [read] at h
    cases h
  | ok tokens =>
    rw [read] at h
    exact ⟨tokens, rfl, h⟩

/-- A token that is no string, or a string of letters and digits. -/
def Token.isPlain (t : Token) : Bool :=
  t.kind != .string || t.textOrEmpty.toList.all Char.isAlphanum

/-- The doubles among tokens. -/
def Token.doubles (tokens : List Token) : List Binary64 :=
  tokens.filterMap fun t =>
    match t.value with
    | some (.float x) => some x
    | _ => none

theorem Token.mem_doubles {tokens : List Token} {t : Token} {x : Binary64} (mem : t ∈ tokens)
    (own : t.value = some (.float x)) : x ∈ doubles tokens :=
  List.mem_filterMap.mpr ⟨t, mem, by rw [own]⟩

namespace Cut

variable {p : Position} {text : List Char} {w : List Token} {t : Token}

/-- The words of a text are words in writing, if its strings hold letters and digits only. -/
theorem solid (h : Cut p text w) (mem : t ∈ w) (plain : t.isPlain) : t.Solid := by
  obtain ⟨rest, word, fits⟩ := h.exists_fits t mem
  apply Token.solid_of_bare
  intro value own
  by_cases isString : t.kind = .string
  · have suits := (own ▸ fits).suits
    rw [isString] at suits
    match value with
    | .text s =>
      have isText : t.textOrEmpty = s := by
        rw [Token.textOrEmpty, Token.text?_eq_some_iff.mpr own, Option.getD_some]
      have letters : s.toList.all Char.isAlphanum := by
        simpa [Token.isPlain, isString, isText] using plain
      exact fun c mem => by simp [Text.isBare, List.all_eq_true.mp letters c mem]
  · exact (own ▸ fits).bare_value isString

theorem suits (h : Cut p text w) (mem : t ∈ w) :
    ∀ value, t.value = some value → value.suits t.kind := by
  obtain ⟨rest, word, fits⟩ := h.exists_fits t mem
  exact fun value own => (own ▸ fits).suits

end Cut

/-- A tree can be told from its text, but for places: two sources whose trees look the same on one
line have trees that agree in all forms, operators, names, literals and parts. Their strings may
hold letters and digits only, since the text of a string stands in the line as it is; and their
doubles must be told apart in writing. -/
theorem Source.unplaced_eq_of_render_eq {s s' : Source} {tokens tokens' : List Token}
    {root root' : Tree} (parsed : s.tree = .ok root) (parsed' : s'.tree = .ok root')
    (read : s.tokens = .ok tokens) (read' : s'.tokens = .ok tokens')
    (plain : ∀ t ∈ tokens ++ tokens', t.isPlain)
    (written : ∀ x ∈ Token.doubles tokens, ∀ y ∈ Token.doubles tokens', x.toText = y.toText → x = y)
    (same : root.render = root'.render) : root.unplaced = root'.unplaced := by
  obtain ⟨w, cut, spells⟩ := Source.tree_eq_ok_iff.mp parsed
  obtain ⟨w', cut', spells'⟩ := Source.tree_eq_ok_iff.mp parsed'
  obtain rfl := Except.ok.inj (read.symm.trans (Token.readFrom_eq_ok_iff.mpr ⟨w, cut, rfl⟩))
  obtain rfl := Except.ok.inj (read'.symm.trans (Token.readFrom_eq_ok_iff.mpr ⟨w', cut', rfl⟩))
  have solid : ∀ t ∈ w, t.Solid := fun t mem => cut.solid mem (plain t (by simp [mem]))
  have solid' : ∀ t ∈ w', t.Solid := fun t mem => cut'.solid mem (plain t (by simp [mem]))
  have outlines : root.outline = root'.outline :=
    Tree.outline_eq_of_render_eq (spells.shaped.mono fun _ shaped => shaped.mono solid)
      (spells'.shaped.mono fun _ shaped => shaped.mono solid') same
  have telling (t u : Token) (mem : t ∈ w) (mem' : u ∈ w') (texts : t.toText = u.toText) :
      t.unplaced = u.unplaced := by
    apply Token.unplaced_eq_of_toText_eq (cut.suits mem) (cut'.suits mem') _ texts
    intro x y own own'
    exact written x (Token.mem_doubles (List.mem_append_left _ mem) own) y
      (Token.mem_doubles (List.mem_append_left _ mem') own')
  have sort : root.isSequence = root'.isSequence := spells.isSequence.trans spells'.isSequence.symm
  exact Tree.unplaced_eq_of_outline_eq telling spells.shaped spells'.shaped sort outlines

theorem Source.unplaced_eq_of_render_eq_layout : ∃ root root',
    Source.tree ⟨"", "let x = 1.5 + \"ab1\"\nf(x, -2)"⟩ = .ok root ∧
      Source.tree ⟨"", "let x = (01.50+\"ab1\") ; f ((x), (-2))"⟩ = .ok root' ∧
      root ≠ root' ∧ root.render = root'.render ∧ root.unplaced = root'.unplaced := by
  let line := "((IDENTIFIER:x EQ (FLOAT:1.5, PLUS, STRING:ab1)) " ++
    "(IDENTIFIER:f LPAREN IDENTIFIER:x COMMA (MINUS, INT:2) RPAREN))"
  let double := Binary64.ofDigits false ['1'] ['5']
  let known (tokens : List Token) := tokens.all Token.isPlain && Token.doubles tokens == [double]
  obtain ⟨root, parsed, looks⟩ := Source.exists_tree
    (s := ⟨"", "let x = 1.5 + \"ab1\"\nf(x, -2)"⟩)
    (p := fun root => root.render == line && root.stop.index == 28) (by decide +kernel)
  obtain ⟨root', parsed', looks'⟩ := Source.exists_tree
    (s := ⟨"", "let x = (01.50+\"ab1\") ; f ((x), (-2))"⟩)
    (p := fun root => root.render == line && root.stop.index == 37) (by decide +kernel)
  obtain ⟨tokens, read, holds⟩ := Source.exists_tokens
    (s := ⟨"", "let x = 1.5 + \"ab1\"\nf(x, -2)"⟩) (p := known) (by decide +kernel)
  obtain ⟨tokens', read', holds'⟩ := Source.exists_tokens
    (s := ⟨"", "let x = (01.50+\"ab1\") ; f ((x), (-2))"⟩) (p := known) (by decide +kernel)
  obtain ⟨same, stop⟩ := Bool.and_eq_true_iff.mp looks
  obtain ⟨same', stop'⟩ := Bool.and_eq_true_iff.mp looks'
  obtain ⟨plain, one⟩ := Bool.and_eq_true_iff.mp holds
  obtain ⟨plain', one'⟩ := Bool.and_eq_true_iff.mp holds'
  have sameLine := (beq_iff_eq.mp same).trans (beq_iff_eq.mp same').symm
  refine ⟨root, root', parsed, parsed', ?_, sameLine, ?_⟩
  · rintro rfl
    have ends := (beq_iff_eq.mp stop).symm.trans (beq_iff_eq.mp stop')
    cases ends
  · apply Source.unplaced_eq_of_render_eq parsed parsed' read read'
    · exact List.forall_mem_append.mpr ⟨List.all_eq_true.mp plain, List.all_eq_true.mp plain'⟩
    · rw [beq_iff_eq.mp one, beq_iff_eq.mp one']
      simp
    · exact sameLine

end Scriptlet
