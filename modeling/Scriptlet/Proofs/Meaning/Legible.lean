import Scriptlet.Compiling
import Scriptlet.Proofs.Meaning.Machine
import Scriptlet.Proofs.Syntax.Completeness
import Scriptlet.Proofs.Syntax.Extent

/-!
# Names and literals in code

In code the text of an instruction is all that is left of a name or a literal. That the machine
can tell one from the other is owed to the tokens of a source: its words begin with letters,
its integers with digits.

## Main definitions

* `Token.Legible`, `Tree.Legible` — the text for a token, or for a leaf of a tree, shows whether
  it is a name
* `Tree.Bears` — leaves and names are tokens of the right kind

## Main results

* `Token.legible_of_mem_readFrom` — the tokens of a source are legible
* `Source.bears_tree` — the leaves and the names in its tree are tokens of the source
* `Source.legible_tree` — so are the leaves of its tree
-/

namespace Scriptlet

/-- The text for a token shows whether it is a name. -/
structure Token.Legible (t : Token) : Prop where
  name : t.kind = .identifier → ∃ name, t.text? = some name ∧ Instruction.isName name
  number : t.kind = .int → Instruction.isName t.numberText = false

/-- The text for a leaf shows whether it is a name. -/
def Tree.Legible : Tree → Prop
  | .number t => t.kind = .int → Instruction.isName t.numberText = false
  | .reference t => ∃ name, t.text? = some name ∧ Instruction.isName name
  | _ => True

/-! ### The tokens of a source -/

namespace Instruction

/-- No text between quotes is a name. -/
theorem isName_quoted (text : String) : isName ("\"" ++ text ++ "\"") = false := by
  simp [isName, String.toList_append]

theorem isName_ofList (c : Char) (text : List Char) :
    isName (String.ofList (c :: text)) = c.isAlpha := by
  simp [isName]

theorem isName_repr (n : Nat) : isName n.repr = false := by
  have digits : ∀ c ∈ Nat.toDigits 10 n, c.isDigit := fun c mem =>
    Nat.isDigit_of_mem_toDigits (by decide) (by decide) mem
  rw [isName, Nat.toList_repr]
  cases first : Nat.toDigits 10 n with
  | nil => rfl
  | cons c others => exact Text.not_isAlpha_of_isDigit (digits c (by simp [first]))

/-- No integer in writing is a name. -/
theorem isName_toString_int (z : Int) : isName (toString z) = false := by
  rw [Int.toString_eq_repr, Int.repr_eq_if]
  -- the sign of a negative integer is no letter either
  split
  · exact isName_repr _
  · simp [isName, String.toList_append]

end Instruction

namespace Lexeme

/-- The token of a lexeme at a place. -/
abbrev tokenAt (lexeme : Lexeme) (start stop : Position) : Token :=
  ⟨lexeme.kind, lexeme.value, start, stop⟩

theorem legible_ofNumeral {c : Char} (h : c.isDigit ∨ c = '.') (text : List Char)
    (start stop : Position) :
    ((ofNumeral (c :: text) (by simp)).tokenAt start stop).Legible := by
  -- a numeral with a point is of neither kind
  unfold ofNumeral
  split
  · exact ⟨fun kind => (by cases kind), fun kind => (by cases kind)⟩
  · next noPoint =>
    refine ⟨fun kind => (by cases kind), fun _ => ?_⟩
    have digit : c.isDigit := by
      rcases h with digit | rfl
      · exact digit
      · exact absurd rfl (noPoint text)
    simp only [Token.numberText, integerValue]
    split
    · exact Instruction.isName_toString_int _
    · rw [Option.map_some, Option.getD_some, Token.Value.toText, Instruction.isName_ofList]
      exact Text.not_isAlpha_of_isDigit digit

theorem legible_of_first {c : Char} {text : List Char} {lexeme : Lexeme}
    (h : first c text = .ok lexeme) (start stop : Position) :
    (lexeme.tokenAt start stop).Legible := by
  -- one case for each way of reading a lexeme, in their order
  unfold first at h
  split at h
  · next digit =>
    cases h
    exact legible_ofNumeral (.inl digit) _ start stop
  split at h
  · next point =>
    cases h
    exact legible_ofNumeral (.inr point.1) _ start stop
  split at h
  · next letter =>
    cases h
    refine ⟨fun _ => ⟨_, rfl, ?_⟩, fun kind => ?_⟩
    · rw [Instruction.isName_ofList, letter]
    · simp only [ofWord] at kind
      split at kind <;> cases kind
  split at h
  · cases h
    exact ⟨fun kind => (by cases kind), fun kind => (by cases kind)⟩
  split at h
  · next found =>
    cases h
    -- signs have kinds of their own
    have kinds : ∀ s ∈ signs, s.kind ≠ .identifier ∧ s.kind ≠ .int := by decide
    obtain ⟨notName, notNumber⟩ := kinds lexeme (List.mem_of_find?_eq_some found)
    exact ⟨fun kind => absurd kind notName, fun kind => absurd kind notNumber⟩
  · cases h

end Lexeme

theorem Token.legible_of_mem_readFrom {p : Position} {text : List Char} {tokens : List Token}
    (h : Token.readFrom p text = .ok tokens) : ∀ t ∈ tokens, t.Legible := by
  fun_induction Token.readFrom p text generalizing tokens with
  -- only the token for the end of input is left
  | case1 p =>
    cases h
    exact List.forall_mem_singleton.mpr ⟨fun kind => (by cases kind), fun kind => (by cases kind)⟩
  -- blanks make no tokens
  | case2 p c rest blank ih => exact ih h
  | case3 p c rest blank fault failed => cases h
  | case4 p c rest blank lexeme ok _ stop =>
    rename_i ih
    cases others : Token.readFrom stop ((c :: rest).drop lexeme.spelling.length) with
    | error e => simp [others, Except.map] at h
    | ok more =>
      rw [others] at h
      cases h
      exact List.forall_mem_cons.mpr ⟨Lexeme.legible_of_first ok p stop, ih others⟩

/-! ### The tree of a source -/

/-- The token that a leaf is, or that names a node, is of the kind that it should be, and has a
property. -/
def Tree.Bears (P : Token → Prop) : Tree → Prop
  | .number t => P t
  | .reference t | .assignment _ t _ | .function t _ _ _ _ => t.kind = .identifier ∧ P t
  | _ => True

variable {P : Token → Prop}

/-- Leaves and names are among the tokens that a node keeps. -/
theorem Tree.Keeps.bears {tree : Tree} (h : tree.Keeps P) : tree.Bears P := by
  cases tree with
  | number t => exact h.2
  | reference t => exact h
  | assignment start t value => exact h
  | function t parameters body start stop => exact h.1
  | _ => trivial

/-- Leaves and names are tokens of the phrase, each of the kind that it should be. -/
theorem Spells.bears {p : Phrase} {w : List Token} {tree : Tree} (h : Spells p w tree)
    (tokens : ∀ t ∈ w, P t) : tree.Throughout (Tree.Bears P) :=
  h.covers.mono fun _ ⟨_, inside, covers⟩ =>
    (covers.keeps.mono fun t mem => tokens t (inside.subset mem)).bears

/-- The leaves and the names in the tree of a source are tokens of it. -/
theorem Source.bears_tree {source : Source} {root : Tree} (h : source.tree = .ok root) :
    ∃ tokens, source.tokens = .ok tokens ∧ root.Throughout (Tree.Bears (· ∈ tokens)) := by
  cases tokens : source.tokens with
  | error e =>
    rw [Source.tree, tokens] at h
    cases h
  | ok ts =>
    rw [Source.tree, tokens] at h
    change (Tree.ofTokens ts).mapError Error.parse = .ok root at h
    rw [Tree.ofTokens] at h
    cases parsed : Grammar.script (Cursor.ofTokens ts) with
    | error f =>
      rw [parsed] at h
      cases h
    | ok tree =>
      rw [parsed] at h
      cases h
      -- by soundness the tree is spelled by tokens of the source
      exact ⟨ts, rfl, (Grammar.script_eq_ok_iff.mp parsed).bears fun t mem =>
        (List.takeWhile_sublist _).subset mem⟩

/-- The leaves of the tree of a source show which of them are names. -/
theorem Source.legible_tree {source : Source} {root : Tree} (h : source.tree = .ok root) :
    root.Throughout Tree.Legible := by
  obtain ⟨tokens, read, bears⟩ := source.bears_tree h
  refine bears.mono fun tree bears => ?_
  cases tree with
  | number t => exact (Token.legible_of_mem_readFrom read t bears).number
  | reference t => exact (Token.legible_of_mem_readFrom read t bears.2).name bears.1
  | _ => trivial

end Scriptlet
