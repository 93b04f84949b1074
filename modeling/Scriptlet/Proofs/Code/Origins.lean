import Scriptlet.Proofs.Binary64.Shortest
import Scriptlet.Proofs.Code.Naming
import Scriptlet.Proofs.Source.Piecewise

/-!
# Where the texts in code come from

Instructions hold texts: what is loaded, and names and operators. Code makes none of them up but for
those of temporaries, and so what they can be is settled by the tokens of a source. Names and
numbers are bare: none of the marks with which instructions are written occurs in them. Only the
text of a string can be anything.

## Main definitions

* `Text.isBare`, `Text.marks` — the characters of names and numbers, and marks in instructions
* `Instruction.FromTokens` — the texts of an instruction are those of tokens

## Main results

* `Cut.bare` — names and numbers in a source are bare
* `Source.fromTokens_code` — the texts in the code of a source are those of its tokens
-/

namespace Scriptlet

/-! ### Names and numbers in writing -/

namespace Text

/-- A character of names and numbers: a letter, a digit, an underscore, a point or a minus. -/
def isBare (c : Char) : Bool := c.isAlphanum || c ∈ ['_', '.', '-']

theorem isBare_of_isDigit {c : Char} (h : c.isDigit) : isBare c := by
  simp [isBare, Char.isAlphanum, h]

theorem isBare_of_isWordCharacter {c : Char} (h : Lexeme.isWordCharacter c) : isBare c := by
  rcases Bool.or_eq_true_iff.mp h with letter | underscore
  · simp [isBare, letter]
  · simp [isBare, beq_iff_eq.mp underscore]

/-- All characters of a text are those of names and numbers. -/
def Bare (text : List Char) : Prop := ∀ c ∈ text, isBare c

theorem bare_cons_iff {c : Char} {text : List Char} : Bare (c :: text) ↔ isBare c ∧ Bare text :=
  List.forall_mem_cons

theorem bare_append_iff {text rest : List Char} : Bare (text ++ rest) ↔ Bare text ∧ Bare rest :=
  List.forall_mem_append

/-- The marks with which instructions keep their words apart. -/
def marks : List Char := [' ', '\n', '!', '"', '=', ':', ',']

/-- None of the marks is bare. -/
theorem Bare.not_mem {text : List Char} (h : Bare text) {c : Char} (mark : c ∈ marks) :
    c ∉ text := by
  have none : marks.all fun c => !isBare c := by decide
  intro mem
  have notBare := List.all_eq_true.mp none c mark
  rw [h c mem] at notBare
  cases notBare

/-- Numbers are written with digits only. -/
theorem bare_repr (n : Nat) : Bare n.repr.toList := by
  rw [Nat.toList_repr]
  exact fun c mem => isBare_of_isDigit (Nat.isDigit_of_mem_toDigits (by decide) (by decide) mem)

/-- An integer is written with digits and perhaps a minus. -/
theorem bare_toString_int (z : Int) : Bare (toString z).toList := by
  rw [Int.toString_eq_repr, Int.repr_eq_if]
  split
  · exact bare_repr _
  · rw [String.toList_append]
    exact bare_append_iff.mpr ⟨List.forall_mem_singleton.mpr (by decide), bare_repr _⟩

end Text

open Text

namespace Decimal

variable {d : Decimal}

theorem bare_toText (digits : Bare d.digits) : Bare d.toText := by
  have zero : isBare '0' := by decide
  unfold toText
  split
  · rw [positional_eq]
    exact bare_append_iff.mpr ⟨forall_mem_whole zero digits,
      bare_cons_iff.mpr ⟨by decide, forall_mem_fraction zero digits⟩⟩
  · have fraction : Bare (if d.digits.length ≤ 1 then [] else '.' :: d.digits.drop 1) := by
      split
      · exact List.forall_mem_nil _
      · exact bare_cons_iff.mpr ⟨by decide, fun c mem => digits c (List.mem_of_mem_drop mem)⟩
    have first : Bare (d.digits.take 1) := fun c mem => digits c (List.mem_of_mem_take mem)
    exact bare_append_iff.mpr ⟨bare_append_iff.mpr ⟨first, fraction⟩,
      bare_cons_iff.mpr ⟨by decide, bare_toString_int _⟩⟩

end Decimal

namespace Binary64

theorem bare_toText (x : Binary64) : Bare x.toText.toList := by
  cases x with
  | finite negative rank =>
    have magnitude : Bare (if rank.val = 0 then ['0', '.', '0'] else (shortest rank).toText) := by
      split
      · exact List.all_eq_true.mp (by decide : ['0', '.', '0'].all isBare)
      · exact Decimal.bare_toText fun c mem => isBare_of_isDigit (isDigit_of_mem_shortest mem)
    rw [toText, String.toList_ofList]
    split
    · exact bare_cons_iff.mpr ⟨by decide, magnitude⟩
    · exact magnitude
  | infinite negative =>
    cases negative
    · exact List.all_eq_true.mp (by decide : "inf".toList.all isBare)
    · exact List.all_eq_true.mp (by decide : "-inf".toList.all isBare)
  | nan => exact List.all_eq_true.mp (by decide : "NaN".toList.all isBare)

end Binary64

/-! ### Tokens -/

/-- The name or the number that a token is is bare. -/
structure Token.Bare (t : Token) : Prop where
  number : t.kind = .int ∨ t.kind = .float → Text.Bare t.numberText.toList
  name : t.kind = .identifier → Text.Bare t.textOrEmpty.toList

/-- Whatever number a numeral is kept as, that number is written without marks. -/
theorem Numeral.bare {word : List Char} {kind : Token.Kind} {value : Token.Value}
    (h : Numeral word kind value) : Bare value.toText.toList := by
  cases h with
  | integer => exact bare_toString_int _
  | wideInteger _ digits =>
    rw [Token.Value.toText, String.toList_ofList]
    exact fun c mem => isBare_of_isDigit (digits c mem)
  | float => exact Binary64.bare_toText _

/-- A word that is kept as a name or a number is bare, wherever it stands. -/
theorem Lexeme.Fits.bare {text word : List Char} {kind : Token.Kind} {value : Option Token.Value}
    (h : Fits text word kind value) (start stop : Position) :
    (Token.mk kind value start stop).Bare := by
  cases h with
  | numeral _ numeral =>
    refine ⟨fun _ => numeral.bare, fun isName => ?_⟩
    cases numeral <;> cases isName
  | name _ name =>
    cases name with
    | reserved => exact ⟨by simp, by simp⟩
    | identifier letter others =>
      refine ⟨by simp, fun _ => ?_⟩
      rw [Token.textOrEmpty, Token.text?, Option.getD_some, String.toList_ofList]
      exact bare_cons_iff.mpr ⟨by simp [isBare, Char.isAlphanum, letter],
        fun c mem => isBare_of_isWordCharacter (others c mem)⟩
  | sign _ sign =>
    -- signs have kinds of their own
    have kinds : kind ∉ [.int, .float, .identifier] := by
      cases sign with
      | fixed spelling _ => cases kind <;> simp_all [Token.Kind.symbol?]
      | semicolon | lineFeed => decide
    simp only [List.mem_cons, List.not_mem_nil, or_false, not_or] at kinds
    exact ⟨fun isNumber => absurd isNumber (by simp [kinds]), fun isName => absurd isName kinds.2.2⟩
  | closedString | openString | openGuard => exact ⟨by simp, by simp⟩

/-- Names and numbers in a text are bare. -/
theorem Cut.bare {p : Position} {text : List Char} {w : List Token} (h : Cut p text w) :
    ∀ t ∈ w, t.Bare := by
  induction h with
  | nil => exact List.forall_mem_nil _
  | blank _ _ ih => exact ih
  | word longest _ ih => exact List.forall_mem_cons.mpr ⟨longest.fits.bare _ _, ih⟩

/-! ### Code -/

section Code

variable {P Q : Token → Prop}

namespace Instruction

/-- The texts of an instruction are those of tokens with some property, each where it may stand;
only a callee may be the text of a temporary instead. -/
def FromTokens (P : Token → Prop) : Instruction → Prop
  | load _ value => ∃ t, P t ∧ ((t.kind = .int ∨ t.kind = .float) ∧ value = t.numberText ∨
      t.kind = .string ∧ value = "\"" ++ t.textOrEmpty ++ "\"" ∨
      t.kind = .identifier ∧ value = t.textOrEmpty)
  | store name _ | function name => Token.Names P name
  | binary _ _ operator _ => ∃ level : Level, ∃ kind ∈ level.operators, operator = kind.operatorText
  | call callee _ => Token.Names P callee ∨ ∃ t : Temp, callee = t.toText
  | not _ _ | negate _ _ | jumpUnless _ _ | jump _ | label _ | .return => True

/-- All texts in code are those of tokens. -/
def AllFrom (P : Token → Prop) (code : List Instruction) : Prop := ∀ i ∈ code, i.FromTokens P

namespace AllFrom

variable {code code' : List Instruction} {i : Instruction} {name : String}
  {condition update : Fragment} {body : Nat → Fragment}

theorem nil : AllFrom P [] := List.forall_mem_nil _

theorem cons (first : i.FromTokens P) (rest : AllFrom P code) : AllFrom P (i :: code) :=
  List.forall_mem_cons.mpr ⟨first, rest⟩

theorem singleton (only : i.FromTokens P) : AllFrom P [i] := cons only nil

theorem append (first : AllFrom P code) (second : AllFrom P code') : AllFrom P (code ++ code') :=
  List.forall_mem_append.mpr ⟨first, second⟩

/-- A jump over a body and its label bring no texts of tokens in. -/
theorem runIf (first : AllFrom P condition.code)
    (second : AllFrom P (body (condition.next + 1)).code) :
    AllFrom P (Fragment.runIf condition body).code :=
  .append (.append first (.cons trivial second)) (.singleton trivial)

/-- A loop brings in the name of its variable, and only once more. -/
theorem loop (named : Token.Names P name) (first : AllFrom P condition.code)
    (second : AllFrom P (body (update.next + 2)).code) (third : AllFrom P update.code) :
    AllFrom P (Fragment.loop name condition update body).code :=
  .append (.append (.append (.cons trivial first) (.cons trivial second)) third)
    (.cons named (.cons trivial (.singleton trivial)))

end AllFrom

end Instruction

open Scriptlet.Tree in
mutual

/-- The texts in the code of a tree are those of the tokens that the tree keeps. -/
theorem Tree.fromTokens_lower (tree : Tree) (keeps : tree.Throughout (Keeps P)) (k : Nat) :
    Instruction.AllFrom P (tree.lower k).code := by
  have part {child : Tree} (mem : child ∈ tree.children) : child.Throughout (Keeps P) :=
    keeps.child mem
  match tree with
  | .number t => exact .singleton ⟨t, keeps.self.2, .inl ⟨keeps.self.1, rfl⟩⟩
  | .string t => exact .singleton ⟨t, keeps.self.2, .inr (.inl ⟨keeps.self.1, rfl⟩)⟩
  | .reference t => exact .singleton ⟨t, keeps.self.2, .inr (.inr ⟨keeps.self.1, rfl⟩)⟩
  | .assignment _ name value =>
    have inside := value.fromTokens_lower (part (by simp [children, parts])) k
    exact inside.append (.singleton ⟨name, keeps.self.1, keeps.self.2, rfl⟩)
  | .binary left operator right =>
    have first := left.fromTokens_lower (part (by simp [children, parts])) k
    have second := right.fromTokens_lower (part (by simp [children, parts])) (left.lower k).next
    obtain ⟨level, isOperator⟩ := keeps.self.1
    exact (first.append second).append (.singleton ⟨level, _, isOperator, rfl⟩)
  | .unary operator operand =>
    have inside := operand.fromTokens_lower (part (by simp [children, parts])) k
    rw [Tree.lower]
    split
    · exact inside
    · exact inside.append (.singleton trivial)
    · exact inside.append (.singleton trivial)
  | .conditional (.guarded condition body _) _ _ =>
    exact .runIf (condition.fromTokens_lower (part (by simp [children, parts, Arms.parts])) k)
      (body.fromTokens_lower (part (by simp [children, parts, Arms.parts])) _)
  | .conditional .none _ _ | .conditional (.otherwise _) _ _ => exact .nil
  | .whileLoop condition body _ _ =>
    exact .runIf (condition.fromTokens_lower (part (by simp [children, parts])) k)
      (body.fromTokens_lower (part (by simp [children, parts])) _)
  | .forLoop letStart name initial condition update body _ _ =>
    -- the header keeps the variable in an assignment
    have assigned : (assignment letStart name initial).Throughout (Keeps P) :=
      part (by simp [children, parts])
    have named : Token.Names P name.textOrEmpty := ⟨name, keeps.self.1, keeps.self.2, rfl⟩
    have first := initial.fromTokens_lower (assigned.child (by simp [children, parts])) k
    exact first.append (.cons named (.loop named
      (condition.fromTokens_lower (part (by simp [children, parts])) _)
      (body.fromTokens_lower (part (by simp [children, parts])) _)
      (update.fromTokens_lower (part (by simp [children, parts])) _)))
  | .function name _ body _ _ =>
    have named : Token.Names P name.textOrEmpty := ⟨name, keeps.self.1.1, keeps.self.1.2, rfl⟩
    have inside := body.fromTokens_lower (part (by simp [children, parts])) k
    exact .append (.cons named inside) (.singleton trivial)
  | .call callee arguments _ =>
    have called : callee.Throughout (Keeps P) := part (by simp)
    have each : ∀ tree ∈ arguments, tree.Throughout (Keeps P) := fun tree mem =>
      part (by simp [mem])
    cases named : callee.name? with
    | some name =>
      -- a callee with a name is a text of the tree, and another one a temporary
      simp only [Tree.lower, named]
      exact (Tree.fromTokens_lowerEach arguments each k).append
        (.singleton (.inl (called.self.bears.names named)))
    | none =>
      simp only [Tree.lower, named]
      exact ((callee.fromTokens_lower called k).append
        (Tree.fromTokens_lowerEach arguments each _)).append (.singleton (.inr ⟨_, rfl⟩))
  | .sequence statements _ _ =>
    exact Tree.fromTokens_lowerEach statements (fun tree mem => part (by simp [mem])) k

theorem Tree.fromTokens_lowerEach (trees : List Tree)
    (keeps : ∀ tree ∈ trees, tree.Throughout (Keeps P)) (k : Nat) :
    Instruction.AllFrom P (Tree.lowerEach trees k).2.code := by
  match trees with
  | [] => exact .nil
  | tree :: others =>
    obtain ⟨first, rest⟩ := List.forall_mem_cons.mp keeps
    exact (tree.fromTokens_lower first k).append (Tree.fromTokens_lowerEach others rest _)

end

end Code

/-- The texts in the code of a source are those of its tokens, and names and numbers among them are
bare. -/
theorem Source.fromTokens_code {s : Source} {root : Tree} (parsed : s.tree = .ok root) :
    ∃ tokens, s.tokens = .ok tokens ∧
      Instruction.AllFrom (fun t => t ∈ tokens ∧ t.Bare) root.code := by
  obtain ⟨w, cut, spells⟩ := Source.tree_eq_ok_iff.mp parsed
  refine ⟨_, Token.readFrom_eq_ok_iff.mpr ⟨w, cut, rfl⟩, ?_⟩
  rw [root.code_eq]
  refine root.fromTokens_lower (spells.covers.mono fun node ⟨part, inside, covers⟩ =>
    covers.keeps.mono fun t mem => ?_) 0
  have own : t ∈ w := inside.subset mem
  exact ⟨List.mem_append_left _ own, cut.bare t own⟩

end Scriptlet
