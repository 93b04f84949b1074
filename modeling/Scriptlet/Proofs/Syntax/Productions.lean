import Scriptlet.Proofs.Syntax.Following
import Scriptlet.Proofs.Syntax.Unplaced

/-!
# The grammar in productions

The same grammar without trees, as a table of productions. It is looser in one place: what stands
first in the header of a `for` loop may be any expression. The table is such that every sort of
part has words, so that whatever stands at the beginning of a production can be completed.

## Main definitions

* `Part`, `Symbol` — the sorts of parts, and what productions are made of
* `productions` — the right-hand sides for a sort of part
* `Derives` — the words of a sequence of symbols

## Main results

* `exists_derives` — every sequence of symbols has a word
* `Derives.begins` — how words begin
* `Derives.kind_ne` — no word contains an end of input
-/

namespace Scriptlet

/-- The sorts of parts of a script: phrases, and what occurs only inside of them. -/
inductive Part
  | phrase (p : Phrase)
  | separators | furtherStatements
  | furtherOperands (level : Level)
  | callSuffix | arguments | furtherArguments
  | parameters | furtherParameters
  | elsePart
  deriving DecidableEq, Repr

/-- What productions are made of: a token of some kind, a reserved word, or a part. -/
inductive Symbol
  | kind (k : Token.Kind)
  | word (k : Keyword)
  | part (p : Part)
  deriving DecidableEq, Repr

/-- A part that is a phrase. -/
abbrev Symbol.phrase (p : Phrase) : Symbol := .part (.phrase p)

/-- The ways to build a part of a script. -/
def productions : Part → List (List Symbol)
  | .phrase .statements => [[.part .separators, .phrase .expression, .part .furtherStatements]]
  | .separators => [[], [.kind .separator, .part .separators]]
  | .furtherStatements =>
    [[.part .separators],
      [.kind .separator, .part .separators, .phrase .expression, .part .furtherStatements]]
  | .phrase .block => [[.kind .leftCurl, .phrase .statements, .kind .rightCurl]]
  | .phrase .expression =>
    [[.word .letWord, .kind .identifier, .kind .assign, .phrase .expression],
      [.phrase (.joined .conditions)]]
  | .phrase .comparison =>
    [[.kind .not, .phrase .comparison], [.phrase (.joined .relations)]]
  | .phrase (.joined level) => [[.phrase level.operand, .part (.furtherOperands level)]]
  | .furtherOperands level =>
    [] :: level.operators.map fun operator =>
      [.kind operator, .phrase level.operand, .part (.furtherOperands level)]
  | .phrase .factor =>
    [[.kind .plus, .phrase .factor], [.kind .minus, .phrase .factor], [.phrase .call]]
  | .phrase .call => [[.phrase .atom, .part .callSuffix]]
  | .callSuffix => [[], [.kind .leftParen, .part .arguments, .kind .rightParen]]
  | .arguments => [[], [.phrase .expression, .part .furtherArguments]]
  | .furtherArguments => [[], [.kind .comma, .phrase .expression, .part .furtherArguments]]
  | .parameters => [[], [.kind .identifier, .part .furtherParameters]]
  | .furtherParameters => [[], [.kind .comma, .kind .identifier, .part .furtherParameters]]
  | .phrase .atom =>
    [[.kind .int], [.kind .float], [.kind .string], [.kind .identifier],
      [.kind .leftParen, .phrase .expression, .kind .rightParen],
      [.word .ifWord, .kind .leftParen, .phrase .expression, .kind .rightParen, .phrase .block,
        .part .elsePart],
      [.word .forWord, .kind .leftParen, .phrase .expression, .kind .comma, .phrase .comparison,
        .kind .comma, .phrase (.joined .sums), .kind .rightParen, .phrase .block],
      [.word .whileWord, .kind .leftParen, .phrase .expression, .kind .rightParen,
        .phrase .block],
      [.word .funcWord, .kind .identifier, .kind .leftParen, .part .parameters,
        .kind .rightParen, .phrase .block]]
  | .elsePart => [[], [.word .elseWord, .phrase .block]]

/-- The words of a sequence of symbols. -/
inductive Derives : List Symbol → List Token → Prop
  | nil : Derives [] []
  | kind {k : Token.Kind} {t : Token} {body : List Symbol} {w : List Token} :
    t.kind = k → Derives body w → Derives (.kind k :: body) (t :: w)
  | word {k : Keyword} {t : Token} {body : List Symbol} {w : List Token} :
    t.isKeyword k → Derives body w → Derives (.word k :: body) (t :: w)
  | part {p : Part} {production body : List Symbol} {w v : List Token} :
    production ∈ productions p → Derives production w → Derives body v →
      Derives (.part p :: body) (w ++ v)

variable {p : Part} {k : Token.Kind} {body a b : List Symbol} {t : Token} {w v : List Token}

/-! ### Words by their symbols -/

@[simp] theorem derives_nil_iff : Derives [] w ↔ w = [] := by
  constructor
  · rintro ⟨⟩
    rfl
  · rintro rfl
    exact .nil

@[simp] theorem derives_kind_iff :
    Derives (.kind k :: body) w ↔ ∃ t v, w = t :: v ∧ t.kind = k ∧ Derives body v := by
  constructor
  · rintro (_ | ⟨kind, rest⟩)
    exact ⟨_, _, rfl, kind, rest⟩
  · rintro ⟨t, v, rfl, kind, rest⟩
    exact .kind kind rest

@[simp] theorem derives_word_iff {k : Keyword} :
    Derives (.word k :: body) w ↔ ∃ t v, w = t :: v ∧ t.isKeyword k ∧ Derives body v := by
  constructor
  · rintro (_ | _ | ⟨isWord, rest⟩)
    exact ⟨_, _, rfl, isWord, rest⟩
  · rintro ⟨t, v, rfl, isWord, rest⟩
    exact .word isWord rest

theorem derives_kind_cons_iff :
    Derives (.kind k :: body) (t :: w) ↔ t.kind = k ∧ Derives body w := by
  simp

theorem derives_word_cons_iff {k : Keyword} :
    Derives (.word k :: body) (t :: w) ↔ t.isKeyword k ∧ Derives body w := by
  simp

theorem Derives.append (h : Derives a w) (h' : Derives b v) : Derives (a ++ b) (w ++ v) := by
  induction h with
  | nil => exact h'
  | kind kind _ ih => exact .kind kind ih
  | word isWord _ ih => exact .word isWord ih
  | part mem inside _ _ ih =>
    rw [List.append_assoc]
    exact .part mem inside ih

/-- Words of symbols in a row are words of the symbols in a row. -/
theorem derives_append_iff :
    Derives (a ++ b) w ↔ ∃ u v, w = u ++ v ∧ Derives a u ∧ Derives b v := by
  constructor
  · intro h
    induction a generalizing w with
    | nil => exact ⟨[], w, rfl, .nil, h⟩
    | cons s a ih =>
      cases h with
      | kind kind rest =>
        obtain ⟨u, v, rfl, left, right⟩ := ih rest
        exact ⟨_, v, rfl, .kind kind left, right⟩
      | word isWord rest =>
        obtain ⟨u, v, rfl, left, right⟩ := ih rest
        exact ⟨_, v, rfl, .word isWord left, right⟩
      | part mem inside rest =>
        obtain ⟨u, v, rfl, left, right⟩ := ih rest
        exact ⟨_, v, (List.append_assoc ..).symm, .part mem inside left, right⟩
  · rintro ⟨u, v, rfl, left, right⟩
    exact left.append right

/-- A part is built by one of its productions, which may be put in its place. -/
theorem derives_part_iff :
    Derives (.part p :: body) w ↔ ∃ production ∈ productions p, Derives (production ++ body) w := by
  constructor
  · rintro (_ | _ | _ | ⟨mem, inside, rest⟩)
    exact ⟨_, mem, inside.append rest⟩
  · rintro ⟨production, mem, whole⟩
    obtain ⟨u, v, rfl, inside, rest⟩ := derives_append_iff.mp whole
    exact .part mem inside rest

/-- A part with one production. -/
theorem derives_only (only : productions p = [a]) :
    Derives (.part p :: body) w ↔ Derives (a ++ body) w := by
  simp [derives_part_iff, only]

/-- A part with two productions. -/
theorem derives_either (two : productions p = [a, b]) :
    Derives (.part p :: body) w ↔ Derives (a ++ body) w ∨ Derives (b ++ body) w := by
  simp [derives_part_iff, two]

theorem derives_separators_iff : Derives [.part .separators] w ↔ Separators w := by
  induction w with
  | nil =>
    rw [derives_either rfl]
    simp [Separators]
  | cons t w ih =>
    rw [derives_either rfl]
    simp only [List.append_nil, derives_nil_iff, derives_kind_iff, List.cons.injEq, reduceCtorEq,
      false_or]
    constructor
    · rintro ⟨_, _, ⟨rfl, rfl⟩, kind, rest⟩
      exact List.forall_mem_cons.mpr ⟨kind, ih.mp rest⟩
    · intro separators
      obtain ⟨kind, rest⟩ := List.forall_mem_cons.mp separators
      exact ⟨t, w, ⟨rfl, rfl⟩, kind, ih.mpr rest⟩

/-- Further statements are separators, or begin with some and a statement. -/
theorem derives_furtherStatements_iff :
    Derives [.part .furtherStatements] w ↔ Separators w ∨ ∃ between u v,
      w = between ++ u ++ v ∧ Separators between ∧ between ≠ [] ∧
        Derives [.phrase .expression] u ∧ Derives [.part .furtherStatements] v := by
  rw [derives_either rfl, List.append_nil, List.append_nil, derives_separators_iff]
  refine or_congr_right ?_
  constructor
  · intro word
    -- the production has one separator in front and any number behind it
    obtain ⟨separator, rest, rfl, kind, word⟩ := derives_kind_iff.mp word
    obtain ⟨between, rest, rfl, separators, word⟩ :=
      derives_append_iff (a := [.part .separators]).mp word
    obtain ⟨u, v, rfl, first, others⟩ := derives_append_iff (a := [.phrase .expression]).mp word
    refine ⟨separator :: between, u, v, by simp, ?_, List.cons_ne_nil _ _, first, others⟩
    exact List.forall_mem_cons.mpr ⟨kind, derives_separators_iff.mp separators⟩
  · rintro ⟨between, u, v, rfl, separators, ne, first, others⟩
    obtain ⟨separator, between, rfl⟩ := List.exists_cons_of_ne_nil ne
    obtain ⟨kind, separators⟩ := List.forall_mem_cons.mp separators
    have rest := (derives_separators_iff.mpr separators).append (first.append others)
    rw [List.append_assoc]
    exact .kind kind rest

/-! ### Every symbol has words -/

/-- How many levels of parts there are at least above the tokens of a word. -/
def Part.depth : Part → Nat
  | .separators | .furtherOperands _ | .callSuffix | .arguments | .furtherArguments
  | .parameters | .furtherParameters | .elsePart | .phrase .atom => 0
  | .furtherStatements | .phrase .call => 1
  | .phrase .factor => 2
  | .phrase (.joined .products) => 3
  | .phrase (.joined .sums) => 4
  | .phrase (.joined .relations) => 5
  | .phrase .comparison => 6
  | .phrase (.joined .conditions) => 7
  | .phrase .expression => 8
  | .phrase .statements => 9
  | .phrase .block => 10

/-- The same for a symbol; a token has no part above it. -/
def Symbol.depth : Symbol → Nat
  | .kind _ | .word _ => 0
  | .part p => p.depth + 1

/-- Some production of a part has fewer levels in each of its symbols. -/
theorem exists_shallow (p : Part) :
    ∃ production ∈ productions p, ∀ s ∈ production, s.depth ≤ p.depth := by
  cases p with
  | phrase p =>
    cases p with
    | joined level => cases level <;> decide
    | _ => decide
  | furtherOperands level => cases level <;> decide
  | _ => decide

theorem exists_derives_of_each (h : ∀ s ∈ body, ∃ w, Derives [s] w) : ∃ w, Derives body w := by
  induction body with
  | nil => exact ⟨[], .nil⟩
  | cons s body ih =>
    obtain ⟨w, first⟩ := h s List.mem_cons_self
    obtain ⟨v, rest⟩ := ih fun s mem => h s (List.mem_cons_of_mem _ mem)
    exact ⟨w ++ v, first.append rest⟩

theorem exists_derives_symbol (s : Symbol) : ∃ w, Derives [s] w := by
  induction depth : s.depth using Nat.strongRecOn generalizing s with
  | ind _ ih =>
    cases s with
    | kind k => exact ⟨[⟨k, none, .nowhere, .nowhere⟩], .kind rfl .nil⟩
    | word k =>
      have isWord : Token.isKeyword ⟨.keyword, some (.text k.spelling), .nowhere, .nowhere⟩ k := by
        simp [Token.isKeyword, Token.keyword?, Token.text?, Keyword.ofSpelling?_spelling]
      exact ⟨_, .word isWord .nil⟩
    | part p =>
      obtain ⟨production, mem, shallow⟩ := exists_shallow p
      obtain ⟨w, word⟩ := exists_derives_of_each fun s inside =>
        ih s.depth (depth ▸ Nat.lt_succ_of_le (shallow s inside)) s rfl
      exact ⟨w, derives_part_iff.mpr ⟨production, mem, by simpa using word⟩⟩

/-- Every sequence of symbols has a word. -/
theorem exists_derives (body : List Symbol) : ∃ w, Derives body w :=
  exists_derives_of_each fun s _ => exists_derives_symbol s

/-! ### How words begin -/

/-- A phrase has a first token, and it is one with which its sort can begin. -/
theorem Derives.begins {p : Phrase} {body : List Symbol} {w : List Token}
    (ne : p ≠ .statements) (h : Derives (.phrase p :: body) w) :
    ∃ t v, w = t :: v ∧ p.Begins t := by
  match p with
  | .statements => exact absurd rfl ne
  | .block =>
    obtain ⟨t, v, rfl, kind, -⟩ := derives_kind_iff.mp ((derives_only rfl).mp h)
    exact ⟨t, v, rfl, kind⟩
  | .expression =>
    rcases (derives_either rfl).mp h with assignment | conditions
    · obtain ⟨t, v, rfl, isWord, -⟩ := derives_word_iff.mp assignment
      exact ⟨t, v, rfl, .inl isWord⟩
    · obtain ⟨t, v, rfl, begins⟩ := Derives.begins (by decide) conditions
      exact ⟨t, v, rfl, .inr begins⟩
  | .comparison =>
    rcases (derives_either rfl).mp h with negation | relations
    · obtain ⟨t, v, rfl, kind, -⟩ := derives_kind_iff.mp negation
      exact ⟨t, v, rfl, .inl kind⟩
    · obtain ⟨t, v, rfl, begins⟩ := Derives.begins (by decide) relations
      exact ⟨t, v, rfl, .inr begins⟩
  | .joined level =>
    -- a chain begins with its first operand, which is of a lower level
    have h : Derives (.phrase level.operand :: .part (.furtherOperands level) :: body) w :=
      (derives_only rfl).mp h
    obtain ⟨t, v, rfl, begins⟩ := Derives.begins (by cases level <;> decide) h
    exact ⟨t, v, rfl, Level.begins_of_operand begins⟩
  | .factor =>
    obtain ⟨production, mem, h⟩ := derives_part_iff.mp h
    simp only [productions, List.mem_cons, List.not_mem_nil, or_false] at mem
    rcases mem with rfl | rfl | rfl
    · obtain ⟨t, v, rfl, kind, -⟩ := derives_kind_iff.mp h
      exact ⟨t, v, rfl, .inl kind⟩
    · obtain ⟨t, v, rfl, kind, -⟩ := derives_kind_iff.mp h
      exact ⟨t, v, rfl, .inr (.inl kind)⟩
    · obtain ⟨t, v, rfl, begins⟩ := Derives.begins (by decide) h
      exact ⟨t, v, rfl, .inr (.inr begins)⟩
  | .call =>
    have h : Derives (.phrase .atom :: .part .callSuffix :: body) w := (derives_only rfl).mp h
    obtain ⟨t, v, rfl, begins⟩ := Derives.begins (by decide) h
    exact ⟨t, v, rfl, begins⟩
  | .atom =>
    obtain ⟨production, mem, h⟩ := derives_part_iff.mp h
    simp only [productions, List.mem_cons, List.not_mem_nil, or_false] at mem
    rcases mem with rfl | rfl | rfl | rfl | rfl | rfl | rfl | rfl | rfl
    -- every production of an atom begins with a token of its own
    all_goals simp only [List.cons_append, derives_kind_iff, derives_word_iff] at h
    all_goals obtain ⟨t, v, rfl, first, -⟩ := h
    all_goals refine ⟨t, v, rfl, ?_⟩
    all_goals simp [Phrase.Begins, Token.BeginsAtom, first]
termination_by (Part.phrase p).depth
decreasing_by
  all_goals first | decide | (cases level <;> decide)

theorem Derives.begins_cons {p : Phrase} (ne : p ≠ .statements)
    (h : Derives (.phrase p :: body) (t :: w)) : p.Begins t := by
  obtain ⟨_, _, eq, begins⟩ := h.begins ne
  cases eq
  exact begins

theorem not_derives_phrase_nil {p : Phrase} (ne : p ≠ .statements) :
    ¬ Derives (.phrase p :: body) [] := fun h => by
  obtain ⟨_, _, eq, -⟩ := h.begins ne
  cases eq

theorem kind_endOfInput_not_mem {production : List Symbol} (mem : production ∈ productions p) :
    .kind .endOfInput ∉ production := by
  revert production
  cases p with
  | phrase p =>
    cases p with
    | joined level => cases level <;> decide
    | _ => decide
  | furtherOperands level => cases level <;> decide
  | _ => decide

/-- No word contains an end of input. -/
theorem Derives.kind_ne (h : Derives body w) (notEnd : .kind .endOfInput ∉ body) :
    ∀ t ∈ w, t.kind ≠ .endOfInput := by
  induction h with
  | nil => exact List.forall_mem_nil _
  | kind kind _ ih =>
    simp only [List.mem_cons, not_or] at notEnd
    refine List.forall_mem_cons.mpr ⟨?_, ih notEnd.2⟩
    rintro isEnd
    exact notEnd.1 (by rw [← kind, isEnd])
  | word isWord _ ih =>
    simp only [List.mem_cons, not_or] at notEnd
    refine List.forall_mem_cons.mpr ⟨?_, ih notEnd.2⟩
    simp [Token.kind_of_isKeyword isWord]
  | part mem _ _ ih ih' =>
    simp only [List.mem_cons, not_or] at notEnd
    exact List.forall_mem_append.mpr ⟨ih (kind_endOfInput_not_mem mem), ih' notEnd.2⟩

end Scriptlet
