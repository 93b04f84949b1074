import Mathlib.Data.List.SplitBy
import Scriptlet.Proofs.Syntax.Shape
import Scriptlet.Tree.Rendering

/-!
# Outlines of trees

A tree on one line is a run of words and round brackets, and the brackets match. What the line
says is therefore an outline: words, and groups of outlines between brackets. It can be read off
the line, as long as no text of a token holds a blank, a comma or a bracket.

## Main definitions

* `Outline`, `Outline.Piece` — words in groups, and the words and brackets in writing
* `Outline.Piece.split` — the pieces in a text
* `Tree.outline` — what a tree on one line says
* `Token.Solid` — a token that is one word in writing

## Main results

* `Outline.eq_of_pieces_eq` — an outline can be told from its pieces
* `Tree.split_render` — the pieces in a tree on one line are those of its outline
* `Tree.outline_eq_of_render_eq` — trees that look the same on one line have the same outline
-/

namespace Scriptlet

/-- Words, and groups of outlines. -/
inductive Outline
  | word (text : String)
  | group (items : List Outline)

namespace Outline

/-- A word, or one of the round brackets. -/
inductive Piece
  | opening
  | closing
  | word (text : String)
  deriving DecidableEq, Repr

mutual

/-- An outline with brackets around each group. -/
def pieces : Outline → List Piece
  | word text => [.word text]
  | group items => .opening :: (piecesEach items ++ [.closing])

/-- Outlines in turn. -/
def piecesEach : List Outline → List Piece
  | [] => []
  | first :: others => first.pieces ++ piecesEach others

end

theorem piecesEach_append (items others : List Outline) :
    piecesEach (items ++ others) = piecesEach items ++ piecesEach others := by
  induction items with
  | nil => rfl
  | cons first items ih => rw [List.cons_append, piecesEach, piecesEach, ih, List.append_assoc]

/-! ### Brackets match -/

/-- Pieces read with a stack of groups that are open, the inmost first, each with the outlines that
it has so far. -/
def Piece.read : List (List Outline) → Piece → List (List Outline)
  | stack, opening => [] :: stack
  | items :: stack, word text => (items ++ [.word text]) :: stack
  | items :: outer :: stack, closing => (outer ++ [.group items]) :: stack
  | stack, _ => stack

mutual

/-- The pieces of an outline add it to the inmost group that is open. -/
theorem read_pieces (outline : Outline) (items : List Outline) (stack : List (List Outline)) :
    outline.pieces.foldl Piece.read (items :: stack) = (items ++ [outline]) :: stack := by
  match outline with
  | word text => rfl
  | group inner =>
    rw [pieces, List.foldl_cons, List.foldl_append, Piece.read, read_piecesEach]
    rfl

/-- Reading the pieces of several outlines puts all of them behind what has been read. -/
theorem read_piecesEach (outlines items : List Outline) (stack : List (List Outline)) :
    (piecesEach outlines).foldl Piece.read (items :: stack) = (items ++ outlines) :: stack := by
  match outlines with
  | [] => rw [piecesEach, List.foldl_nil, List.append_nil]
  | first :: others =>
    rw [piecesEach, List.foldl_append, read_pieces, read_piecesEach, List.append_assoc,
      List.singleton_append]

end

/-- An outline can be told from its pieces. -/
theorem eq_of_pieces_eq {outline other : Outline} (h : outline.pieces = other.pieces) :
    outline = other := by
  have read : outline.pieces.foldl Piece.read [[]] = other.pieces.foldl Piece.read [[]] := by
    rw [h]
  rw [read_pieces, read_pieces] at read
  simpa using read

/-! ### Pieces in a text -/

namespace Piece

/-- A character that is part of a word: neither a blank nor a comma nor a bracket. -/
def isWordCharacter (c : Char) : Bool := c ∉ [' ', ',', '(', ')', '[', ']']

/-- The piece with this spelling. A blank is none. -/
def ofChars? (text : List Char) : Option Piece :=
  if text = [' '] then none
  else if text = ['('] then some opening
  else if text = [')'] then some closing
  else some (word (String.ofList text))

/-- The pieces in a text: the longest runs of characters of words, and all else by itself. -/
def split (text : String) : List Piece :=
  (text.toList.splitBy fun c d => isWordCharacter c && isWordCharacter d).filterMap ofChars?

/-- A text that carries on no word standing before it. -/
def Apart (text : String) : Prop := ∀ c ∈ text.toList.head?, isWordCharacter c = false

/-- A text with no word at its end that could be carried on. -/
def Closed (text : String) : Prop := ∀ c ∈ text.toList.getLast?, isWordCharacter c = false

/-- A text that keeps what stands before it from what stands behind it. -/
structure Gap (text : String) : Prop where
  ne_empty : text ≠ ""
  apart : Apart text
  closed : Closed text

instance (text : String) : Decidable (Apart text) :=
  decidable_of_iff (text.toList.head?.all fun c => !isWordCharacter c)
    (by simp [Apart, Option.all_eq_true])

instance (text : String) : Decidable (Closed text) :=
  decidable_of_iff (text.toList.getLast?.all fun c => !isWordCharacter c)
    (by simp [Closed, Option.all_eq_true])

instance (text : String) : Decidable (Gap text) :=
  decidable_of_iff (text ≠ "" ∧ Apart text ∧ Closed text)
    ⟨fun h => ⟨h.1, h.2.1, h.2.2⟩, fun h => ⟨h.ne_empty, h.apart, h.closed⟩⟩

variable {text gap a b : String}

theorem Apart.append (h : Apart a) (ne : a ≠ "") : Apart (a ++ b) := by
  have ne' : a.toList ≠ [] := by simpa using ne
  intro c head
  rw [String.toList_append, List.head?_append_of_ne_nil _ ne'] at head
  exact h c head

theorem Closed.append (h : Closed b) (ne : b ≠ "") : Closed (a ++ b) := by
  have ne' : b.toList ≠ [] := by simpa using ne
  intro c last
  rw [String.toList_append, List.getLast?_append_of_ne_nil _ ne'] at last
  exact h c last

theorem split_append (h : ∀ c ∈ a.toList.getLast?, ∀ d ∈ b.toList.head?,
    (isWordCharacter c && isWordCharacter d) = false) : split (a ++ b) = split a ++ split b := by
  rw [split, String.toList_append, List.splitBy_append h, List.filterMap_append]
  rfl

/-- Text is split in two where the second part begins with no character of a word. -/
theorem split_append_of_apart (h : Apart b) : split (a ++ b) = split a ++ split b :=
  split_append fun c _ d head => by rw [h d head, Bool.and_false]

/-- Text is split in two where the first part ends with no character of a word. -/
theorem split_append_of_closed (h : Closed a) : split (a ++ b) = split a ++ split b :=
  split_append fun c last d _ => by rw [h c last, Bool.false_and]

/-- Texts with a gap between them. -/
theorem split_append_gap (h : Gap gap) :
    split (a ++ gap ++ b) = split a ++ split gap ++ split b := by
  obtain ⟨ne, apart, closed⟩ := h
  rw [split_append_of_closed (closed.append ne), split_append_of_apart apart]

/-- A text of characters of words is one word. -/
theorem split_word (ne : text ≠ "") (all : ∀ c ∈ text.toList, isWordCharacter c) :
    split text = [word text] := by
  have ne' : text.toList ≠ [] := by simpa using ne
  have run : text.toList.IsChain fun c d => isWordCharacter c && isWordCharacter d :=
    (List.pairwise_of_forall_mem_list fun c mem d mem' => by simp [all c mem, all d mem']).isChain
  -- a blank or a bracket would be among its characters
  have other (c : Char) (apart : isWordCharacter c = false) : text.toList ≠ [c] := by
    intro eq
    have inside := all c (by rw [eq]; exact List.mem_singleton_self c)
    rw [apart] at inside
    cases inside
  rw [split, List.splitBy_of_isChain ne' run]
  simp [ofChars?, other ' ' (by decide), other '(' (by decide), other ')' (by decide)]

end Piece

/-! ### Outlines of trees -/

/-- What a body between curly brackets says. -/
def body (inner : Outline) : List Outline := [.word "LCURL", inner, .word "RCURL"]

/-- What statements say in turn: they nest to the right. -/
def nest : List Outline → Outline
  | [] => .group []
  | [only] => only
  | first :: others => .group [first, nest others]

/-- What names or arguments say in turn, with a word between two. -/
def separated (separator : String) (outlines : List Outline) : List Outline :=
  outlines.intersperse (.word separator)

end Outline

/-- The text of a token in writing. -/
def Token.outline (t : Token) : Outline := .word t.toText

open Outline in
mutual

/-- What a tree on one line says. -/
def Tree.outline : Tree → Outline
  | .number t | .string t | .reference t => t.outline
  | .assignment _ name value => .group [name.outline, .word "EQ", value.outline]
  | .binary left operator right =>
    .group [left.outline, .word ",", operator.outline, .word ",", right.outline]
  | .unary operator operand => .group [operator.outline, .word ",", operand.outline]
  | .conditional arms _ _ => .group (.word "KEYWORD:if" :: arms.outlines)
  | .forLoop _ name initial condition update inner _ _ =>
    .group ([.word "KEYWORD:for", .word "LPAREN",
      .group [name.outline, .word "EQ", initial.outline], .word "COMMA", condition.outline,
      .word "COMMA", update.outline, .word "RPAREN"] ++ body inner.outline)
  | .whileLoop condition inner _ _ =>
    .group ([.word "KEYWORD:while", .word "LPAREN", condition.outline, .word "RPAREN"] ++
      body inner.outline)
  | .function name parameters inner _ _ =>
    .group ([.word "KEYWORD:func", name.outline, .word "LPAREN", .word "["] ++
      separated "," (parameters.map Token.outline) ++ [.word "]", .word "RPAREN"] ++
        body inner.outline)
  | .call callee arguments _ =>
    .group ([callee.outline, .word "LPAREN"] ++ separated "COMMA" (Tree.outlineEach arguments) ++
      [.word "RPAREN"])
  | .sequence statements _ _ => nest (Tree.outlineEach statements)

/-- What the arms of a conditional say. -/
def Arms.outlines : Arms → List Outline
  | .none => []
  | .otherwise inner => .word "KEYWORD:else" :: body inner.outline
  | .guarded condition inner others =>
    [.word "LPAREN", condition.outline, .word "RPAREN"] ++ body inner.outline ++ others.outlines

/-- What trees say in turn. -/
def Tree.outlineEach : List Tree → List Outline
  | [] => []
  | tree :: others => tree.outline :: Tree.outlineEach others

end

theorem Tree.outlineEach_eq_map (trees : List Tree) :
    Tree.outlineEach trees = trees.map Tree.outline := by
  induction trees with
  | nil => rfl
  | cons tree others ih => rw [Tree.outlineEach, List.map_cons, ih]

/-- A token that is one word in writing. -/
def Token.Solid (t : Token) : Prop := ∀ c ∈ t.toText.toList, Outline.Piece.isWordCharacter c

open Outline Outline.Piece

theorem Token.toText_ne_empty (t : Token) : t.toText ≠ "" := by
  have label : t.kind.label ≠ "" := by cases t.kind <;> decide
  unfold toText
  split
  · simp [label]
  · exact label

/-- A solid token is split off as one word. -/
theorem Token.Solid.split_toText {t : Token} (h : t.Solid) : split t.toText = t.outline.pieces :=
  split_word t.toText_ne_empty h

namespace Tree

variable {tree : Tree} {trees : List Tree} {arms : Arms}

/-- A body between its curly brackets. -/
theorem split_renderBody (h : split tree.render = tree.outline.pieces) :
    split (renderBody tree.render) = piecesEach (body tree.outline) := by
  simp (disch := decide) only [renderBody, split_append_of_apart, split_append_of_closed, h]
  rfl

theorem split_renderParameters {parameters : List Token} (h : ∀ t ∈ parameters, t.Solid) :
    split (String.intercalate ", " (parameters.map Token.toText)) =
      piecesEach (separated "," (parameters.map Token.outline)) := by
  induction parameters with
  | nil => rfl
  | cons first others ih =>
    obtain ⟨solid, rest⟩ := List.forall_mem_cons.mp h
    cases others with
    | nil => simpa [separated, piecesEach] using solid.split_toText
    | cons second others =>
      have further := ih rest
      simp only [List.map_cons, separated, List.intersperse_cons_cons, piecesEach,
        String.intercalate_cons_cons] at further ⊢
      rw [split_append_gap (by decide), solid.split_toText, further, List.append_assoc]
      rfl

/-- Arguments are printed with a blank in front, or not at all. -/
theorem apart_renderArguments (trees : List Tree) : Apart (renderArguments trees) := by
  have blank : Apart " " := by decide
  match trees with
  | [] => decide
  | [only] => exact blank.append (by decide)
  | first :: second :: others =>
    rw [renderArguments_cons, String.append_assoc, String.append_assoc]
    exact blank.append (by decide)

/-- Arguments are split at the words between them. -/
theorem split_renderArguments (h : ∀ tree ∈ trees, split tree.render = tree.outline.pieces) :
    split (renderArguments trees) = piecesEach (separated "COMMA" (outlineEach trees)) := by
  induction trees with
  | nil => rfl
  | cons first others ih =>
    obtain ⟨own, rest⟩ := List.forall_mem_cons.mp h
    cases others with
    | nil =>
      rw [renderArguments_singleton, split_append_of_closed (by decide), own]
      simp only [outlineEach, separated, List.intersperse_singleton, piecesEach, List.append_nil]
      rfl
    | cons second others =>
      have further := ih rest
      simp only [outlineEach, separated, List.intersperse_cons_cons, piecesEach] at further ⊢
      rw [renderArguments_cons, split_append_of_apart (apart_renderArguments _),
        split_append_of_apart (by decide), split_append_of_closed (by decide), own, further,
        List.append_assoc, List.append_assoc]
      rfl

/-- Statements are nested in print as they are in their outline. -/
theorem split_renderStatements (h : ∀ tree ∈ trees, split tree.render = tree.outline.pieces)
    (ne : trees ≠ []) : split (renderStatements trees) = (nest (outlineEach trees)).pieces := by
  induction trees with
  | nil => exact absurd rfl ne
  | cons first others ih =>
    obtain ⟨own, rest⟩ := List.forall_mem_cons.mp h
    cases others with
    | nil => exact own
    | cons second others =>
      have further := ih rest (List.cons_ne_nil _ _)
      simp only [outlineEach, nest, Outline.pieces, piecesEach] at further ⊢
      rw [renderStatements_cons, split_append_of_apart (by decide), split_append_gap (by decide),
        split_append_of_closed (by decide), own, further]
      simp only [List.append_nil, List.append_assoc]
      rfl

end Tree

/-- The arms of a conditional are printed with a blank in front, or not at all. -/
theorem Arms.apart_render (arms : Arms) : Apart arms.render := by
  cases arms with
  | none => decide
  | otherwise body => exact .append (by decide) (by decide)
  | guarded condition body others =>
    rw [render_guarded]
    repeat rw [String.append_assoc]
    exact .append (by decide) (by decide)

theorem Arms.split_render (arms : Arms)
    (h : ∀ part ∈ arms.parts, split part.2.render = part.2.outline.pieces) :
    split arms.render = piecesEach arms.outlines := by
  match arms with
  | none => rfl
  | otherwise body =>
    have inside := Tree.split_renderBody (h (.otherwise, body) (by simp [parts]))
    rw [render_otherwise, split_append_of_closed (by decide), inside]
    rfl
  | guarded condition body others =>
    have first := h (.condition, condition) (by simp [parts])
    have second := Tree.split_renderBody (h (.body, body) (by simp [parts]))
    have rest := others.split_render fun part mem => h part (by simp [parts, mem])
    rw [render_guarded, split_append_of_apart others.apart_render, split_append_gap (by decide),
      split_append_of_closed (by decide), first, second, rest]
    simp only [outlines, piecesEach_append, piecesEach, List.append_assoc]
    rfl

/-- The header of a `for` loop begins with an assignment. -/
theorem Tree.render_forLoop_eq (letStart start stop : Position) (name : Token)
    (initial condition update body : Tree) :
    (forLoop letStart name initial condition update body start stop).render =
      "(KEYWORD:for LPAREN " ++ (assignment letStart name initial).render ++ " COMMA " ++
        condition.render ++ " COMMA " ++ update.render ++ " RPAREN " ++
        renderBody body.render ++ ")" := by
  have before : "(KEYWORD:for LPAREN (" = "(KEYWORD:for LPAREN " ++ "(" := rfl
  have behind : ") COMMA " = ")" ++ " COMMA " := rfl
  rw [render_forLoop, render_assignment, before, behind]
  simp only [String.append_assoc]

/-- The pieces in a tree on one line are those of its outline. -/
theorem Tree.split_render {tree : Tree} (h : tree.Throughout (Shaped Token.Solid)) :
    split tree.render = tree.outline.pieces := by
  induction h with
  | @intro tree shaped _ ih =>
  have keeps := shaped.keeps
  -- a form is written as its parts with gaps around them; what the gaps hold is computed by `rfl`
  cases tree with
  | number t | string t | reference t => exact keeps.2.split_toText
  | assignment start name value =>
    have inside := ih value (by simp [children, parts])
    rw [render_assignment, split_append_of_apart (by decide), split_append_gap (by decide),
      split_append_of_closed (by decide), keeps.2.split_toText, inside]
    simp only [outline, Outline.pieces, piecesEach, List.append_assoc, List.append_nil]
    rfl
  | binary left operator right =>
    have first := ih left (by simp [children, parts])
    have second := ih right (by simp [children, parts])
    rw [render_binary, split_append_of_apart (by decide), split_append_gap (by decide),
      split_append_gap (by decide), split_append_of_closed (by decide), first,
      keeps.2.split_toText, second]
    simp only [outline, Outline.pieces, piecesEach, List.append_assoc, List.append_nil]
    rfl
  | unary operator operand =>
    have inside := ih operand (by simp [children, parts])
    rw [render_unary, split_append_of_apart (by decide), split_append_gap (by decide),
      split_append_of_closed (by decide), keeps.2.split_toText, inside]
    simp only [outline, Outline.pieces, piecesEach, List.append_assoc, List.append_nil]
    rfl
  | conditional arms start stop =>
    have inside := arms.split_render fun part mem => ih part.2 (List.mem_map_of_mem mem)
    rw [render_conditional, split_append_of_apart (by decide),
      split_append_of_apart arms.apart_render, inside]
    simp only [outline, Outline.pieces, piecesEach]
    rfl
  | forLoop letStart name initial condition update body start stop =>
    -- the assignment in the header is a part of its own
    have assigned := ih (assignment letStart name initial) (by simp [children, parts])
    have first := ih condition (by simp [children, parts])
    have second := ih update (by simp [children, parts])
    have third := split_renderBody (ih body (by simp [children, parts]))
    rw [render_forLoop_eq, split_append_of_apart (by decide), split_append_gap (by decide),
      split_append_gap (by decide), split_append_gap (by decide),
      split_append_of_closed (by decide), assigned, first, second, third]
    simp only [outline, Outline.pieces, piecesEach, piecesEach_append, List.append_assoc,
      List.append_nil]
    rfl
  | whileLoop condition body start stop =>
    have first := ih condition (by simp [children, parts])
    have second := split_renderBody (ih body (by simp [children, parts]))
    rw [render_whileLoop, split_append_of_apart (by decide), split_append_gap (by decide),
      split_append_of_closed (by decide), first, second]
    simp only [outline, Outline.pieces, piecesEach, piecesEach_append, List.append_assoc,
      List.append_nil]
    rfl
  | function name parameters body start stop =>
    have inside := split_renderBody (ih body (by simp [children, parts]))
    have names := split_renderParameters fun t mem => (keeps.2 t mem).2
    rw [render_function, split_append_of_apart (by decide), split_append_gap (by decide),
      split_append_gap (by decide), split_append_of_closed (by decide),
      keeps.1.2.split_toText, names, inside]
    simp only [outline, Outline.pieces, piecesEach, piecesEach_append, List.append_assoc,
      List.append_nil]
    rfl
  | call callee arguments stop =>
    rw [children_call] at ih
    obtain ⟨first, each⟩ := List.forall_mem_cons.mp ih
    rw [render_call, split_append_of_apart (by decide),
      split_append_of_apart (apart_renderArguments arguments), split_append_of_apart (by decide),
      split_append_of_closed (by decide), first, split_renderArguments each]
    simp only [outline, Outline.pieces, piecesEach, piecesEach_append, List.append_assoc,
      List.append_nil]
    rfl
  | sequence statements start stop =>
    rw [children_sequence] at ih
    have ne : statements ≠ [] := by simpa using shaped.framed.ne_nil rfl
    exact split_renderStatements ih ne

/-- Trees that look the same on one line have the same outline. -/
theorem Tree.outline_eq_of_render_eq {tree other : Tree}
    (h : tree.Throughout (Shaped Token.Solid)) (h' : other.Throughout (Shaped Token.Solid))
    (same : tree.render = other.render) : tree.outline = other.outline := by
  apply Outline.eq_of_pieces_eq
  rw [← split_render h, same, split_render h']

end Scriptlet
