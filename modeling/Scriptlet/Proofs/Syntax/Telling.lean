import Mathlib.Data.List.TakeWhile
import Scriptlet.Proofs.Syntax.Outline
import Scriptlet.Proofs.Syntax.Unplaced

/-!
# Trees told from their outlines

Which form a tree has shows in the first two words of its outline, and in the number of its items.
Trees with the same outline have the same form, then, and so have their parts in turn: they differ
in places alone, as long as their tokens can be told from their texts.

## Main definitions

* `Tree.Variant` — the forms of trees
* `Outline.variant` — the form that an outline is of, if it is not that of a sequence
* `Tree.Told` — trees of which the outline tells whatever is no place

## Main results

* `Tree.variant_outline` — the outline of a tree is of its form
* `Tree.Told.node` — nodes of one form are told by their tokens and their parts
* `Tree.unplaced_eq_of_outline_eq` — trees with the same outline differ in places alone
-/

namespace Scriptlet

/-- The forms of trees, with one for all literals and names. -/
inductive Tree.Variant
  | leaf | assignment | binary | unary | conditional | forLoop | whileLoop | function | call
  | sequence
  deriving DecidableEq, Repr

/-! ### Labels -/

namespace Token

/-- What stands before the first colon of a text. -/
def labelIn (text : String) : String := String.ofList (text.toList.takeWhile (· != ':'))

theorem labelIn_toText (t : Token) : labelIn t.toText = t.kind.label := by
  have plain : ∀ c ∈ t.kind.label.toList, c != ':' := by
    apply List.all_eq_true.mp
    cases t.kind <;> decide
  unfold labelIn toText
  split
  · rw [String.toList_append, String.toList_append, List.append_assoc,
      List.takeWhile_append_of_pos plain]
    simp
  · rw [List.takeWhile_eq_self_iff.mpr plain, String.ofList_toList]

theorem Kind.ofLabel?_label (k : Kind) : ofLabel? k.label = some k := by cases k <;> decide

/-- The kind of a token can be told from its text. -/
theorem kind_eq_of_toText_eq {t u : Token} (h : t.toText = u.toText) : t.kind = u.kind := by
  have same : t.kind.label = u.kind.label := by rw [← labelIn_toText, h, labelIn_toText]
  apply Option.some.inj
  rw [← Kind.ofLabel?_label, same, Kind.ofLabel?_label]

theorem toText_ne {t : Token} {text : String} (h : t.kind.label ≠ labelIn text) :
    t.toText ≠ text := by
  rintro rfl
  exact h t.labelIn_toText.symm

end Token

/-! ### Forms -/

namespace Outline

/-- The word that an outline is. -/
def word? : Outline → Option String
  | word text => some text
  | group _ => none

/-- The form that an outline is of, if it is not that of a sequence: the second item tells
assignments and operations, and the first all others. -/
def variant : Outline → Tree.Variant
  | word _ => .leaf
  | group items =>
    let first := items.head?.bind word?
    let second := items[1]?.bind word?
    if second = some "EQ" then .assignment
    else if second = some "," then if items.length = 3 then .unary else .binary
    else if first = some "KEYWORD:if" then .conditional
    else if first = some "KEYWORD:for" then .forLoop
    else if first = some "KEYWORD:while" then .whileLoop
    else if first = some "KEYWORD:func" then .function
    else .call

/-- Whether an outline is a group of two. -/
def isPair : Outline → Bool
  | group [_, _] => true
  | _ => false

/-- Outlines that are no pairs can be told from how they nest. -/
theorem nest_injective {items others : List Outline} (single : ∀ item ∈ items, item.isPair = false)
    (single' : ∀ item ∈ others, item.isPair = false) (ne : items ≠ []) (ne' : others ≠ [])
    (h : nest items = nest others) : items = others := by
  induction items generalizing others with
  | nil => exact absurd rfl ne
  | cons first rest ih =>
    obtain ⟨notPair, rests⟩ := List.forall_mem_cons.mp single
    cases others with
    | nil => exact absurd rfl ne'
    | cons first' rest' =>
      obtain ⟨notPair', rests'⟩ := List.forall_mem_cons.mp single'
      cases rest with
      | nil =>
        cases rest' with
        | nil => exact congrArg (fun item => [item]) h
        | cons second' rest' =>
          -- one outline nests as it is, and two or more as a pair
          rw [show first = _ from h] at notPair
          cases notPair
      | cons second rest =>
        cases rest' with
        | nil =>
          rw [show first' = _ from h.symm] at notPair'
          cases notPair'
        | cons second' rest' =>
          simp only [nest, group.injEq, List.cons.injEq, and_true] at h
          obtain ⟨rfl, inner⟩ := h
          rw [ih rests rests' (List.cons_ne_nil _ _) (List.cons_ne_nil _ _) inner]

theorem separated_injective {separator : String} {items others : List Outline}
    (h : separated separator items = separated separator others) : items = others := by
  induction items generalizing others with
  | nil =>
    match others with
    | [] => rfl
    | [_] | _ :: _ :: _ => cases h
  | cons first rest ih =>
    match rest, others with
    | [], [_] => exact h
    | _ :: _, [_] | [], _ :: _ :: _ | [], [] | _ :: _, [] => cases h
    | second :: rest, first' :: second' :: rest' =>
      simp only [separated, List.intersperse_cons_cons, List.cons.injEq, true_and] at h
      rw [h.1, ih h.2]

end Outline

namespace Tree

/-- The form of a tree. -/
def variant : Tree → Variant
  | number _ | string _ | reference _ => .leaf
  | assignment _ _ _ => .assignment
  | binary _ _ _ => .binary
  | unary _ _ => .unary
  | conditional _ _ _ => .conditional
  | forLoop _ _ _ _ _ _ _ _ => .forLoop
  | whileLoop _ _ _ _ => .whileLoop
  | function _ _ _ _ _ => .function
  | call _ _ _ => .call
  | sequence _ _ _ => .sequence

variable {P Q : Token → Prop} {tree other : Tree}

/-- A tree that is written as one word is a literal or a name. -/
theorem kind_of_word? (keeps : tree.Keeps P) (single : tree.isSequence = false) {text : String}
    (h : tree.outline.word? = some text) :
    ∃ t : Token, t.toText = text ∧ t.kind ∈ [.int, .float, .string, .identifier] := by
  cases tree with
  | number t =>
    exact ⟨t, Option.some.inj h, by rcases keeps.1 with kind | kind <;> simp [kind]⟩
  | string t | reference t => exact ⟨t, Option.some.inj h, by simp [keeps.1]⟩
  | sequence => cases single
  | _ => cases h

/-- No tree that is no sequence is written as a pair. -/
theorem isPair_outline (single : tree.isSequence = false) : tree.outline.isPair = false := by
  cases tree with
  | number | string | reference | assignment | binary | unary | forLoop | whileLoop => rfl
  | function => rfl
  | conditional arms => cases arms <;> rfl
  | call callee arguments =>
    cases words : Outline.separated "COMMA" (outlineEach arguments) with
    | nil => simp [outline, Outline.isPair, words]
    | cons word others => simp [outline, Outline.isPair, words]
  | sequence => cases single

/-- The outline of a tree is of its form. -/
theorem variant_outline (h : tree.Throughout (Shaped P)) (single : tree.isSequence = false) :
    tree.outline.variant = tree.variant := by
  have keeps := h.self.keeps
  cases tree with
  | number | string | reference | assignment | binary | unary => rfl
  | sequence => cases single
  | conditional arms =>
    cases arms <;> rfl
  | forLoop | whileLoop => rfl
  | function name =>
    have label : name.kind.label = "IDENTIFIER" := by rw [keeps.1.1]; rfl
    have notAssign : name.toText ≠ "EQ" := Token.toText_ne (by rw [label]; decide)
    have notComma : name.toText ≠ "," := Token.toText_ne (by rw [label]; decide)
    simp [outline, Outline.variant, variant, Token.outline, Outline.word?, notAssign,
      notComma]
  | call callee arguments =>
    have called : callee.Throughout (Shaped P) := h.child (by simp)
    have single := h.self.framed.bodies (.callee, callee) (by simp [parts])
    have notReserved (text : String) (keyword : Token.labelIn text = "KEYWORD") :
        callee.outline.word? ≠ some text := by
      intro isWord
      obtain ⟨t, eq, kind⟩ := kind_of_word? called.self.keeps single isWord
      have label : t.kind.label = "KEYWORD" := by rw [← keyword, ← eq, Token.labelIn_toText]
      revert label kind
      cases t.kind <;> decide
    -- the word behind the callee is neither that of an assignment nor that of an operation
    have second : (Outline.word "LPAREN").word? = some "LPAREN" := rfl
    simp [outline, Outline.variant, variant, second, notReserved "KEYWORD:if" rfl,
      notReserved "KEYWORD:for" rfl, notReserved "KEYWORD:while" rfl,
      notReserved "KEYWORD:func" rfl]

/-- Sequences and other trees with the same outline are of the same form. -/
theorem variant_eq_of_outline_eq (h : tree.Throughout (Shaped P)) (h' : other.Throughout (Shaped Q))
    (sort : tree.isSequence = other.isSequence) (same : tree.outline = other.outline) :
    tree.variant = other.variant := by
  cases single : tree.isSequence with
  | false =>
    rw [← variant_outline h single, same, variant_outline h' (sort ▸ single)]
  | true =>
    have single' := sort ▸ single
    cases tree <;> cases single
    cases other <;> cases single'
    rfl

end Tree

/-! ### Parts in turn -/

/-- Lists that a map makes equal are made equal by any other that tells no more of their members
apart. -/
theorem map_eq_map_of_map_eq_map {α β γ : Type} {f : α → β} {g : α → γ} {l l' : List α}
    (h : l.map f = l'.map f) (imp : ∀ a ∈ l, ∀ b ∈ l', f a = f b → g a = g b) :
    l.map g = l'.map g := by
  induction l generalizing l' with
  | nil => rw [List.map_eq_nil_iff.mp h.symm]
  | cons a l ih =>
    cases l' with
    | nil => cases h
    | cons b l' =>
      obtain ⟨first, rest⟩ := List.cons.inj h
      rw [List.map_cons, List.map_cons, imp a List.mem_cons_self b List.mem_cons_self first]
      rw [ih rest fun a mem b mem' =>
        imp a (List.mem_cons_of_mem _ mem) b (List.mem_cons_of_mem _ mem')]

/-! ### Forms with parts -/

/-- Tokens with the same text differ in places alone. -/
def Token.Told (t u : Token) : Prop := t.toText = u.toText → t.unplaced = u.unplaced

/-- Trees with the same outline differ in places alone. -/
def Tree.Told (tree other : Tree) : Prop :=
  tree.outline = other.outline → tree.unplaced = other.unplaced

/-- Parts of two nodes are told from one another if they are the same to them. -/
def PartsTold (parts others : List (Role × Tree)) : Prop :=
  ∀ role child child', (role, child) ∈ parts → (role, child') ∈ others → child.Told child'

open Outline

theorem Token.Told.of_outline_eq {t u : Token} (told : t.Told u) (same : t.outline = u.outline) :
    t.unplaced = u.unplaced :=
  told (Outline.word.inj same)

theorem Arms.unplaced_eq_of_outlines_eq {arms others : Arms}
    (told : PartsTold arms.parts others.parts) (same : arms.outlines = others.outlines) :
    arms.unplaced = others.unplaced := by
  match arms, others with
  | none, none => rfl
  | otherwise inner, otherwise inner' =>
    simp only [outlines, body, List.cons.injEq, true_and, and_true] at same
    rw [unplaced, unplaced, told .otherwise inner inner' (by simp [parts]) (by simp [parts]) same]
  | guarded condition inner rest, guarded condition' inner' rest' =>
    simp only [outlines, body, List.cons_append, List.nil_append, List.cons.injEq, true_and] at same
    obtain ⟨first, second, third⟩ := same
    have further : PartsTold rest.parts rest'.parts := fun role child child' mem mem' =>
      told role child child' (by simp [parts, mem]) (by simp [parts, mem'])
    rw [unplaced, unplaced, rest.unplaced_eq_of_outlines_eq further third,
      told .condition condition condition' (by simp [parts]) (by simp [parts]) first,
      told .body inner inner' (by simp [parts]) (by simp [parts]) second]
  | none, otherwise _ | none, guarded _ _ _ | otherwise _, none | guarded _ _ _, none
  | otherwise _, guarded _ _ _ | guarded _ _ _, otherwise _ => simp [outlines, body] at same

namespace Tree.Told

variable {name name' operator operator' : Token} {left left' right right' condition condition'
  inner inner' : Tree} {letStart letStart' start start' stop stop' : Position}

theorem assignment (named : name.Told name') (value : right.Told right') :
    (assignment start name right).Told (.assignment start' name' right') := by
  intro same
  simp only [outline, Outline.group.injEq, List.cons.injEq, true_and, and_true] at same
  rw [unplaced, unplaced, named.of_outline_eq same.1, value same.2]

theorem binary (first : left.Told left') (joined : operator.Told operator')
    (second : right.Told right') :
    (binary left operator right).Told (.binary left' operator' right') := by
  intro same
  simp only [outline, Outline.group.injEq, List.cons.injEq, true_and, and_true] at same
  rw [unplaced, unplaced, first same.1, joined.of_outline_eq same.2.1, second same.2.2]

theorem unary (signed : operator.Told operator') (operand : right.Told right') :
    (unary operator right).Told (.unary operator' right') := by
  intro same
  simp only [outline, Outline.group.injEq, List.cons.injEq, true_and, and_true] at same
  rw [unplaced, unplaced, signed.of_outline_eq same.1, operand same.2]

theorem conditional {arms arms' : Arms} (parts : PartsTold arms.parts arms'.parts) :
    (conditional arms start stop).Told (.conditional arms' start' stop') := by
  intro same
  simp only [outline, Outline.group.injEq, List.cons.injEq, true_and] at same
  rw [unplaced, unplaced, arms.unplaced_eq_of_outlines_eq parts same]

/-- In the header of a loop the first assignment is a part. -/
theorem forLoop (initial : (Tree.assignment letStart name left).Told
      (.assignment letStart' name' left'))
    (first : condition.Told condition') (update : right.Told right') (second : inner.Told inner') :
    (forLoop letStart name left condition right inner start stop).Told
      (.forLoop letStart' name' left' condition' right' inner' start' stop') := by
  intro same
  simp only [outline, Outline.body, List.cons_append, List.nil_append, Outline.group.injEq,
    List.cons.injEq, true_and, and_true] at same
  obtain ⟨⟨sameName, sameInitial⟩, sameCondition, sameUpdate, sameBody⟩ := same
  have assigned := initial (by rw [outline, outline, sameName, sameInitial])
  simp only [unplaced, assignment.injEq, true_and] at assigned
  rw [unplaced, unplaced, assigned.1, assigned.2, first sameCondition, update sameUpdate,
    second sameBody]

theorem whileLoop (first : condition.Told condition') (second : inner.Told inner') :
    (whileLoop condition inner start stop).Told (.whileLoop condition' inner' start' stop') := by
  intro same
  simp only [outline, Outline.body, List.cons_append, List.nil_append, Outline.group.injEq,
    List.cons.injEq, true_and, and_true] at same
  rw [unplaced, unplaced, first same.1, second same.2]

theorem function {parameters parameters' : List Token} (named : name.Told name')
    (declared : ∀ t ∈ parameters, ∀ u ∈ parameters', t.Told u) (second : inner.Told inner') :
    (function name parameters inner start stop).Told
      (.function name' parameters' inner' start' stop') := by
  intro same
  simp only [outline, List.cons_append, List.nil_append, Outline.group.injEq, List.cons.injEq,
    true_and, List.append_assoc] at same
  obtain ⟨sameName, rest⟩ := same
  obtain ⟨sameNames, rest⟩ := List.append_inj' rest rfl
  simp only [Outline.body, List.cons.injEq, true_and, and_true] at rest
  have sameParameters := map_eq_map_of_map_eq_map (Outline.separated_injective sameNames)
    fun t mem u mem' => (declared t mem u mem').of_outline_eq
  rw [unplaced, unplaced, named.of_outline_eq sameName, sameParameters, second rest]

theorem call {arguments arguments' : List Tree} (callee : left.Told left')
    (each : ∀ tree ∈ arguments, ∀ other ∈ arguments', tree.Told other) :
    (call left arguments stop).Told (.call left' arguments' stop') := by
  intro same
  simp only [outline, List.cons_append, List.nil_append, Outline.group.injEq, List.cons.injEq,
    true_and, List.append_cancel_right_eq, outlineEach_eq_map] at same
  have sameArguments := map_eq_map_of_map_eq_map (Outline.separated_injective same.2) each
  rw [unplaced, unplaced, callee same.1, unplacedEach_eq_map, unplacedEach_eq_map, sameArguments]

end Tree.Told

/-! ### Whole trees -/

namespace Tree

variable {P Q : Token → Prop} {tree other : Tree}

/-- A leaf is told by its token, whose kind says what sort of leaf it is. -/
def ofToken (t : Token) : Tree :=
  match t.kind with
  | .int | .float => .number t
  | .string => .string t
  | _ => .reference t

theorem exists_token (keeps : tree.Keeps P) (leaf : tree.variant = .leaf) :
    ∃ t, P t ∧ tree.outline = t.outline ∧ tree.unplaced = ofToken t.unplaced := by
  cases tree with
  | number t =>
    refine ⟨t, keeps.2, rfl, ?_⟩
    rcases keeps.1 with kind | kind <;> simp [unplaced, ofToken, Token.unplaced, kind]
  | string t | reference t =>
    refine ⟨t, keeps.2, rfl, ?_⟩
    simp [unplaced, ofToken, Token.unplaced, keeps.1]
  | _ => cases leaf

/-- Literals and names are told by their tokens. -/
theorem Told.leaf (named : ∀ t u, P t → Q u → t.Told u) (keeps : tree.Keeps P)
    (keeps' : other.Keeps Q) (leaf : tree.variant = .leaf) (leaf' : other.variant = .leaf) :
    tree.Told other := by
  intro same
  obtain ⟨t, own, outline_eq, unplaced_eq⟩ := exists_token keeps leaf
  obtain ⟨u, own', outline_eq', unplaced_eq'⟩ := exists_token keeps' leaf'
  rw [outline_eq, outline_eq'] at same
  rw [unplaced_eq, unplaced_eq', (named t u own own').of_outline_eq same]

/-- Statements can be told apart in a sequence. -/
theorem Framed.outlineEach_eq_of_nest_eq {statements others : List Tree}
    {start stop start' stop' : Position} (h : (sequence statements start stop).Framed)
    (h' : (sequence others start' stop').Framed)
    (same : Outline.nest (outlineEach statements) = Outline.nest (outlineEach others)) :
    outlineEach statements = outlineEach others := by
  have single {statements : List Tree} {start stop : Position}
      (framed : (sequence statements start stop).Framed) :
      (∀ item ∈ outlineEach statements, item.isPair = false) ∧ outlineEach statements ≠ [] := by
    have ne : statements ≠ [] := by simpa using framed.ne_nil rfl
    rw [outlineEach_eq_map]
    refine ⟨List.forall_mem_map.mpr fun statement mem => ?_, by simpa using ne⟩
    exact isPair_outline (framed.bodies (.statement, statement) (by simp [parts, mem]))
  obtain ⟨notPairs, ne⟩ := single h
  obtain ⟨notPairs', ne'⟩ := single h'
  exact Outline.nest_injective notPairs notPairs' ne ne' same

/-- Sequences are told by their statements. -/
theorem Told.sequence {statements others : List Tree} {start stop start' stop' : Position}
    (framed : (Tree.sequence statements start stop).Framed)
    (framed' : (Tree.sequence others start' stop').Framed)
    (each : ∀ tree ∈ statements, ∀ other ∈ others, tree.Told other) :
    (Tree.sequence statements start stop).Told (.sequence others start' stop') := by
  intro same
  have outlines := framed.outlineEach_eq_of_nest_eq framed' same
  rw [outlineEach_eq_map, outlineEach_eq_map] at outlines
  have sameStatements := map_eq_map_of_map_eq_map outlines each
  rw [unplaced, unplaced, unplacedEach_eq_map, unplacedEach_eq_map, sameStatements]

/-- Nodes of one form are told by the tokens that they keep and by their parts. -/
theorem Told.node (named : ∀ t u, P t → Q u → t.Told u) (shaped : tree.Shaped P)
    (shaped' : other.Shaped Q) (variants : tree.variant = other.variant)
    (parts : PartsTold tree.parts other.parts) : tree.Told other := by
  have keeps := shaped.keeps
  have keeps' := shaped'.keeps
  -- each form is compared with itself alone
  cases tree with
  | number | string | reference => exact .leaf named keeps keeps' rfl variants.symm
  | assignment start name value =>
    cases other with
    | assignment start' name' value' =>
      exact .assignment (named _ _ keeps.2 keeps'.2)
        (parts .value _ _ (by simp [Tree.parts]) (by simp [Tree.parts]))
    | _ => cases variants
  | binary left operator right =>
    cases other with
    | binary left' operator' right' =>
      exact .binary (parts .left _ _ (by simp [Tree.parts]) (by simp [Tree.parts]))
        (named _ _ keeps.2 keeps'.2)
        (parts .right _ _ (by simp [Tree.parts]) (by simp [Tree.parts]))
    | _ => cases variants
  | unary operator operand =>
    cases other with
    | unary operator' operand' =>
      exact .unary (named _ _ keeps.2 keeps'.2)
        (parts .operand _ _ (by simp [Tree.parts]) (by simp [Tree.parts]))
    | _ => cases variants
  | conditional arms start stop =>
    cases other with
    | conditional arms' start' stop' => exact .conditional parts
    | _ => cases variants
  | forLoop letStart name initial condition update inner start stop =>
    cases other with
    | forLoop letStart' name' initial' condition' update' inner' start' stop' =>
      exact .forLoop (parts .initial _ _ (by simp [Tree.parts]) (by simp [Tree.parts]))
        (parts .condition _ _ (by simp [Tree.parts]) (by simp [Tree.parts]))
        (parts .update _ _ (by simp [Tree.parts]) (by simp [Tree.parts]))
        (parts .body _ _ (by simp [Tree.parts]) (by simp [Tree.parts]))
    | _ => cases variants
  | whileLoop condition inner start stop =>
    cases other with
    | whileLoop condition' inner' start' stop' =>
      exact .whileLoop (parts .condition _ _ (by simp [Tree.parts]) (by simp [Tree.parts]))
        (parts .body _ _ (by simp [Tree.parts]) (by simp [Tree.parts]))
    | _ => cases variants
  | function name parameters inner start stop =>
    cases other with
    | function name' parameters' inner' start' stop' =>
      exact .function (named _ _ keeps.1.2 keeps'.1.2)
        (fun t mem u mem' => named t u (keeps.2 t mem).2 (keeps'.2 u mem').2)
        (parts .body _ _ (by simp [Tree.parts]) (by simp [Tree.parts]))
    | _ => cases variants
  | call callee arguments stop =>
    cases other with
    | call callee' arguments' stop' =>
      exact .call (parts .callee _ _ (by simp [Tree.parts]) (by simp [Tree.parts]))
        fun tree mem other mem' => parts .argument tree other (by simp [Tree.parts, mem])
          (by simp [Tree.parts, mem'])
    | _ => cases variants
  | sequence statements start stop =>
    cases other with
    | sequence statements' start' stop' =>
      exact .sequence shaped.framed shaped'.framed fun tree mem other mem' =>
        parts .statement tree other (by simp [Tree.parts, mem]) (by simp [Tree.parts, mem'])
    | _ => cases variants

/-- Trees with the same outline differ in places alone, if their tokens do whenever they have the
same text. -/
theorem unplaced_eq_of_outline_eq
    (telling : ∀ t u, P t → Q u → t.toText = u.toText → t.unplaced = u.unplaced)
    (h : tree.Throughout (Shaped P)) (h' : other.Throughout (Shaped Q))
    (sort : tree.isSequence = other.isSequence) (same : tree.outline = other.outline) :
    tree.unplaced = other.unplaced := by
  induction h generalizing other with
  | @intro tree shaped inside ih =>
    have shaped' := h'.self
    have parts : PartsTold tree.parts other.parts := by
      intro role child child' mem mem' same
      -- parts that are the same to their nodes are both bodies or both none
      have sorts := (shaped.framed.bodies _ mem).trans (shaped'.framed.bodies _ mem').symm
      exact ih child (List.mem_map_of_mem mem) (h'.child (List.mem_map_of_mem mem')) sorts same
    have variants := variant_eq_of_outline_eq (.intro shaped inside) h' sort same
    exact Told.node telling shaped shaped' variants parts same

end Tree

end Scriptlet
