import Scriptlet.Proofs.Lexemes.Writing
import Scriptlet.Proofs.Source.Piecewise

/-!
# Trees in writing

A tree is written with every compound operand in parentheses, so that its text has one reading
whatever the levels of its operators. Reading the text gives the tree again, up to places.

## Main definitions

* `Tree.isScript` — the trees that can be written: those of scripts without doubles
* `Tree.tokens`, `Tree.written` — a tree as tokens, and in writing

## Main results

* `Source.tree_written` — reading undoes writing
-/

namespace Scriptlet

/-! ### Trees that can be written -/

namespace Token

/-- The kinds of the operators that join two operands. -/
def binaryKinds : List Kind :=
  [.plus, .minus, .times, .divide, .equal, .notEqual, .less, .greater, .lessEqual, .greaterEqual,
    .and, .or]

/-- An operator that joins two operands. -/
def isBinary (t : Token) : Bool := t.value == none && t.kind ∈ binaryKinds

/-- An operator in front of one operand. -/
def isUnary (t : Token) : Bool := t.value == none && t.kind ∈ [.plus, .minus, .not]

end Token

mutual

/-- Expressions as they stand in a script without doubles. -/
def Tree.isExpression : Tree → Bool
  | .number t => t.isNumber
  | .string t => t.isString
  | .reference t => t.isName
  | .assignment _ name value => name.isName && value.isExpression
  | .binary left operator right => left.isExpression && operator.isBinary && right.isExpression
  | .unary operator operand => operator.isUnary && operand.isExpression
  | .conditional arms _ _ => arms.isSingle
  | .forLoop _ name initial condition update body _ _ =>
    name.isName && initial.isExpression && condition.isExpression && update.isExpression &&
      body.isScript
  | .whileLoop condition body _ _ => condition.isExpression && body.isScript
  | .function name parameters body _ _ =>
    name.isName && parameters.all Token.isName && body.isScript
  | .call callee arguments _ => callee.isExpression && Tree.areExpressions arguments
  | .sequence _ _ _ => false

/-- Scripts without doubles: expressions in a row, at least one. -/
def Tree.isScript : Tree → Bool
  | .sequence statements _ _ => !statements.isEmpty && Tree.areExpressions statements
  | _ => false

/-- One guarded arm, and perhaps one for all other cases. -/
def Arms.isSingle : Arms → Bool
  | .guarded condition body .none => condition.isExpression && body.isScript
  | .guarded condition body (.otherwise other) =>
    condition.isExpression && body.isScript && other.isScript
  | _ => false

def Tree.areExpressions : List Tree → Bool
  | [] => true
  | tree :: others => tree.isExpression && Tree.areExpressions others

end

/-! ### Trees as tokens -/

/-- Whether an expression is more than one token. -/
def Tree.isCompound : Tree → Bool
  | .number _ | .string _ | .reference _ => false
  | _ => true

namespace Token

/-- Tokens in parentheses. -/
def parenthesised (w : List Token) : List Token :=
  .ofSign .leftParen :: w ++ [.ofSign .rightParen]

/-- Tokens in braces. -/
def braced (w : List Token) : List Token := .ofSign .leftCurl :: w ++ [.ofSign .rightCurl]

end Token

/-- The tokens of a tree as an operand: a compound one stands in parentheses. -/
def Tree.enclose (tree : Tree) (w : List Token) : List Token :=
  if tree.isCompound then Token.parenthesised w else w

mutual

/-- A tree as tokens, with every compound operand in parentheses. With `full` so is every compound
statement. -/
def Tree.tokens (full : Bool) : Tree → List Token
  | .number t | .string t | .reference t => [t]
  | .assignment _ name value =>
    .ofKeyword .letWord :: name :: .ofSign .assign :: value.enclose (value.tokens full)
  | .binary left operator right =>
    left.enclose (left.tokens full) ++ operator :: right.enclose (right.tokens full)
  | .unary operator operand => operator :: operand.enclose (operand.tokens full)
  | .conditional arms _ _ => arms.tokens full
  | .forLoop _ name initial condition update body _ _ =>
    .ofKeyword .forWord :: Token.parenthesised
      ((.ofKeyword .letWord :: name :: .ofSign .assign :: initial.enclose (initial.tokens full)) ++
        .ofSign .comma :: condition.enclose (condition.tokens full) ++
        .ofSign .comma :: update.enclose (update.tokens full)) ++
      Token.braced (body.tokens full)
  | .whileLoop condition body _ _ =>
    .ofKeyword .whileWord :: Token.parenthesised (condition.enclose (condition.tokens full)) ++
      Token.braced (body.tokens full)
  | .function name parameters body _ _ =>
    .ofKeyword .funcWord :: name ::
      Token.parenthesised (Text.join (.ofSign .comma) (parameters.map ([·]))) ++
      Token.braced (body.tokens full)
  | .call callee arguments _ =>
    callee.enclose (callee.tokens full) ++
      Token.parenthesised (Text.join (.ofSign .comma) (Tree.tokensEach full true arguments))
  | .sequence statements _ _ =>
    Text.join (.ofSign .separator) (Tree.tokensEach full full statements)

/-- The arms of a conditional as tokens. -/
def Arms.tokens (full : Bool) : Arms → List Token
  | .none => []
  | .otherwise body => .ofKeyword .elseWord :: Token.braced (body.tokens full)
  | .guarded condition body others =>
    .ofKeyword .ifWord :: Token.parenthesised (condition.enclose (condition.tokens full)) ++
      Token.braced (body.tokens full) ++ others.tokens full

/-- Trees in a row as tokens, as operands or with no parentheses of their own. -/
def Tree.tokensEach (full operands : Bool) : List Tree → List (List Token)
  | [] => []
  | tree :: others =>
    (if operands then tree.enclose (tree.tokens full) else tree.tokens full) ::
      Tree.tokensEach full operands others

end

/-- A tree in writing. -/
def Tree.written (full : Bool) (tree : Tree) : String :=
  String.ofList (Token.writeAll (tree.tokens full))

/-! ### Phrases of every level -/

namespace Spells

variable {w : List Token} {tree : Tree}

/-- An atom is an operand of every level. -/
theorem operand_of_atom (h : Spells .atom w tree) (level : Level) :
    Spells level.operand w tree := by
  have factor : Spells .factor w tree := .unsigned (.uncalled h)
  have sums : Spells (.joined .sums) w tree := .operand (.operand factor)
  cases level with
  | products => exact factor
  | sums => exact .operand factor
  | relations => exact sums
  | conditions => exact .relations (.operand sums)

/-- Whatever is joined by operators of one level is an expression. -/
theorem expression_of_joined {level : Level} (h : Spells (.joined level) w tree) :
    Spells .expression w tree := by
  cases level with
  | conditions => exact .conditions h
  | relations => exact .conditions (.operand (.relations h))
  | sums => exact .conditions (.operand (.relations (.operand h)))
  | products => exact .conditions (.operand (.relations (.operand (.operand h))))

theorem expression_of_atom (h : Spells .atom w tree) : Spells .expression w tree :=
  have products : Spells (.joined .products) w tree := .operand (h.operand_of_atom .products)
  products.expression_of_joined

end Spells

/-! ### Trees that tokens spell -/

/-- Tokens that can be written, and spell a tree of this content. -/
structure WrittenAs (p : Phrase) (w : List Token) (tree : Tree) : Prop where
  writable : w.all Token.isWritable
  spells : ∃ tree', Spells p w tree' ∧ tree'.unplaced = tree.unplaced

namespace Token

@[simp] theorem isWritable_ofKeyword (k : Keyword) : (ofKeyword k).isWritable := by
  cases k <;> decide

@[simp] theorem kind_ofSign (kind : Kind) : (ofSign kind).kind = kind := rfl

@[simp] theorem isKeyword_ofKeyword (k : Keyword) : (ofKeyword k).isKeyword k := by
  cases k <;> decide

@[simp] theorem all_parenthesised (w : List Token) :
    (parenthesised w).all isWritable = w.all isWritable := by
  have opening : (ofSign .leftParen).isWritable := rfl
  have closing : (ofSign .rightParen).isWritable := rfl
  simp [parenthesised, opening, closing]

@[simp] theorem all_braced (w : List Token) :
    (braced w).all isWritable = w.all isWritable := by
  have opening : (ofSign .leftCurl).isWritable := rfl
  have closing : (ofSign .rightCurl).isWritable := rfl
  simp [braced, opening, closing]

theorem isWritable_of_isName {t : Token} (h : t.isName) : t.isWritable := by
  simp [isWritable, h]

theorem kind_of_isName {t : Token} (h : t.isName) : t.kind = .identifier := by
  simp only [isName, Bool.and_eq_true, beq_iff_eq] at h
  exact h.1

/-- Operators between two operands are signs, and those can be written. -/
theorem isWritable_of_isBinary {t : Token} (h : t.isBinary) : t.isWritable := by
  simp only [isBinary, Bool.and_eq_true, beq_iff_eq, decide_eq_true_eq] at h
  have signs : ∀ kind ∈ binaryKinds, kind ≠ .endOfInput ∧ kind.symbol?.isSome := by decide
  obtain ⟨notEnd, symbol⟩ := signs t.kind h.2
  simp [isWritable, isSign, h.1, notEnd, symbol]

theorem isWritable_of_isUnary {t : Token} (h : t.isUnary) : t.isWritable := by
  simp only [isUnary, Bool.and_eq_true, beq_iff_eq, decide_eq_true_eq] at h
  have signs : ∀ kind ∈ [Kind.plus, .minus, .not], kind ≠ .endOfInput ∧ kind.symbol?.isSome := by
    decide
  obtain ⟨notEnd, symbol⟩ := signs t.kind h.2
  simp [isWritable, isSign, h.1, notEnd, symbol]

/-- Every binary operator has its level. -/
theorem exists_level {t : Token} (h : t.isBinary) : ∃ level : Level, t.kind ∈ level.operators := by
  simp only [isBinary, Bool.and_eq_true, decide_eq_true_eq] at h
  have levels : ∀ kind ∈ binaryKinds, ∃ level ∈ [Level.conditions, .relations, .sums, .products],
      kind ∈ level.operators := by decide
  obtain ⟨level, -, mem⟩ := levels t.kind h.2
  exact ⟨level, mem⟩

end Token

namespace WrittenAs

theorem expression {w : List Token} {tree : Tree} (h : WrittenAs .atom w tree) :
    WrittenAs .expression w tree := by
  obtain ⟨tree', spells, same⟩ := h.spells
  exact ⟨h.writable, tree', spells.expression_of_atom, same⟩

/-- In parentheses an expression is an atom. -/
theorem parenthesised {w : List Token} {tree : Tree} (h : WrittenAs .expression w tree) :
    WrittenAs .atom (Token.parenthesised w) tree := by
  obtain ⟨tree', spells, same⟩ := h.spells
  exact ⟨by simpa using h.writable, tree', .parenthesised rfl spells rfl, same⟩

theorem braced {w : List Token} {tree : Tree} (h : WrittenAs .statements w tree) :
    WrittenAs .block (Token.braced w) tree := by
  obtain ⟨tree', spells, same⟩ := h.spells
  exact ⟨by simpa using h.writable, tree', .block rfl spells rfl, same⟩

theorem assignment {w : List Token} {name : Token} {value : Tree} (isName : name.isName)
    (h : WrittenAs .atom w value) (start : Position) :
    WrittenAs .expression (.ofKeyword .letWord :: name :: .ofSign .assign :: w)
      (.assignment start name value) := by
  obtain ⟨value', spells, same⟩ := h.spells
  refine ⟨?_, _, .assignment (Token.isKeyword_ofKeyword _) (Token.kind_of_isName isName) rfl
    spells.expression_of_atom, ?_⟩
  · have equals : (Token.ofSign .assign).isWritable := rfl
    simp [Token.isWritable_of_isName isName, h.writable, equals]
  · simp only [Tree.unplaced, same]

/-- Two operands in parentheses leave only one reading, whatever the level of the operator. -/
theorem binary {w v : List Token} {left right : Tree} {operator : Token}
    (h : WrittenAs .atom w left) (isBinary : operator.isBinary) (h' : WrittenAs .atom v right) :
    WrittenAs .expression (w ++ operator :: v) (.binary left operator right) := by
  obtain ⟨left', spells, same⟩ := h.spells
  obtain ⟨right', spells', same'⟩ := h'.spells
  obtain ⟨level, mem⟩ := Token.exists_level isBinary
  have joined : Spells (.joined level) (w ++ operator :: v) (.binary left' operator right') :=
    .join (.operand (spells.operand_of_atom level)) mem (spells'.operand_of_atom level)
  refine ⟨?_, _, joined.expression_of_joined, ?_⟩
  · simp [h.writable, Token.isWritable_of_isBinary isBinary, h'.writable]
  · simp only [Tree.unplaced, same, same']

/-- A minus or a plus belongs to a factor and a `not` to a comparison, so that an operator stands
before its operand in one way only. -/
theorem unary {w : List Token} {operand : Tree} {operator : Token} (isUnary : operator.isUnary)
    (h : WrittenAs .atom w operand) :
    WrittenAs .expression (operator :: w) (.unary operator operand) := by
  obtain ⟨operand', spells, same⟩ := h.spells
  have signed (kind : operator.kind = .plus ∨ operator.kind = .minus) :
      Spells .expression (operator :: w) (.unary operator operand') := by
    have products : Spells (.joined .products) (operator :: w) (.unary operator operand') :=
      .operand (.signed kind (spells.operand_of_atom .products))
    exact products.expression_of_joined
  refine ⟨?_, .unary operator operand', ?_, by simp only [Tree.unplaced, same]⟩
  · simp [Token.isWritable_of_isUnary isUnary, h.writable]
  · simp only [Token.isUnary, Bool.and_eq_true, decide_eq_true_eq] at isUnary
    rcases List.mem_cons.mp isUnary.2 with plus | kind
    · exact signed (.inl plus)
    rcases List.mem_pair.mp kind with minus | not
    · exact signed (.inr minus)
    · exact .conditions (.operand (.negation not (spells.operand_of_atom .conditions)))

/-! #### Trees in a row -/

/-- Expressions in a row, each behind a sign of its own. -/
theorem further {p : Series} {kind : Token.Kind} (sign : (Token.ofSign kind).isWritable)
    (none : SpellsEach p [] [])
    (more : ∀ {w rest : List Token} {tree : Tree} {others : List Tree}, Spells .expression w tree →
      SpellsEach p rest others → SpellsEach p (.ofSign kind :: w ++ rest) (tree :: others))
    {pieces : List (List Token)} {trees : List Tree}
    (h : List.Forall₂ (WrittenAs .expression) pieces trees) :
    (pieces.flatMap (.ofSign kind :: ·)).all Token.isWritable ∧
      ∃ trees', SpellsEach p (pieces.flatMap (.ofSign kind :: ·)) trees' ∧
        Tree.unplacedEach trees' = Tree.unplacedEach trees := by
  induction h with
  | nil => exact ⟨rfl, [], none, rfl⟩
  | cons first _ ih =>
    obtain ⟨writable, trees', spellsEach, same⟩ := ih
    obtain ⟨tree', spells, same'⟩ := first.spells
    refine ⟨?_, tree' :: trees', more spells spellsEach, ?_⟩
    · rw [List.flatMap_cons, List.all_append, List.all_cons, sign, first.writable, writable]
      rfl
    · simp only [Tree.unplacedEach, same, same']

/-- Arguments in a row, with commas between them. -/
theorem arguments {pieces : List (List Token)} {trees : List Tree}
    (h : List.Forall₂ (WrittenAs .expression) pieces trees) :
    (Text.join (.ofSign .comma) pieces).all Token.isWritable ∧
      ∃ trees', SpellsEach .arguments (Text.join (.ofSign .comma) pieces) trees' ∧
        Tree.unplacedEach trees' = Tree.unplacedEach trees := by
  cases h with
  | nil => exact ⟨rfl, [], .noArguments, rfl⟩
  | cons first others =>
    obtain ⟨writable, trees', spellsEach, same⟩ :=
      further (p := .furtherArguments) rfl .noFurtherArguments (.furtherArgument rfl) others
    obtain ⟨tree', spells, same'⟩ := first.spells
    rw [Text.join_cons]
    refine ⟨?_, tree' :: trees', .argument spells spellsEach, ?_⟩
    · rw [List.all_append, first.writable, writable]
      rfl
    · simp only [Tree.unplacedEach, same, same']

theorem call {w : List Token} {pieces : List (List Token)} {callee : Tree} {trees : List Tree}
    (h : WrittenAs .atom w callee) (h' : List.Forall₂ (WrittenAs .expression) pieces trees)
    (stop : Position) :
    WrittenAs .expression (w ++ Token.parenthesised (Text.join (.ofSign .comma) pieces))
      (.call callee trees stop) := by
  obtain ⟨callee', spells, same⟩ := h.spells
  obtain ⟨writable, trees', spellsEach, same'⟩ := arguments h'
  have called : Spells .call (w ++ Token.parenthesised (Text.join (.ofSign .comma) pieces))
      (.call callee' trees' (Token.ofSign .rightParen).stop) := by
    have whole := Spells.call spells (Token.kind_ofSign .leftParen) spellsEach
      (Token.kind_ofSign .rightParen)
    simpa [Token.parenthesised] using whole
  have products : Spells (.joined .products) _ _ := .operand (.unsigned called)
  refine ⟨?_, _, products.expression_of_joined, ?_⟩
  · simp [h.writable, writable]
  · simp only [Tree.unplaced, same, same']

/-- Statements in a row, with separators between them. -/
theorem sequence {pieces : List (List Token)} {trees : List Tree} (ne : trees ≠ [])
    (h : List.Forall₂ (WrittenAs .expression) pieces trees) (start stop : Position) :
    WrittenAs .statements (Text.join (.ofSign .separator) pieces)
      (.sequence trees start stop) := by
  cases h with
  | nil => exact absurd rfl ne
  | @cons piece tree pieces trees first others =>
    have between : Separators [Token.ofSign .separator] := List.forall_mem_singleton.mpr rfl
    obtain ⟨writable, trees', spellsEach, same⟩ := further (p := .furtherStatements) rfl
      (.noStatements (List.forall_mem_nil _)) (.statement between (List.cons_ne_nil _ _)) others
    obtain ⟨tree', spells, same'⟩ := first.spells
    -- the first statement has a first token, with which the sequence begins
    obtain ⟨t, w, eq, -⟩ := spells.begins
    rw [Text.join_cons]
    obtain ⟨start', stop', spans⟩ := exists_spans
      (w := [] ++ piece ++ pieces.flatMap (Token.ofSign .separator :: ·)) (by simp [eq])
    refine ⟨?_, _, .statements (List.forall_mem_nil _) spells spellsEach spans, ?_⟩
    · rw [List.all_append, first.writable, writable]
      rfl
    · simp only [Tree.unplaced, Tree.unplacedEach, same, same']

/-! #### Blocks with headers -/

theorem conditional {w v : List Token} {condition body : Tree} (h : WrittenAs .atom w condition)
    (h' : WrittenAs .statements v body) (start stop : Position) :
    WrittenAs .expression (.ofKeyword .ifWord :: Token.parenthesised w ++ Token.braced v)
      (.conditional (.guarded condition body .none) start stop) := by
  obtain ⟨condition', spells, same⟩ := h.spells
  obtain ⟨body', spells', same'⟩ := h'.braced.spells
  obtain ⟨start', stop', spans⟩ := exists_spans (w := .ofKeyword .ifWord :: .ofSign .leftParen ::
    w ++ .ofSign .rightParen :: Token.braced v) (by simp)
  have whole := (Spells.conditional (Token.isKeyword_ofKeyword _) rfl spells.expression_of_atom rfl
    spells' spans).expression_of_atom
  refine ⟨?_, _, by simpa [Token.parenthesised] using whole, ?_⟩
  · simp [h.writable, h'.writable]
  · simp only [Tree.unplaced, Arms.unplaced, same, same']

/-- The `else` belongs to the one conditional before it. -/
theorem conditionalElse {w v u : List Token} {condition body other : Tree}
    (h : WrittenAs .atom w condition) (h' : WrittenAs .statements v body)
    (h'' : WrittenAs .statements u other) (start stop : Position) :
    WrittenAs .expression (.ofKeyword .ifWord :: Token.parenthesised w ++ Token.braced v ++
        .ofKeyword .elseWord :: Token.braced u)
      (.conditional (.guarded condition body (.otherwise other)) start stop) := by
  obtain ⟨condition', spells, same⟩ := h.spells
  obtain ⟨body', spells', same'⟩ := h'.braced.spells
  obtain ⟨other', spells'', same''⟩ := h''.braced.spells
  obtain ⟨start', stop', spans⟩ := exists_spans (w := .ofKeyword .ifWord :: .ofSign .leftParen ::
    w ++ .ofSign .rightParen :: Token.braced v ++ .ofKeyword .elseWord :: Token.braced u) (by simp)
  have whole := (Spells.conditionalElse (Token.isKeyword_ofKeyword _) rfl
    spells.expression_of_atom rfl spells' (Token.isKeyword_ofKeyword _) spells''
    spans).expression_of_atom
  refine ⟨?_, _, by simpa [Token.parenthesised] using whole, ?_⟩
  · simp [h.writable, h'.writable, h''.writable]
  · simp only [Tree.unplaced, Arms.unplaced, same, same', same'']

/-- The condition and the update of a loop stand in parentheses, and so they are phrases of the
levels that its header asks for. -/
theorem forLoop {name : Token} {w₁ w₂ w₃ v : List Token} {initial condition update body : Tree}
    (isName : name.isName) (h₁ : WrittenAs .atom w₁ initial) (h₂ : WrittenAs .atom w₂ condition)
    (h₃ : WrittenAs .atom w₃ update) (h : WrittenAs .statements v body)
    (letStart start stop : Position) :
    WrittenAs .expression (.ofKeyword .forWord :: Token.parenthesised
        ((.ofKeyword .letWord :: name :: .ofSign .assign :: w₁) ++ .ofSign .comma :: w₂ ++
          .ofSign .comma :: w₃) ++ Token.braced v)
      (.forLoop letStart name initial condition update body start stop) := by
  obtain ⟨initial', spells₁, same₁⟩ := h₁.spells
  obtain ⟨condition', spells₂, same₂⟩ := h₂.spells
  obtain ⟨update', spells₃, same₃⟩ := h₃.spells
  obtain ⟨body', spells, same⟩ := h.braced.spells
  -- the header has the assignment that its first part is written as
  have assigned : Spells .expression (.ofKeyword .letWord :: name :: .ofSign .assign :: w₁)
      (.assignment .nowhere name initial') :=
    .assignment (Token.isKeyword_ofKeyword _) (Token.kind_of_isName isName) rfl
      spells₁.expression_of_atom
  obtain ⟨start', stop', spans⟩ := exists_spans (w := .ofKeyword .forWord :: .ofSign .leftParen ::
    (.ofKeyword .letWord :: name :: .ofSign .assign :: w₁) ++ .ofSign .comma :: w₂ ++
      .ofSign .comma :: w₃ ++ .ofSign .rightParen :: Token.braced v) (by simp)
  have whole := (Spells.forLoop (Token.isKeyword_ofKeyword _) rfl assigned rfl
    (spells₂.operand_of_atom .conditions) rfl (spells₃.operand_of_atom .relations) rfl spells
    spans).expression_of_atom
  refine ⟨?_, _, by simpa [Token.parenthesised] using whole, ?_⟩
  · have equals : (Token.ofSign .assign).isWritable := rfl
    have comma : (Token.ofSign .comma).isWritable := rfl
    simp [Token.isWritable_of_isName isName, equals, comma, h₁.writable, h₂.writable, h₃.writable,
      h.writable]
  · simp only [Tree.unplaced, same₁, same₂, same₃, same]

theorem whileLoop {w v : List Token} {condition body : Tree} (h : WrittenAs .atom w condition)
    (h' : WrittenAs .statements v body) (start stop : Position) :
    WrittenAs .expression (.ofKeyword .whileWord :: Token.parenthesised w ++ Token.braced v)
      (.whileLoop condition body start stop) := by
  obtain ⟨condition', spells, same⟩ := h.spells
  obtain ⟨body', spells', same'⟩ := h'.braced.spells
  obtain ⟨start', stop', spans⟩ := exists_spans (w := .ofKeyword .whileWord ::
    .ofSign .leftParen :: w ++ .ofSign .rightParen :: Token.braced v) (by simp)
  have whole := (Spells.whileLoop (Token.isKeyword_ofKeyword _) rfl spells.expression_of_atom rfl
    spells' spans).expression_of_atom
  refine ⟨?_, _, by simpa [Token.parenthesised] using whole, ?_⟩
  · simp [h.writable, h'.writable]
  · simp only [Tree.unplaced, same, same']

/-- Names with commas between them are a list of parameters. -/
theorem parameters {names : List Token} (h : names.all Token.isName) :
    Parameters (Text.join (.ofSign .comma) (names.map ([·]))) names ∧
      (Text.join (.ofSign .comma) (names.map ([·]))).all Token.isWritable := by
  -- names behind the first have a comma in front
  have further {names : List Token} (h : names.all Token.isName) :
      FurtherParameters ((names.map ([·])).flatMap (Token.ofSign .comma :: ·)) names ∧
        ((names.map ([·])).flatMap (Token.ofSign .comma :: ·)).all Token.isWritable := by
    induction names with
    | nil => exact ⟨.none, rfl⟩
    | cons name names ih =>
      obtain ⟨isName, others⟩ := Bool.and_eq_true_iff.mp h
      obtain ⟨spells, writable⟩ := ih others
      refine ⟨.more rfl (Token.kind_of_isName isName) spells, ?_⟩
      have comma : (Token.ofSign .comma).isWritable := rfl
      rw [List.map_cons, List.flatMap_cons, List.all_append, writable]
      simp [comma, Token.isWritable_of_isName isName]
  cases names with
  | nil => exact ⟨.none, rfl⟩
  | cons name names =>
    obtain ⟨isName, others⟩ := Bool.and_eq_true_iff.mp h
    obtain ⟨spells, writable⟩ := further others
    rw [List.map_cons, Text.join_cons]
    refine ⟨.some (Token.kind_of_isName isName) spells, ?_⟩
    rw [List.all_append, writable]
    simp [Token.isWritable_of_isName isName]

theorem function {name : Token} {names v : List Token} {body : Tree} (isName : name.isName)
    (areNames : names.all Token.isName) (h : WrittenAs .statements v body)
    (start stop : Position) :
    WrittenAs .expression (.ofKeyword .funcWord :: name ::
        Token.parenthesised (Text.join (.ofSign .comma) (names.map ([·]))) ++ Token.braced v)
      (.function name names body start stop) := by
  obtain ⟨declares, writable⟩ := parameters areNames
  obtain ⟨body', spells, same⟩ := h.braced.spells
  obtain ⟨start', stop', spans⟩ := exists_spans (w := .ofKeyword .funcWord :: name ::
    .ofSign .leftParen :: Text.join (.ofSign .comma) (names.map ([·])) ++
      .ofSign .rightParen :: Token.braced v) (by simp)
  have whole := (Spells.function (Token.isKeyword_ofKeyword _) (Token.kind_of_isName isName) rfl
    declares rfl spells spans).expression_of_atom
  refine ⟨?_, _, by simpa [Token.parenthesised] using whole, ?_⟩
  · simp [Token.isWritable_of_isName isName, writable, h.writable]
  · simp only [Tree.unplaced, same]

end WrittenAs

/-! ### Reading what is written -/

namespace Tree

/-- A literal or a name is written as its token. -/
theorem writtenAs_leaf {tree : Tree} (h : tree.isExpression) (leaf : tree.isCompound = false)
    (full : Bool) : WrittenAs .atom (tree.tokens full) tree := by
  cases tree with
  | number t =>
    have isNumber : t.isNumber := h
    have kind : t.kind = .int := by
      simp only [Token.isNumber, Bool.and_eq_true, beq_iff_eq] at isNumber
      exact isNumber.1
    exact ⟨by simp [tokens, Token.isWritable, isNumber], _, .number (.inl kind), rfl⟩
  | string t =>
    have isString : t.isString := h
    have kind : t.kind = .string := by
      simp only [Token.isString, Bool.and_eq_true, beq_iff_eq] at isString
      exact isString.1
    exact ⟨by simp [tokens, Token.isWritable, isString], _, .string kind, rfl⟩
  | reference t =>
    have isName : t.isName := h
    exact ⟨by simp [tokens, Token.isWritable, isName], _, .reference (Token.kind_of_isName isName),
      rfl⟩
  | _ => cases leaf

/-- An expression as an operand. -/
theorem writtenAs_enclose {tree : Tree} {full : Bool} (h : tree.isExpression)
    (written : WrittenAs .expression (tree.tokens full) tree) :
    WrittenAs .atom (tree.enclose (tree.tokens full)) tree := by
  unfold enclose
  split
  · exact written.parenthesised
  · next leaf => exact writtenAs_leaf h (by simpa using leaf) full

mutual

/-- The tokens of an expression spell it, with or without parentheses around its statements. -/
theorem writtenAs (full : Bool) (tree : Tree) (h : tree.isExpression) :
    WrittenAs .expression (tree.tokens full) tree := by
  -- operands are enclosed before they are put together, as `tokens` does
  match tree with
  | .number _ | .string _ | .reference _ => exact (writtenAs_leaf h rfl full).expression
  | .assignment start name value =>
    simp only [isExpression, Bool.and_eq_true] at h
    obtain ⟨isName, expression⟩ := h
    exact .assignment isName (writtenAs_enclose expression (writtenAs full value expression)) start
  | .binary left operator right =>
    simp only [isExpression, Bool.and_eq_true] at h
    obtain ⟨⟨expression, isBinary⟩, expression'⟩ := h
    exact .binary (writtenAs_enclose expression (writtenAs full left expression)) isBinary
      (writtenAs_enclose expression' (writtenAs full right expression'))
  | .unary operator operand =>
    simp only [isExpression, Bool.and_eq_true] at h
    obtain ⟨isUnary, expression⟩ := h
    exact .unary isUnary (writtenAs_enclose expression (writtenAs full operand expression))
  | .conditional arms start stop =>
    match arms with
    | .guarded condition body .none =>
      simp only [isExpression, Arms.isSingle, Bool.and_eq_true] at h
      obtain ⟨expression, script⟩ := h
      have written := WrittenAs.conditional
        (writtenAs_enclose expression (writtenAs full condition expression))
        (writtenAs_script full body script) start stop
      simpa [tokens, Arms.tokens] using written
    | .guarded condition body (.otherwise other) =>
      simp only [isExpression, Arms.isSingle, Bool.and_eq_true] at h
      obtain ⟨⟨expression, script⟩, script'⟩ := h
      exact .conditionalElse (writtenAs_enclose expression (writtenAs full condition expression))
        (writtenAs_script full body script) (writtenAs_script full other script') start stop
    | .none | .otherwise _ | .guarded _ _ (.guarded _ _ _) => cases h
  | .forLoop letStart name initial condition update body start stop =>
    simp only [isExpression, Bool.and_eq_true] at h
    obtain ⟨⟨⟨⟨isName, expression₁⟩, expression₂⟩, expression₃⟩, script⟩ := h
    exact .forLoop isName (writtenAs_enclose expression₁ (writtenAs full initial expression₁))
      (writtenAs_enclose expression₂ (writtenAs full condition expression₂))
      (writtenAs_enclose expression₃ (writtenAs full update expression₃))
      (writtenAs_script full body script) letStart start stop
  | .whileLoop condition body start stop =>
    simp only [isExpression, Bool.and_eq_true] at h
    obtain ⟨expression, script⟩ := h
    exact .whileLoop (writtenAs_enclose expression (writtenAs full condition expression))
      (writtenAs_script full body script) start stop
  | .function name parameters body start stop =>
    simp only [isExpression, Bool.and_eq_true] at h
    obtain ⟨⟨isName, areNames⟩, script⟩ := h
    exact .function isName areNames (writtenAs_script full body script) start stop
  | .call callee arguments stop =>
    simp only [isExpression, Bool.and_eq_true] at h
    obtain ⟨expression, expressions⟩ := h
    exact .call (writtenAs_enclose expression (writtenAs full callee expression))
      (writtenAs_each full true arguments expressions) stop
  | .sequence _ _ _ => cases h

theorem writtenAs_script (full : Bool) (tree : Tree) (h : tree.isScript) :
    WrittenAs .statements (tree.tokens full) tree := by
  match tree with
  | .sequence statements start stop =>
    simp only [isScript, Bool.and_eq_true, Bool.not_eq_true'] at h
    obtain ⟨ne, expressions⟩ := h
    exact .sequence (List.isEmpty_eq_false_iff.mp ne)
      (writtenAs_each full full statements expressions) start stop
  | .number _ | .string _ | .reference _ | .assignment .. | .binary .. | .unary .. |
    .conditional .. | .forLoop .. | .whileLoop .. | .function .. | .call .. => cases h

theorem writtenAs_each (full operands : Bool) (trees : List Tree) (h : areExpressions trees) :
    List.Forall₂ (WrittenAs .expression) (tokensEach full operands trees) trees := by
  match trees with
  | [] => exact .nil
  | tree :: others =>
    simp only [areExpressions, Bool.and_eq_true] at h
    obtain ⟨expression, expressions⟩ := h
    have written := writtenAs full tree expression
    refine .cons ?_ (writtenAs_each full operands others expressions)
    split
    · exact (writtenAs_enclose expression written).expression
    · exact written

end

end Tree

/-- Reading undoes writing: the text of a script, whose compound operands are in parentheses and
perhaps its compound statements too, has the tree of the script again, up to places. -/
theorem Source.tree_written {root : Tree} (h : root.isScript) (full : Bool) (name : String) :
    ∃ root', Source.tree ⟨name, root.written full⟩ = .ok root' ∧
      root'.unplaced = root.unplaced := by
  have written := root.writtenAs_script full h
  obtain ⟨tree, spells, same⟩ := written.spells
  obtain ⟨w, cut, alike⟩ := Token.exists_cut_writeAll (List.all_eq_true.mp written.writable)
    (.start ⟨name, root.written full⟩)
  obtain ⟨root', spells', same'⟩ := spells.moved alike
  refine ⟨root', Source.tree_eq_ok_iff.mpr ⟨w, ?_, spells'⟩, same'.trans same⟩
  simpa [Tree.written] using cut

/-- A loop over `x`, with a call in its body. -/
def Tree.callingLoop : Tree :=
  let name (word : String) : Token := ⟨.identifier, some (.text word), .nowhere, .nowhere⟩
  let zero : Tree := .number ⟨.int, some (.int 0), .nowhere, .nowhere⟩
  let quote : Tree := .string ⟨.string, some (.text "a\"b"), .nowhere, .nowhere⟩
  let less : Tree := .binary (.reference (name "x")) (.ofSign .less) (.reference (name "n"))
  let body : Tree := .sequence [.call (.reference (name "f")) [zero, quote] .nowhere]
    .nowhere .nowhere
  .sequence [.forLoop .nowhere (name "x") zero less (.unary (.ofSign .minus) zero) body
    .nowhere .nowhere] .nowhere .nowhere

theorem Source.tree_written_callingLoop : ∃ root,
    Source.tree ⟨"", "for (let x = 0, (x < n), (- 0)) \x7b f(0, \"a\\\"b\") \x7d"⟩ = .ok root ∧
      root.unplaced = Tree.callingLoop.unplaced := by
  have text : Tree.callingLoop.written false =
      "for (let x = 0, (x < n), (- 0)) \x7b f(0, \"a\\\"b\") \x7d" := by
    decide +kernel
  have isScript : Tree.callingLoop.isScript := by decide +kernel
  exact text ▸ Source.tree_written isScript false ""

end Scriptlet
