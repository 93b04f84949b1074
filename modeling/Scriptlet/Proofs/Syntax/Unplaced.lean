import Mathlib.Data.List.Basic
import Scriptlet.Proofs.Code.Lowering
import Scriptlet.Proofs.Syntax.Phrase
import Scriptlet.Tree.Rendering

/-!
# Trees without places

Where a word stands in its source is of no concern to the grammar, and none to the code. Words
that differ in their places alone spell trees that differ in their places alone, and such trees
have the same code and are written the same.

## Main definitions

* `Token.unplaced`, `Tree.unplaced` — the same with all places forgotten
* `Moves` — what a word spells does not depend on where it stands

## Main results

* `Spells.moved` — words of the same content spell trees of the same content
* `Tree.lower_unplaced`, `Tree.render_unplaced` — the code of a tree does not depend on places, nor
  does its text
-/

namespace Scriptlet

/-- The one place that all others are forgotten for. -/
def Position.nowhere : Position := .start ⟨"", ""⟩

/-- A token with its places forgotten. -/
def Token.unplaced (t : Token) : Token := { t with start := .nowhere, stop := .nowhere }

mutual

/-- A tree with its places forgotten. -/
def Tree.unplaced : Tree → Tree
  | .number t => .number t.unplaced
  | .string t => .string t.unplaced
  | .reference t => .reference t.unplaced
  | .assignment _ name value => .assignment .nowhere name.unplaced value.unplaced
  | .binary left operator right => .binary left.unplaced operator.unplaced right.unplaced
  | .unary operator operand => .unary operator.unplaced operand.unplaced
  | .conditional arms _ _ => .conditional arms.unplaced .nowhere .nowhere
  | .forLoop _ name initial condition update body _ _ =>
    .forLoop .nowhere name.unplaced initial.unplaced condition.unplaced update.unplaced
      body.unplaced .nowhere .nowhere
  | .whileLoop condition body _ _ =>
    .whileLoop condition.unplaced body.unplaced .nowhere .nowhere
  | .function name parameters body _ _ =>
    .function name.unplaced (parameters.map Token.unplaced) body.unplaced .nowhere .nowhere
  | .call callee arguments _ => .call callee.unplaced (Tree.unplacedEach arguments) .nowhere
  | .sequence statements _ _ => .sequence (Tree.unplacedEach statements) .nowhere .nowhere

/-- The arms of a conditional with their places forgotten. -/
def Arms.unplaced : Arms → Arms
  | .none => .none
  | .otherwise body => .otherwise body.unplaced
  | .guarded condition body others =>
    .guarded condition.unplaced body.unplaced others.unplaced

/-- Trees in turn with their places forgotten. -/
def Tree.unplacedEach : List Tree → List Tree
  | [] => []
  | tree :: others => tree.unplaced :: Tree.unplacedEach others

end

theorem Tree.unplacedEach_eq_map (trees : List Tree) :
    Tree.unplacedEach trees = trees.map Tree.unplaced := by
  induction trees with
  | nil => rfl
  | cons tree others ih => rw [Tree.unplacedEach, List.map_cons, ih]

/-! ### Code -/

theorem Tree.name?_unplaced (tree : Tree) : tree.unplaced.name? = tree.name? := by
  cases tree <;> rfl

mutual

/-- The code of a tree does not depend on places. -/
theorem Tree.lower_unplaced (tree : Tree) (k : Nat) : tree.unplaced.lower k = tree.lower k := by
  match tree with
  | .number t | .string t | .reference t => rfl
  | .assignment _ name value =>
    simp only [Tree.unplaced, Tree.lower, value.lower_unplaced]
    rfl
  | .binary left operator right =>
    simp only [Tree.unplaced, Tree.lower, left.lower_unplaced, right.lower_unplaced]
    rfl
  | .unary operator operand =>
    simp only [Tree.unplaced, Tree.lower, operand.lower_unplaced]
    rfl
  | .conditional arms _ _ =>
    cases arms with
    | none | otherwise body => rfl
    | guarded condition body others =>
      -- the body has the same code from any number on
      have sameBody : body.unplaced.lower = body.lower := funext body.lower_unplaced
      simp only [Tree.unplaced, Arms.unplaced, Tree.lower, condition.lower_unplaced, sameBody]
  | .forLoop _ name initial condition update body _ _ =>
    have sameBody : body.unplaced.lower = body.lower := funext body.lower_unplaced
    simp only [Tree.unplaced, Tree.lower, initial.lower_unplaced, condition.lower_unplaced,
      update.lower_unplaced, sameBody]
    rfl
  | .whileLoop condition body _ _ =>
    have sameBody : body.unplaced.lower = body.lower := funext body.lower_unplaced
    simp only [Tree.unplaced, Tree.lower, condition.lower_unplaced, sameBody]
  | .function name parameters body _ _ =>
    simp only [Tree.unplaced, Tree.lower, body.lower_unplaced]
    rfl
  | .call callee arguments _ =>
    simp only [Tree.unplaced, Tree.lower, callee.name?_unplaced, callee.lower_unplaced,
      Tree.lowerEach_unplacedEach]
  | .sequence statements _ _ =>
    simp only [Tree.unplaced, Tree.lower, Tree.lowerEach_unplacedEach]

theorem Tree.lowerEach_unplacedEach (trees : List Tree) (k : Nat) :
    Tree.lowerEach (Tree.unplacedEach trees) k = Tree.lowerEach trees k := by
  match trees with
  | [] => rfl
  | tree :: others =>
    simp only [Tree.unplacedEach, Tree.lowerEach, tree.lower_unplaced,
      Tree.lowerEach_unplacedEach others]

end

/-- Trees of the same content have the same code. -/
theorem Tree.lowerEach_eq_of_unplaced_eq {trees trees' : List Tree}
    (h : trees.map Tree.unplaced = trees'.map Tree.unplaced) (k : Nat) :
    Tree.lowerEach trees k = Tree.lowerEach trees' k := by
  rw [← Tree.unplacedEach_eq_map, ← Tree.unplacedEach_eq_map] at h
  rw [← Tree.lowerEach_unplacedEach trees, h, Tree.lowerEach_unplacedEach]

/-! ### Writing -/

@[simp] theorem Token.toText_unplaced (t : Token) : t.unplaced.toText = t.toText := rfl

mutual

/-- A tree is written the same wherever it stands. -/
theorem Tree.render_unplaced (tree : Tree) : tree.unplaced.render = tree.render := by
  match tree with
  | .number t | .string t | .reference t => rfl
  | .assignment _ name value =>
    rw [Tree.unplaced, Tree.render_assignment, Tree.render_assignment, value.render_unplaced,
      Token.toText_unplaced]
  | .binary left operator right =>
    rw [Tree.unplaced, Tree.render_binary, Tree.render_binary, left.render_unplaced,
      right.render_unplaced, Token.toText_unplaced]
  | .unary operator operand =>
    rw [Tree.unplaced, Tree.render_unary, Tree.render_unary, operand.render_unplaced,
      Token.toText_unplaced]
  | .conditional arms _ _ =>
    rw [Tree.unplaced, Tree.render_conditional, Tree.render_conditional, arms.render_unplaced]
  | .forLoop _ name initial condition update body _ _ =>
    rw [Tree.unplaced, Tree.render_forLoop, Tree.render_forLoop, initial.render_unplaced,
      condition.render_unplaced, update.render_unplaced, body.render_unplaced,
      Token.toText_unplaced]
  | .whileLoop condition body _ _ =>
    rw [Tree.unplaced, Tree.render_whileLoop, Tree.render_whileLoop, condition.render_unplaced,
      body.render_unplaced]
  | .function name parameters body _ _ =>
    have names : (parameters.map Token.unplaced).map Token.toText =
        parameters.map Token.toText := by
      simp
    rw [Tree.unplaced, Tree.render_function, Tree.render_function, body.render_unplaced, names,
      Token.toText_unplaced]
  | .call callee arguments _ =>
    rw [Tree.unplaced, Tree.render_call, Tree.render_call, callee.render_unplaced,
      Tree.renderArguments_unplacedEach]
  | .sequence statements _ _ =>
    rw [Tree.unplaced, Tree.render_sequence, Tree.render_sequence,
      Tree.renderStatements_unplacedEach]

theorem Arms.render_unplaced (arms : Arms) : arms.unplaced.render = arms.render := by
  match arms with
  | .none => rfl
  | .otherwise body =>
    rw [Arms.unplaced, Arms.render_otherwise, Arms.render_otherwise, body.render_unplaced]
  | .guarded condition body others =>
    rw [Arms.unplaced, Arms.render_guarded, Arms.render_guarded, condition.render_unplaced,
      body.render_unplaced, others.render_unplaced]

theorem Tree.renderArguments_unplacedEach (trees : List Tree) :
    Tree.renderArguments (Tree.unplacedEach trees) = Tree.renderArguments trees := by
  match trees with
  | [] => rfl
  | [only] => exact congrArg (" " ++ ·) only.render_unplaced
  | first :: second :: others =>
    have rest := Tree.renderArguments_unplacedEach (second :: others)
    rw [Tree.unplacedEach, Tree.unplacedEach, Tree.renderArguments_cons,
      Tree.renderArguments_cons, first.render_unplaced, ← Tree.unplacedEach, rest]

theorem Tree.renderStatements_unplacedEach (trees : List Tree) :
    Tree.renderStatements (Tree.unplacedEach trees) = Tree.renderStatements trees := by
  match trees with
  | [] => rfl
  | [only] => exact only.render_unplaced
  | first :: second :: others =>
    have rest := Tree.renderStatements_unplacedEach (second :: others)
    rw [Tree.unplacedEach, Tree.unplacedEach, Tree.renderStatements_cons,
      Tree.renderStatements_cons, first.render_unplaced, ← Tree.unplacedEach, rest]

end

/-! ### Grammar -/

theorem Token.kind_of_unplaced_eq {t t' : Token} (h : t'.unplaced = t.unplaced) :
    t'.kind = t.kind :=
  (congrArg Token.kind h :)

theorem Token.isKeyword_of_unplaced_eq {t t' : Token} (h : t'.unplaced = t.unplaced)
    {k : Keyword} (word : t.isKeyword k) : t'.isKeyword k :=
  (congrArg (Token.isKeyword · k) h :).trans word

theorem Separators.moved {w w' : List Token} (h : Separators w)
    (alike : w'.map Token.unplaced = w.map Token.unplaced) : Separators w' := by
  intro t mem
  obtain ⟨u, mem', eq⟩ := List.mem_map.mp (alike ▸ List.mem_map_of_mem mem)
  exact (congrArg Token.kind eq).symm.trans (h u mem')

/-- A word with a token in it reaches from somewhere to somewhere. -/
theorem exists_spans {w : List Token} (ne : w ≠ []) : ∃ start stop, Spans w start stop :=
  ⟨(w.head ne).start, (w.getLast ne).stop, by rw [List.head?_eq_some_head ne]; rfl,
    by rw [List.getLast?_eq_some_getLast ne]; rfl⟩

theorem FurtherParameters.moved {w names w' : List Token} (h : FurtherParameters w names)
    (alike : w'.map Token.unplaced = w.map Token.unplaced) :
    ∃ names', FurtherParameters w' names' ∧
      names'.map Token.unplaced = names.map Token.unplaced := by
  induction h generalizing w' with
  | none => exact ⟨[], List.map_eq_nil_iff.mp alike ▸ .none, rfl⟩
  | @more comma name w names isComma isName _ ih =>
    simp only [List.map_cons, List.map_eq_cons_iff] at alike
    obtain ⟨comma', _, rfl, sameComma, name', v, rfl, sameName, alike⟩ := alike
    obtain ⟨names', further, same⟩ := ih alike
    refine ⟨name' :: names', .more ?_ ?_ further, by simp [sameName, same]⟩
    · exact (Token.kind_of_unplaced_eq sameComma).trans isComma
    · exact (Token.kind_of_unplaced_eq sameName).trans isName

theorem Parameters.moved {w names w' : List Token} (h : Parameters w names)
    (alike : w'.map Token.unplaced = w.map Token.unplaced) :
    ∃ names', Parameters w' names' ∧ names'.map Token.unplaced = names.map Token.unplaced := by
  cases h with
  | none => exact ⟨[], List.map_eq_nil_iff.mp alike ▸ .none, rfl⟩
  | some isName further =>
    simp only [List.map_cons, List.map_eq_cons_iff] at alike
    obtain ⟨name', v, rfl, sameName, alike⟩ := alike
    obtain ⟨names', further, same⟩ := further.moved alike
    exact ⟨name' :: names', .some ((Token.kind_of_unplaced_eq sameName).trans isName) further,
      by simp [sameName, same]⟩

/-- Only an assignment has the content of one. -/
theorem Tree.unplaced_eq_assignment {tree value : Tree} {start : Position} {name : Token}
    (h : tree.unplaced = (Tree.assignment start name value).unplaced) :
    ∃ start' name' value', tree = .assignment start' name' value' ∧
      name'.unplaced = name.unplaced ∧ value'.unplaced = value.unplaced := by
  cases tree <;> simp only [Tree.unplaced, Tree.assignment.injEq, reduceCtorEq, true_and] at h
  exact ⟨_, _, _, rfl, h.1, h.2⟩

/-- Only a sequence has the content of one. -/
theorem Tree.unplaced_eq_sequence {tree : Tree} {statements : List Tree} {start stop : Position}
    (h : tree.unplaced = (Tree.sequence statements start stop).unplaced) :
    ∃ statements' start' stop', tree = .sequence statements' start' stop' ∧
      statements'.map Tree.unplaced = statements.map Tree.unplaced := by
  cases tree <;> simp only [Tree.unplaced, Tree.sequence.injEq, reduceCtorEq, and_true] at h
  exact ⟨_, _, _, rfl, by rw [← Tree.unplacedEach_eq_map, h, Tree.unplacedEach_eq_map]⟩

/-! #### Words that are phrases wherever they stand -/

/-- Whatever has the content of the word is a phrase of this sort, and spells a tree with the
content of this one. -/
def Moves (p : Phrase) (w : List Token) (tree : Tree) : Prop :=
  ∀ ⦃w' : List Token⦄, w'.map Token.unplaced = w.map Token.unplaced →
    ∃ tree', Spells p w' tree' ∧ tree'.unplaced = tree.unplaced

/-- Whatever has the content of the word is a series of this sort, and spells trees with the
content of these. -/
def MovesEach (p : Series) (w : List Token) (trees : List Tree) : Prop :=
  ∀ ⦃w' : List Token⦄, w'.map Token.unplaced = w.map Token.unplaced →
    ∃ trees', SpellsEach p w' trees' ∧ Tree.unplacedEach trees' = Tree.unplacedEach trees

namespace Moves

variable {p q : Phrase} {w v : List Token} {t opening closing sign word : Token} {k : Keyword}
  {tree condition body : Tree} {start stop : Position}

/-- A phrase that is one of another sort as it is. -/
theorem through (rule : ∀ {w tree}, Spells p w tree → Spells q w tree) (inside : Moves p w tree) :
    Moves q w tree := by
  intro w' alike
  obtain ⟨tree', spells, same⟩ := inside alike
  exact ⟨tree', rule spells, same⟩

/-- A token by itself. -/
theorem leaf {node : Token → Tree} (forgets : ∀ t, (node t).unplaced = node t.unplaced)
    (rule : ∀ {u : Token}, u.kind = t.kind → Spells p [u] (node u)) : Moves p [t] (node t) := by
  intro w' alike
  simp only [List.map_cons, List.map_nil, List.map_eq_cons_iff, List.map_eq_nil_iff] at alike
  obtain ⟨t', _, rfl, same, rfl⟩ := alike
  refine ⟨node t', rule (Token.kind_of_unplaced_eq same), ?_⟩
  rw [forgets, forgets, same]

/-- A phrase between two tokens. -/
theorem enclosed (rule : ∀ {t u : Token} {w tree}, t.kind = opening.kind → Spells p w tree →
      u.kind = closing.kind → Spells q (t :: w ++ [u]) tree)
    (inside : Moves p w tree) : Moves q (opening :: w ++ [closing]) tree := by
  intro w' alike
  simp only [List.map_append, List.map_cons, List.map_nil, List.cons_append,
    List.map_eq_cons_iff, List.map_eq_append_iff, List.map_eq_nil_iff] at alike
  obtain ⟨opening', _, rfl, same, v, _, rfl, alike, closing', _, rfl, same', rfl⟩ := alike
  obtain ⟨tree', spells, sameTree⟩ := inside alike
  exact ⟨tree', rule (Token.kind_of_unplaced_eq same) spells (Token.kind_of_unplaced_eq same'),
    sameTree⟩

/-- An operand behind its operator. -/
theorem unary (rule : ∀ {t : Token} {w operand}, t.kind = sign.kind → Spells p w operand →
      Spells q (t :: w) (.unary t operand))
    (operand : Moves p w tree) : Moves q (sign :: w) (.unary sign tree) := by
  intro w' alike
  simp only [List.map_cons, List.map_eq_cons_iff] at alike
  obtain ⟨sign', v, rfl, same, alike⟩ := alike
  obtain ⟨operand', spells, sameOperand⟩ := operand alike
  refine ⟨_, rule (Token.kind_of_unplaced_eq same) spells, ?_⟩
  simp only [Tree.unplaced, same, sameOperand]

theorem join {level : Level} {left right : Tree} {operator : Token}
    (first : Moves (.joined level) w left) (joins : operator.kind ∈ level.operators)
    (second : Moves level.operand v right) :
    Moves (.joined level) (w ++ operator :: v) (.binary left operator right) := by
  intro w' alike
  simp only [List.map_append, List.map_cons, List.map_eq_append_iff, List.map_eq_cons_iff]
    at alike
  obtain ⟨w', _, rfl, alike, operator', v', rfl, same, alike'⟩ := alike
  obtain ⟨left', spells, sameLeft⟩ := first alike
  obtain ⟨right', spells', sameRight⟩ := second alike'
  refine ⟨_, .join spells (Token.kind_of_unplaced_eq same ▸ joins) spells', ?_⟩
  simp only [Tree.unplaced, same, sameLeft, sameRight]

theorem assignment {name equals : Token} (isLet : word.isKeyword .letWord)
    (isName : name.kind = .identifier) (assigns : equals.kind = .assign)
    (value : Moves .expression w tree) :
    Moves .expression (word :: name :: equals :: w) (.assignment start name tree) := by
  intro w' alike
  simp only [List.map_cons, List.map_eq_cons_iff] at alike
  obtain ⟨word', _, rfl, same₁, name', _, rfl, same₂, equals', v, rfl, same₃, alike⟩ := alike
  obtain ⟨value', spells, sameValue⟩ := value alike
  refine ⟨_, .assignment (Token.isKeyword_of_unplaced_eq same₁ isLet)
    ((Token.kind_of_unplaced_eq same₂).trans isName)
    ((Token.kind_of_unplaced_eq same₃).trans assigns) spells, ?_⟩
  simp only [Tree.unplaced, same₂, sameValue]

theorem call {trees : List Tree} (callee : Moves .atom w tree) (opens : opening.kind = .leftParen)
    (arguments : MovesEach .arguments v trees) (closes : closing.kind = .rightParen) :
    Moves .call (w ++ opening :: v ++ [closing]) (.call tree trees stop) := by
  intro w' alike
  simp only [List.append_assoc, List.map_append, List.map_cons, List.map_nil, List.cons_append,
    List.map_eq_append_iff, List.map_eq_cons_iff, List.map_eq_nil_iff] at alike
  obtain ⟨w', _, rfl, alike, opening', _, rfl, same, v', _, rfl, alike', closing', _, rfl, same',
    rfl⟩ := alike
  obtain ⟨callee', spells, sameCallee⟩ := callee alike
  obtain ⟨arguments', spellsEach, sameArguments⟩ := arguments alike'
  have whole := Spells.call spells ((Token.kind_of_unplaced_eq same).trans opens) spellsEach
    ((Token.kind_of_unplaced_eq same').trans closes)
  refine ⟨_, by simpa using whole, ?_⟩
  simp only [Tree.unplaced, sameCallee, sameArguments]

theorem statements {lead rest : List Token} {others : List Tree} (separators : Separators lead)
    (first : Moves .expression w tree) (further : MovesEach .furtherStatements rest others) :
    Moves .statements (lead ++ w ++ rest) (.sequence (tree :: others) start stop) := by
  intro w' alike
  simp only [List.map_append, List.map_eq_append_iff] at alike
  obtain ⟨_, v₃, rfl, ⟨v₁, v₂, rfl, alike₁, alike₂⟩, alike₃⟩ := alike
  obtain ⟨first', spells, sameFirst⟩ := first alike₂
  obtain ⟨others', spellsEach, sameOthers⟩ := further alike₃
  obtain ⟨t, v, rfl, -⟩ := spells.begins
  obtain ⟨start, stop, spans⟩ := exists_spans (w := v₁ ++ t :: v ++ v₃) (by simp)
  refine ⟨_, .statements (separators.moved alike₁) spells spellsEach spans, ?_⟩
  simp only [Tree.unplaced, Tree.unplacedEach, sameFirst, sameOthers]

/-- A body under a condition, behind a word. -/
theorem guarded {node : Tree → Tree → Position → Position → Tree}
    (forgets : ∀ {condition body condition' body' start stop start' stop'},
      condition'.unplaced = condition.unplaced → body'.unplaced = body.unplaced →
        (node condition' body' start' stop').unplaced = (node condition body start stop).unplaced)
    (rule : ∀ {word opening closing w v condition body start stop}, word.isKeyword k →
      opening.kind = .leftParen → Spells .expression w condition → closing.kind = .rightParen →
        Spells .block v body → Spans (word :: opening :: w ++ closing :: v) start stop →
          Spells .atom (word :: opening :: w ++ closing :: v) (node condition body start stop))
    (isWord : word.isKeyword k) (opens : opening.kind = .leftParen)
    (first : Moves .expression w condition) (closes : closing.kind = .rightParen)
    (second : Moves .block v body) :
    Moves .atom (word :: opening :: w ++ closing :: v) (node condition body start stop) := by
  intro w' alike
  simp only [List.map_append, List.map_cons, List.cons_append, List.map_eq_cons_iff,
    List.map_eq_append_iff] at alike
  obtain ⟨word', _, rfl, same₁, opening', _, rfl, same₂, w', _, rfl, alike, closing', v', rfl,
    same₃, alike'⟩ := alike
  obtain ⟨condition', spells, sameCondition⟩ := first alike
  obtain ⟨body', spells', sameBody⟩ := second alike'
  obtain ⟨start', stop', spans⟩ :=
    exists_spans (w := word' :: opening' :: w' ++ closing' :: v') (by simp)
  exact ⟨_, rule (Token.isKeyword_of_unplaced_eq same₁ isWord)
    ((Token.kind_of_unplaced_eq same₂).trans opens) spells
    ((Token.kind_of_unplaced_eq same₃).trans closes) spells' spans,
    forgets sameCondition sameBody⟩

theorem conditionalElse {v' : List Token} {word' : Token} {other : Tree}
    (isIf : word.isKeyword .ifWord) (opens : opening.kind = .leftParen)
    (first : Moves .expression w condition) (closes : closing.kind = .rightParen)
    (second : Moves .block v body) (isElse : word'.isKeyword .elseWord)
    (third : Moves .block v' other) :
    Moves .atom (word :: opening :: w ++ closing :: v ++ word' :: v')
      (.conditional (.guarded condition body (.otherwise other)) start stop) := by
  intro w' alike
  simp only [List.append_assoc, List.map_append, List.map_cons, List.cons_append,
    List.map_eq_cons_iff, List.map_eq_append_iff] at alike
  -- the word taken apart as the phrase is: keywords, brackets and three parts
  obtain ⟨if', _, rfl, same₁, opening', _, rfl, same₂, w₁, _, rfl, alike₁, closing', _, rfl,
    same₃, w₂, _, rfl, alike₂, else', w₃, rfl, same₄, alike₃⟩ := alike
  obtain ⟨_, spells₁, sameCondition⟩ := first alike₁
  obtain ⟨_, spells₂, sameBody⟩ := second alike₂
  obtain ⟨_, spells₃, sameOther⟩ := third alike₃
  obtain ⟨start', stop', spans⟩ := exists_spans
    (w := if' :: opening' :: w₁ ++ closing' :: w₂ ++ else' :: w₃) (by simp)
  have whole := Spells.conditionalElse (Token.isKeyword_of_unplaced_eq same₁ isIf)
    ((Token.kind_of_unplaced_eq same₂).trans opens) spells₁
    ((Token.kind_of_unplaced_eq same₃).trans closes) spells₂
    (Token.isKeyword_of_unplaced_eq same₄ isElse) spells₃ spans
  refine ⟨_, by simpa using whole, ?_⟩
  simp only [Tree.unplaced, Arms.unplaced, sameCondition, sameBody, sameOther]

theorem forLoop {w₁ w₂ w₃ : List Token} {name comma comma' : Token} {letStart : Position}
    {initial update : Tree} (isFor : word.isKeyword .forWord) (opens : opening.kind = .leftParen)
    (first : Moves .expression w₁ (.assignment letStart name initial))
    (parts : comma.kind = .comma) (second : Moves .comparison w₂ condition)
    (parts' : comma'.kind = .comma) (third : Moves (.joined .sums) w₃ update)
    (closes : closing.kind = .rightParen) (fourth : Moves .block v body) :
    Moves .atom (word :: opening :: w₁ ++ comma :: w₂ ++ comma' :: w₃ ++ closing :: v)
      (.forLoop letStart name initial condition update body start stop) := by
  intro w' alike
  simp only [List.append_assoc, List.map_append, List.map_cons, List.cons_append,
    List.map_eq_cons_iff, List.map_eq_append_iff] at alike
  obtain ⟨word', _, rfl, same₁, opening', _, rfl, same₂, w₁, _, rfl, alike₁, comma₁, _, rfl,
    same₃, w₂, _, rfl, alike₂, comma₂, _, rfl, same₄, w₃, _, rfl, alike₃, closing', w₄, rfl,
    same₅, alike₄⟩ := alike
  obtain ⟨_, spells₁, sameAssigned⟩ := first alike₁
  obtain ⟨_, spells₂, sameCondition⟩ := second alike₂
  obtain ⟨_, spells₃, sameUpdate⟩ := third alike₃
  obtain ⟨_, spells₄, sameBody⟩ := fourth alike₄
  -- what has the content of an assignment is one
  obtain ⟨_, _, _, rfl, sameName, sameInitial⟩ := Tree.unplaced_eq_assignment sameAssigned
  obtain ⟨start', stop', spans⟩ := exists_spans
    (w := word' :: opening' :: w₁ ++ comma₁ :: w₂ ++ comma₂ :: w₃ ++ closing' :: w₄) (by simp)
  have whole := Spells.forLoop (Token.isKeyword_of_unplaced_eq same₁ isFor)
    ((Token.kind_of_unplaced_eq same₂).trans opens) spells₁
    ((Token.kind_of_unplaced_eq same₃).trans parts) spells₂
    ((Token.kind_of_unplaced_eq same₄).trans parts') spells₃
    ((Token.kind_of_unplaced_eq same₅).trans closes) spells₄ spans
  refine ⟨_, by simpa using whole, ?_⟩
  simp only [Tree.unplaced, sameName, sameInitial, sameCondition, sameUpdate, sameBody]

theorem function {name : Token} {names : List Token} (isFunc : word.isKeyword .funcWord)
    (isName : name.kind = .identifier) (opens : opening.kind = .leftParen)
    (parameters : Parameters w names) (closes : closing.kind = .rightParen)
    (inside : Moves .block v body) :
    Moves .atom (word :: name :: opening :: w ++ closing :: v)
      (.function name names body start stop) := by
  intro w' alike
  simp only [List.map_append, List.map_cons, List.cons_append, List.map_eq_cons_iff,
    List.map_eq_append_iff] at alike
  obtain ⟨word', _, rfl, same₁, name', _, rfl, same₂, opening', _, rfl, same₃, w', _, rfl, alike,
    closing', v', rfl, same₄, alike'⟩ := alike
  obtain ⟨names', declares, sameNames⟩ := parameters.moved alike
  obtain ⟨body', spells, sameBody⟩ := inside alike'
  obtain ⟨start', stop', spans⟩ :=
    exists_spans (w := word' :: name' :: opening' :: w' ++ closing' :: v') (by simp)
  refine ⟨_, .function (Token.isKeyword_of_unplaced_eq same₁ isFunc)
    ((Token.kind_of_unplaced_eq same₂).trans isName)
    ((Token.kind_of_unplaced_eq same₃).trans opens) declares
    ((Token.kind_of_unplaced_eq same₄).trans closes) spells spans, ?_⟩
  simp only [Tree.unplaced, same₂, sameNames, sameBody]

end Moves

namespace MovesEach

variable {p q : Series} {w rest : List Token} {tree : Tree} {others : List Tree}

/-- No phrases at all. -/
theorem nil (rule : SpellsEach p [] []) : MovesEach p [] [] := by
  intro w' alike
  obtain rfl := List.map_eq_nil_iff.mp alike
  exact ⟨[], rule, rfl⟩

/-- A phrase with others behind it, and with tokens in front that are still what they should be. -/
theorem cons (lead : List Token)
    (rule : ∀ {lead' w rest tree others}, lead'.map Token.unplaced = lead.map Token.unplaced →
      Spells .expression w tree → SpellsEach q rest others →
        SpellsEach p (lead' ++ w ++ rest) (tree :: others))
    (first : Moves .expression w tree) (further : MovesEach q rest others) :
    MovesEach p (lead ++ w ++ rest) (tree :: others) := by
  intro w' alike
  simp only [List.map_append, List.map_eq_append_iff] at alike
  obtain ⟨_, v₃, rfl, ⟨v₁, v₂, rfl, alike₁, alike₂⟩, alike₃⟩ := alike
  obtain ⟨first', spells, sameFirst⟩ := first alike₂
  obtain ⟨others', spellsEach, sameOthers⟩ := further alike₃
  refine ⟨_, rule alike₁ spells spellsEach, ?_⟩
  simp only [Tree.unplacedEach, sameFirst, sameOthers]

end MovesEach

mutual

/-- A word of the same content as a phrase is a phrase of the same sort, and spells a tree of
the same content. -/
theorem Spells.moved {p : Phrase} {w : List Token} {tree : Tree} (h : Spells p w tree) :
    Moves p w tree := by
  -- each production is moved by the lemma for its form
  match h with
  | .statements separators first others _ => exact .statements separators first.moved others.moved
  | .block opening body closing =>
    exact .enclosed (fun opens inside closes =>
      .block (opens.trans opening) inside (closes.trans closing)) body.moved
  | .assignment word name equals value => exact .assignment word name equals value.moved
  | .conditions inside => exact .through .conditions inside.moved
  | .negation sign operand => exact .unary (fun kind => .negation (kind.trans sign)) operand.moved
  | .relations inside => exact .through .relations inside.moved
  | .operand inside => exact .through .operand inside.moved
  | .join left operator right => exact .join left.moved operator right.moved
  | .signed sign operand =>
    exact .unary (fun kind => .signed (by rwa [kind])) operand.moved
  | .unsigned inside => exact .through .unsigned inside.moved
  | .uncalled inside => exact .through .uncalled inside.moved
  | .call callee opening arguments closing =>
    exact .call callee.moved opening arguments.moved closing
  | .number kind => exact .leaf (fun _ => rfl) fun same => .number (by rwa [same])
  | .string kind => exact .leaf (fun _ => rfl) fun same => .string (same.trans kind)
  | .reference kind => exact .leaf (fun _ => rfl) fun same => .reference (same.trans kind)
  | .parenthesised opening inside closing =>
    exact .enclosed (fun opens inside closes =>
      .parenthesised (opens.trans opening) inside (closes.trans closing)) inside.moved
  | .conditional word opening condition closing body _ =>
    exact .guarded (fun same same' => by simp only [Tree.unplaced, Arms.unplaced, same, same'])
      .conditional word opening condition.moved closing body.moved
  | .conditionalElse word opening condition closing body word' other _ =>
    exact .conditionalElse word opening condition.moved closing body.moved word' other.moved
  | .forLoop word opening initial comma condition comma' update closing body _ =>
    exact .forLoop word opening initial.moved comma condition.moved comma' update.moved closing
      body.moved
  | .whileLoop word opening condition closing body _ =>
    exact .guarded (fun same same' => by simp only [Tree.unplaced, same, same']) .whileLoop word
      opening condition.moved closing body.moved
  | .function word name opening parameters closing body _ =>
    exact .function word name opening parameters closing body.moved

theorem SpellsEach.moved {p : Series} {w : List Token} {trees : List Tree}
    (h : SpellsEach p w trees) : MovesEach p w trees := by
  match h with
  | .noStatements separators =>
    exact fun _ alike => ⟨[], .noStatements (separators.moved alike), rfl⟩
  | .statement separators ne first others =>
    refine .cons _ (fun alike spells => .statement (separators.moved alike) ?_ spells) first.moved
      others.moved
    rintro rfl
    exact ne (List.map_eq_nil_iff.mp alike.symm)
  | .noArguments => exact .nil .noArguments
  | .argument first others =>
    exact .cons [] (fun alike spells => by
      obtain rfl := List.map_eq_nil_iff.mp alike
      exact .argument spells) first.moved others.moved
  | .noFurtherArguments => exact .nil .noFurtherArguments
  | .furtherArgument comma first others =>
    exact .cons [_] (fun alike spells => by
      simp only [List.map_cons, List.map_nil, List.map_eq_cons_iff, List.map_eq_nil_iff] at alike
      obtain ⟨comma', _, rfl, same, rfl⟩ := alike
      exact .furtherArgument ((Token.kind_of_unplaced_eq same).trans comma) spells) first.moved
      others.moved

end

end Scriptlet
