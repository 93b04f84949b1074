import Scriptlet.Tree.Basic

/-!
# The grammar as derivations

What it means for tokens to spell a tree, said without any parser: a phrase of a given sort
is put together from tokens and smaller phrases. Where the grammar joins operands by
operators of one level, the phrase built so far is the left operand of the next operator, so
that joined operands associate to the left.

## Main definitions

* `Level`, `Phrase` — levels of binary operators, and the sorts of phrases
* `Spells`, `SpellsEach` — the tokens of a phrase and the trees that they spell

## Main results

* `Spells.begins` — how a phrase can begin
-/

namespace Scriptlet

/-- The tokens of a word reach from one place to another. -/
structure Spans (w : List Token) (start stop : Position) : Prop where
  start_eq : w.head?.map Token.start = some start
  stop_eq : w.getLast?.map Token.stop = some stop

/-- A word has one first and one last token. -/
theorem Spans.unique {w : List Token} {start start' stop stop' : Position}
    (h : Spans w start stop) (h' : Spans w start' stop') : start = start' ∧ stop = stop' :=
  ⟨Option.some.inj (h.start_eq.symm.trans h'.start_eq),
    Option.some.inj (h.stop_eq.symm.trans h'.stop_eq)⟩

theorem Spans.eq_start {t : Token} {w : List Token} {start stop : Position}
    (h : Spans (t :: w) start stop) : t.start = start :=
  Option.some.inj h.start_eq

/-- The last tokens of a word end where the word does. -/
theorem Spans.last {u v : List Token} {t : Token} {start stop : Position}
    (h : Spans (u ++ t :: v) start stop) (ne : v ≠ []) :
    v.getLast?.map Token.stop = some stop := by
  have stop_eq := h.stop_eq
  rw [List.append_cons, List.getLast?_append, List.getLast?_eq_some_getLast ne] at stop_eq
  rwa [List.getLast?_eq_some_getLast ne]

/-- Only separators. -/
def Separators (w : List Token) : Prop := ∀ t ∈ w, t.kind = .separator

/-- The levels of binary operators, from the loosest to the tightest. -/
inductive Level
  | conditions | relations | sums | products
  deriving DecidableEq, Repr

/-- The sorts of phrases that are read as one tree. -/
inductive Phrase
  | statements | block | expression | comparison | joined (level : Level) | factor | call | atom
  deriving DecidableEq, Repr

/-- The sorts of phrases that are read as trees in turn. -/
inductive Series
  | furtherStatements | arguments | furtherArguments
  deriving DecidableEq, Repr

namespace Level

/-- The operators of a level. -/
def operators : Level → List Token.Kind
  | conditions => [.and, .or]
  | relations => [.equal, .notEqual, .less, .greater, .lessEqual, .greaterEqual]
  | sums => [.plus, .minus]
  | products => [.times, .divide]

/-- What the operators of a level join. -/
def operand : Level → Phrase
  | conditions => .comparison
  | relations => .joined .sums
  | sums => .joined .products
  | products => .factor

end Level

namespace Token

/-- A token with which an atom can begin. -/
def BeginsAtom (t : Token) : Prop :=
  t.kind ∈ [.int, .float, .string, .identifier, .leftParen] ∨
    ∃ k ∈ [Keyword.ifWord, .forWord, .whileWord, .funcWord], t.isKeyword k

/-- A token with which a factor can begin: a sign, or a token of an atom. -/
def BeginsFactor (t : Token) : Prop := t.kind = .plus ∨ t.kind = .minus ∨ t.BeginsAtom

/-- A token with which a comparison can begin: `!`, or a token of a factor. -/
def BeginsComparison (t : Token) : Prop := t.kind = .not ∨ t.BeginsFactor

/-- A token with which an expression can begin: `let`, or a token of a comparison. -/
def BeginsExpression (t : Token) : Prop := t.isKeyword .letWord ∨ t.BeginsComparison

end Token

/-- A token with which a phrase of this sort can begin. -/
def Phrase.Begins : Phrase → Token → Prop
  | atom, t | call, t => t.BeginsAtom
  | factor, t | joined .products, t | joined .sums, t | joined .relations, t => t.BeginsFactor
  | comparison, t | joined .conditions, t => t.BeginsComparison
  | expression, t => t.BeginsExpression
  | statements, t => t.kind = .separator ∨ t.BeginsExpression
  | block, t => t.kind = .leftCurl

/-- The names after the first in a list of parameters, each after a comma. -/
inductive FurtherParameters : List Token → List Token → Prop
  | none : FurtherParameters [] []
  | more {comma name : Token} {w names : List Token} :
    comma.kind = .comma → name.kind = .identifier → FurtherParameters w names →
      FurtherParameters (comma :: name :: w) (name :: names)

/-- A list of parameters. -/
inductive Parameters : List Token → List Token → Prop
  | none : Parameters [] []
  | some {name : Token} {w names : List Token} :
    name.kind = .identifier → FurtherParameters w names → Parameters (name :: w) (name :: names)

mutual

/-- The tokens of a phrase and the tree that they spell. -/
inductive Spells : Phrase → List Token → Tree → Prop
  | statements {lead w rest : List Token} {first : Tree} {others : List Tree}
      {start stop : Position} :
    Separators lead → Spells .expression w first → SpellsEach .furtherStatements rest others →
      Spans (lead ++ w ++ rest) start stop →
      Spells .statements (lead ++ w ++ rest) (.sequence (first :: others) start stop)
  | block {opening closing : Token} {w : List Token} {body : Tree} :
    opening.kind = .leftCurl → Spells .statements w body → closing.kind = .rightCurl →
      Spells .block (opening :: w ++ [closing]) body
  | assignment {word name equals : Token} {w : List Token} {value : Tree} :
    word.isKeyword .letWord → name.kind = .identifier → equals.kind = .assign →
      Spells .expression w value →
      Spells .expression (word :: name :: equals :: w) (.assignment word.start name value)
  | conditions {w : List Token} {tree : Tree} :
    Spells (.joined .conditions) w tree → Spells .expression w tree
  | negation {sign : Token} {w : List Token} {operand : Tree} :
    sign.kind = .not → Spells .comparison w operand →
      Spells .comparison (sign :: w) (.unary sign operand)
  | relations {w : List Token} {tree : Tree} :
    Spells (.joined .relations) w tree → Spells .comparison w tree
  | operand {level : Level} {w : List Token} {tree : Tree} :
    Spells level.operand w tree → Spells (.joined level) w tree
  | join {level : Level} {w v : List Token} {left right : Tree} {operator : Token} :
    Spells (.joined level) w left → operator.kind ∈ level.operators →
      Spells level.operand v right →
      Spells (.joined level) (w ++ operator :: v) (.binary left operator right)
  | signed {sign : Token} {w : List Token} {operand : Tree} :
    sign.kind = .plus ∨ sign.kind = .minus → Spells .factor w operand →
      Spells .factor (sign :: w) (.unary sign operand)
  | unsigned {w : List Token} {tree : Tree} : Spells .call w tree → Spells .factor w tree
  | uncalled {w : List Token} {tree : Tree} : Spells .atom w tree → Spells .call w tree
  | call {w v : List Token} {opening closing : Token} {callee : Tree} {arguments : List Tree} :
    Spells .atom w callee → opening.kind = .leftParen → SpellsEach .arguments v arguments →
      closing.kind = .rightParen →
      Spells .call (w ++ opening :: v ++ [closing]) (.call callee arguments closing.stop)
  | number {t : Token} : t.kind = .int ∨ t.kind = .float → Spells .atom [t] (.number t)
  | string {t : Token} : t.kind = .string → Spells .atom [t] (.string t)
  | reference {t : Token} : t.kind = .identifier → Spells .atom [t] (.reference t)
  | parenthesised {opening closing : Token} {w : List Token} {tree : Tree} :
    opening.kind = .leftParen → Spells .expression w tree → closing.kind = .rightParen →
      Spells .atom (opening :: w ++ [closing]) tree
  | conditional {word opening closing : Token} {w v : List Token} {condition body : Tree}
      {start stop : Position} :
    word.isKeyword .ifWord → opening.kind = .leftParen → Spells .expression w condition →
      closing.kind = .rightParen → Spells .block v body →
      Spans (word :: opening :: w ++ closing :: v) start stop →
      Spells .atom (word :: opening :: w ++ closing :: v)
        (.conditional (.guarded condition body .none) start stop)
  | conditionalElse {word opening closing word' : Token} {w v v' : List Token}
      {condition body body' : Tree} {start stop : Position} :
    word.isKeyword .ifWord → opening.kind = .leftParen → Spells .expression w condition →
      closing.kind = .rightParen → Spells .block v body → word'.isKeyword .elseWord →
      Spells .block v' body' →
      Spans (word :: opening :: w ++ closing :: v ++ word' :: v') start stop →
      Spells .atom (word :: opening :: w ++ closing :: v ++ word' :: v')
        (.conditional (.guarded condition body (.otherwise body')) start stop)
  | forLoop {word opening comma comma' closing name : Token} {w₁ w₂ w₃ v : List Token}
      {initial condition update body : Tree} {letStart start stop : Position} :
    word.isKeyword .forWord → opening.kind = .leftParen →
      Spells .expression w₁ (.assignment letStart name initial) → comma.kind = .comma →
      Spells .comparison w₂ condition → comma'.kind = .comma →
      Spells (.joined .sums) w₃ update → closing.kind = .rightParen → Spells .block v body →
      Spans (word :: opening :: w₁ ++ comma :: w₂ ++ comma' :: w₃ ++ closing :: v) start stop →
      Spells .atom (word :: opening :: w₁ ++ comma :: w₂ ++ comma' :: w₃ ++ closing :: v)
        (.forLoop letStart name initial condition update body start stop)
  | whileLoop {word opening closing : Token} {w v : List Token} {condition body : Tree}
      {start stop : Position} :
    word.isKeyword .whileWord → opening.kind = .leftParen → Spells .expression w condition →
      closing.kind = .rightParen → Spells .block v body →
      Spans (word :: opening :: w ++ closing :: v) start stop →
      Spells .atom (word :: opening :: w ++ closing :: v) (.whileLoop condition body start stop)
  | function {word name opening closing : Token} {w v parameters : List Token} {body : Tree}
      {start stop : Position} :
    word.isKeyword .funcWord → name.kind = .identifier → opening.kind = .leftParen →
      Parameters w parameters → closing.kind = .rightParen → Spells .block v body →
      Spans (word :: name :: opening :: w ++ closing :: v) start stop →
      Spells .atom (word :: name :: opening :: w ++ closing :: v)
        (.function name parameters body start stop)

/-- The tokens of a series of phrases and the trees that they spell in turn. -/
inductive SpellsEach : Series → List Token → List Tree → Prop
  | noStatements {w : List Token} : Separators w → SpellsEach .furtherStatements w []
  | statement {between w rest : List Token} {tree : Tree} {others : List Tree} :
    Separators between → between ≠ [] → Spells .expression w tree →
      SpellsEach .furtherStatements rest others →
      SpellsEach .furtherStatements (between ++ w ++ rest) (tree :: others)
  | noArguments : SpellsEach .arguments [] []
  | argument {w rest : List Token} {tree : Tree} {others : List Tree} :
    Spells .expression w tree → SpellsEach .furtherArguments rest others →
      SpellsEach .arguments (w ++ rest) (tree :: others)
  | noFurtherArguments : SpellsEach .furtherArguments [] []
  | furtherArgument {comma : Token} {w rest : List Token} {tree : Tree} {others : List Tree} :
    comma.kind = .comma → Spells .expression w tree → SpellsEach .furtherArguments rest others →
      SpellsEach .furtherArguments (comma :: w ++ rest) (tree :: others)

end

/-! ### How phrases begin -/

theorem Level.begins_of_operand {level : Level} {t : Token} (h : level.operand.Begins t) :
    (Phrase.joined level).Begins t := by
  cases level <;> exact h

/-- A phrase has a first token, and it is one with which its sort can begin. -/
theorem Spells.begins {p : Phrase} {w : List Token} {tree : Tree} :
    Spells p w tree → ∃ t v, w = t :: v ∧ p.Begins t
  | @Spells.statements lead _ _ _ _ _ _ separators first _ _ => by
    obtain ⟨t, v, rfl, begins⟩ := first.begins
    -- statements begin with a separator if one leads
    cases lead with
    | nil => exact ⟨t, _, rfl, .inr begins⟩
    | cons s lead => exact ⟨s, _, rfl, .inl (separators s List.mem_cons_self)⟩
  | .block opening _ _ => ⟨_, _, rfl, opening⟩
  | .assignment word _ _ _ => ⟨_, _, rfl, .inl word⟩
  | .conditions h => by
    obtain ⟨t, v, rfl, begins⟩ := h.begins
    exact ⟨t, v, rfl, .inr begins⟩
  | .negation sign _ => ⟨_, _, rfl, .inl sign⟩
  | .relations h => by
    obtain ⟨t, v, rfl, begins⟩ := h.begins
    exact ⟨t, v, rfl, .inr begins⟩
  | .operand h => by
    obtain ⟨t, v, rfl, begins⟩ := h.begins
    exact ⟨t, v, rfl, Level.begins_of_operand begins⟩
  | .join left _ _ => by
    obtain ⟨t, v, rfl, begins⟩ := left.begins
    exact ⟨t, _, rfl, begins⟩
  | .signed sign _ => by
    rcases sign with sign | sign
    · exact ⟨_, _, rfl, .inl sign⟩
    · exact ⟨_, _, rfl, .inr (.inl sign)⟩
  | .unsigned h => by
    obtain ⟨t, v, rfl, begins⟩ := h.begins
    exact ⟨t, v, rfl, .inr (.inr begins)⟩
  | .uncalled h => h.begins
  | .call callee _ _ _ => by
    obtain ⟨t, v, rfl, begins⟩ := callee.begins
    exact ⟨t, _, rfl, begins⟩
  | .number kind => ⟨_, _, rfl, .inl (by rcases kind with kind | kind <;> simp [kind])⟩
  | .string kind => ⟨_, _, rfl, .inl (by simp [kind])⟩
  | .reference kind => ⟨_, _, rfl, .inl (by simp [kind])⟩
  | .parenthesised opening _ _ => ⟨_, _, rfl, .inl (by simp [opening])⟩
  | .conditional word _ _ _ _ _ => ⟨_, _, rfl, .inr ⟨_, by simp, word⟩⟩
  | .conditionalElse word _ _ _ _ _ _ _ => ⟨_, _, rfl, .inr ⟨_, by simp, word⟩⟩
  | .forLoop word _ _ _ _ _ _ _ _ _ => ⟨_, _, rfl, .inr ⟨_, by simp, word⟩⟩
  | .whileLoop word _ _ _ _ _ => ⟨_, _, rfl, .inr ⟨_, by simp, word⟩⟩
  | .function word _ _ _ _ _ _ => ⟨_, _, rfl, .inr ⟨_, by simp, word⟩⟩

theorem Spells.block_ne_nil {w : List Token} {body : Tree} (spells : Spells .block w body) :
    w ≠ [] := by
  obtain ⟨t, v, rfl, -⟩ := spells.begins
  exact List.cons_ne_nil t v

end Scriptlet
