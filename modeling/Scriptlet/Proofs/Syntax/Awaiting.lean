import Scriptlet.Proofs.Syntax.Productions

/-!
# What the beginning of a script asks for

A beginning of a script that stops in front of a part asks for that part, and where several parts
begin at the same place it asks for the outermost. What kind of thing is asked for is settled by
the last token before the place, or rather by what this token is in the grammar: an operator asks
for its operand, a bracket for what stands in it. Separators are an exception, since between
statements they may as well be the end of the statements; only in front of the first statement do
they ask for one.

## Main definitions

* `Part.asks` — what is missing where a part does not begin
* `Awaits` — what is asked for behind the beginning of a word
* `Opens` — a script can begin in this way and go on with this part
* `Cue`, `Cue.Ends` — what stands in front of a part, and which tokens end in it

## Main results

* `awaits_append_iff`, `awaits_part_iff` — what is asked for, by the symbols of a word
* `Awaits.exists_derives` — what is asked for can follow
* `awaits_statements_iff` — what is asked for is what the last token asks for
-/

namespace Scriptlet

/-- Errors that name a part of the grammar, and not a single token or the end of input. -/
def ParseError.Kind.isPart : ParseError.Kind → Bool
  | .expectedAtom | .expectedOperand | .expectedExpression | .expectedArgument => true
  | .expected _ | .trailingInput => false

/-- What is missing where no phrase of this sort begins. A block begins with a bracket, which is
missing as a token. -/
@[simp] def Phrase.asks : Phrase → Option ParseError.Kind
  | .statements | .expression | .joined .conditions => some .expectedExpression
  | .comparison | .joined .relations => some .expectedOperand
  | .joined .sums | .joined .products | .factor | .call | .atom => some .expectedAtom
  | .block => none

/-- What is missing where no part of this sort begins. Parts that may be left out ask for nothing,
save arguments, as the bracket behind them may then be missing too. -/
def Part.asks : Part → Option ParseError.Kind
  | .phrase p => p.asks
  | .arguments => some .expectedArgument
  | .separators | .furtherStatements | .furtherOperands _ | .callSuffix | .furtherArguments
  | .parameters | .furtherParameters | .elsePart => none

/-- What has been read of a part has begun it for good. Separators alone do not begin further
statements: where no statement follows, they belong to the end of those before. -/
def Part.Begun : Part → List Token → Prop
  | .furtherStatements, w => ¬ Separators w
  | _, w => w ≠ []

theorem not_begun_nil {p : Part} : ¬ p.Begun [] := by
  intro begun
  unfold Part.Begun at begun
  split at begun
  · exact begun (List.forall_mem_nil _)
  · exact begun rfl

theorem begun_of_not_separators {p : Part} {w : List Token} (h : ¬ Separators w) : p.Begun w := by
  unfold Part.Begun
  split
  · exact h
  · rintro rfl
    exact h (List.forall_mem_nil _)

theorem begun_iff {p : Part} (notFurther : p ≠ .furtherStatements) {w : List Token} :
    p.Begun w ↔ w ≠ [] := by
  unfold Part.Begun
  split
  · exact absurd rfl notFurther
  · rfl

/-- The beginning of a word is such that something of this kind is asked for behind it. -/
inductive Awaits : List Symbol → List Token → ParseError.Kind → Prop
  | here {p : Part} {body : List Symbol} {kind : ParseError.Kind} :
    p.asks = some kind → Awaits (.part p :: body) [] kind
  | kind {k : Token.Kind} {t : Token} {body : List Symbol} {w : List Token}
      {kind : ParseError.Kind} :
    t.kind = k → Awaits body w kind → Awaits (.kind k :: body) (t :: w) kind
  | word {k : Keyword} {t : Token} {body : List Symbol} {w : List Token}
      {kind : ParseError.Kind} :
    t.isKeyword k → Awaits body w kind → Awaits (.word k :: body) (t :: w) kind
  | within {p : Part} {production body : List Symbol} {w : List Token} {kind : ParseError.Kind} :
    production ∈ productions p → p.Begun w → Awaits production w kind →
      Awaits (.part p :: body) w kind
  | behind {p : Part} {body : List Symbol} {w v : List Token} {kind : ParseError.Kind} :
    Derives [.part p] w → Awaits body v kind → Awaits (.part p :: body) (w ++ v) kind

variable {p : Part} {a b body : List Symbol} {w v : List Token} {kind : ParseError.Kind}

/-! ### Words by their symbols -/

@[simp] theorem not_awaits_nil : ¬ Awaits [] w kind := nofun

@[simp] theorem awaits_kind_iff {k : Token.Kind} :
    Awaits (.kind k :: body) w kind ↔ ∃ t v, w = t :: v ∧ t.kind = k ∧ Awaits body v kind := by
  constructor
  · rintro (_ | ⟨isKind, rest⟩)
    exact ⟨_, _, rfl, isKind, rest⟩
  · rintro ⟨t, v, rfl, isKind, rest⟩
    exact .kind isKind rest

@[simp] theorem awaits_word_iff {k : Keyword} :
    Awaits (.word k :: body) w kind ↔ ∃ t v, w = t :: v ∧ t.isKeyword k ∧ Awaits body v kind := by
  constructor
  · rintro (_ | _ | ⟨isWord, rest⟩)
    exact ⟨_, _, rfl, isWord, rest⟩
  · rintro ⟨t, v, rfl, isWord, rest⟩
    exact .word isWord rest

theorem Awaits.append (h : Awaits a w kind) : Awaits (a ++ b) w kind := by
  induction h with
  | here asks => exact .here asks
  | kind isKind _ ih => exact .kind isKind ih
  | word isWord _ ih => exact .word isWord ih
  | within mem begun inside _ => exact .within mem begun inside
  | behind before _ ih => exact .behind before ih

theorem Awaits.after (h : Awaits b v kind) (before : Derives a w) :
    Awaits (a ++ b) (w ++ v) kind := by
  induction before with
  | nil => exact h
  | kind isKind _ ih => exact .kind isKind ih
  | word isWord _ ih => exact .word isWord ih
  | part mem inside _ _ ih =>
    rw [List.append_assoc]
    refine .behind ?_ ih
    rw [derives_part_iff]
    exact ⟨_, mem, by rwa [List.append_nil]⟩

/-- What symbols in a row ask for is asked for by the first of them, or behind a word of these by
the others. -/
theorem awaits_append_iff : Awaits (a ++ b) w kind ↔
    Awaits a w kind ∨ ∃ u v, w = u ++ v ∧ Derives a u ∧ Awaits b v kind := by
  constructor
  · intro h
    -- the induction is on the symbols in front: what is asked for in them, or behind them
    induction a generalizing w with
    | nil => exact .inr ⟨[], w, rfl, .nil, h⟩
    | cons s a ih =>
      cases h with
      | here asks => exact .inl (.here asks)
      | within mem begun inside => exact .inl (.within mem begun inside)
      | kind isKind rest =>
        rcases ih rest with inside | ⟨u, v, rfl, before, rest⟩
        · exact .inl (.kind isKind inside)
        · exact .inr ⟨_, v, rfl, .kind isKind before, rest⟩
      | word isWord rest =>
        rcases ih rest with inside | ⟨u, v, rfl, before, rest⟩
        · exact .inl (.word isWord inside)
        · exact .inr ⟨_, v, rfl, .word isWord before, rest⟩
      | behind first rest =>
        rcases ih rest with inside | ⟨u, v, rfl, before, rest⟩
        · exact .inl (.behind first inside)
        · exact .inr ⟨_, v, (List.append_assoc ..).symm, first.append before, rest⟩
  · rintro (inside | ⟨u, v, rfl, before, rest⟩)
    · exact inside.append
    · exact rest.after before

/-- A part is asked for where nothing has been read of it. Behind its beginning, something in one of
its productions is. -/
theorem awaits_part_iff : Awaits [.part p] w kind ↔
    w = [] ∧ p.asks = some kind ∨ p.Begun w ∧ ∃ production ∈ productions p,
      Awaits production w kind := by
  constructor
  · intro h
    cases h with
    | here asks => exact .inl ⟨rfl, asks⟩
    | within mem begun inside => exact .inr ⟨begun, _, mem, inside⟩
    | behind _ rest => cases rest
  · rintro (⟨rfl, asks⟩ | ⟨begun, production, mem, inside⟩)
    · exact .here asks
    · exact .within mem begun inside

/-- A token behind other symbols asks for no part. -/
theorem awaits_append_kind_iff {k : Token.Kind} :
    Awaits (a ++ [.kind k]) w kind ↔ Awaits a w kind := by
  simp [awaits_append_iff]

/-- At the very beginning, symbols ask for what the first of them asks for; those that may be left
out let the others ask. -/
theorem awaits_part_nil_iff : Awaits (.part p :: body) [] kind ↔
    p.asks = some kind ∨ Derives [.part p] [] ∧ Awaits body [] kind := by
  rw [← List.singleton_append, awaits_append_iff, awaits_part_iff]
  simp [not_begun_nil]

/-- Right at the beginning of these symbols nothing is asked for. -/
def Quiet (body : List Symbol) : Prop := ∀ kind, ¬ Awaits body [] kind

theorem Quiet.nil : Quiet [] := fun _ => not_awaits_nil

theorem Quiet.token {k : Token.Kind} : Quiet (.kind k :: body) := fun _ asks => by simp at asks

theorem Quiet.part (none : p.asks = none) (rest : Quiet body) : Quiet (.part p :: body) := by
  intro kind asks
  rcases awaits_part_nil_iff.mp asks with own | ⟨-, behind⟩
  · rw [none] at own
    cases own
  · exact rest kind behind

/-- A part whose productions ask at once for what it asks for itself asks for what they do. -/
theorem awaits_productions_iff (notFurther : p ≠ .furtherStatements)
    (atOnce : ∀ kind, p.asks = some kind ↔
      ∃ production ∈ productions p, Awaits production [] kind) :
    Awaits [.part p] w kind ↔ ∃ production ∈ productions p, Awaits production w kind := by
  rw [awaits_part_iff, begun_iff notFurther, atOnce]
  by_cases empty : w = []
  · simp [empty]
  · simp [empty]

/-- What is asked for can follow, so that the word can be completed. -/
theorem Awaits.exists_derives (h : Awaits body w kind) : ∃ x, Derives body (w ++ x) := by
  induction h with
  | here asks => exact Scriptlet.exists_derives _
  | kind isKind _ ih =>
    obtain ⟨x, rest⟩ := ih
    exact ⟨x, .kind isKind rest⟩
  | word isWord _ ih =>
    obtain ⟨x, rest⟩ := ih
    exact ⟨x, .word isWord rest⟩
  | @within p production body w kind mem _ _ ih =>
    obtain ⟨x, inside⟩ := ih
    obtain ⟨y, rest⟩ := Scriptlet.exists_derives body
    exact ⟨x ++ y, List.append_assoc w x y ▸ .part mem inside rest⟩
  | @behind p body w v kind before _ ih =>
    obtain ⟨x, rest⟩ := ih
    exact ⟨x, List.append_assoc w v x ▸ before.append rest⟩

/-- In front of the arguments of a call something is asked for that may also be their closing
bracket. -/
theorem awaits_arguments_iff : Awaits [.part .arguments, .kind .rightParen] w kind ↔
    w = [] ∧ kind = .expectedArgument ∨
      w ≠ [] ∧ Awaits [.phrase .expression, .part .furtherArguments, .kind .rightParen] w kind := by
  have closed : Awaits [.part .arguments, .kind .rightParen] w kind ↔
      Awaits [.part .arguments] w kind :=
    awaits_append_kind_iff (a := [_])
  have closed' : Awaits [.phrase .expression, .part .furtherArguments, .kind .rightParen] w kind ↔
      Awaits [.phrase .expression, .part .furtherArguments] w kind :=
    awaits_append_kind_iff (a := [_, _])
  rw [closed, closed', awaits_part_iff, begun_iff (by decide)]
  simp [productions, Part.asks, eq_comm]

theorem not_awaits_separators : ¬ Awaits [.part .separators] w kind := by
  induction w with
  | nil => simp [awaits_part_nil_iff, Part.asks]
  | cons t w ih =>
    rw [awaits_part_iff]
    simp [productions, ih]

/-- Further statements ask for something behind separators and the beginning of a statement. -/
theorem awaits_furtherStatements_iff : Awaits [.part .furtherStatements] w kind ↔
    ∃ between v, w = between ++ v ∧ Separators between ∧ between ≠ [] ∧ v ≠ [] ∧
      Awaits [.phrase .expression, .part .furtherStatements] v kind := by
  constructor
  · intro h
    rcases awaits_part_iff.mp h with ⟨-, asks⟩ | ⟨begun, production, mem, inside⟩
    · cases asks
    rcases List.mem_pair.mp mem with rfl | rfl
    · exact absurd inside not_awaits_separators
    · obtain ⟨t, rest, rfl, isSeparator, inside⟩ := awaits_kind_iff.mp inside
      rcases awaits_append_iff (a := [.part .separators]).mp inside with
        none | ⟨u, v, rfl, word, inside⟩
      · exact absurd none not_awaits_separators
      have separators : Separators (t :: u) :=
        List.forall_mem_cons.mpr ⟨isSeparator, derives_separators_iff.mp word⟩
      -- with nothing behind the separators, statements would have begun nothing
      refine ⟨t :: u, v, rfl, separators, List.cons_ne_nil _ _, ?_, inside⟩
      rintro rfl
      exact begun ((List.append_nil u).symm ▸ separators)
  · rintro ⟨between, v, rfl, separators, ne, ne', inside⟩
    obtain ⟨t, between, rfl⟩ := List.exists_cons_of_ne_nil ne
    obtain ⟨first, v, rfl⟩ := List.exists_cons_of_ne_nil ne'
    obtain ⟨x, word⟩ := inside.exists_derives
    -- what stands behind the separators begins a statement and is none of them
    have begins : first.BeginsExpression := word.begins_cons (by decide)
    have ⟨isSeparator, separators⟩ := List.forall_mem_cons.mp separators
    refine .within (List.mem_pair.mpr (.inr rfl)) (fun all => ?_)
      (.kind isSeparator (.behind (derives_separators_iff.mpr separators) inside))
    exact begins.kind_not_mem (by simp [all first (by simp)])

/-! ### What stands in front of parts -/

/-- A place in a production, between the symbols before it and those behind. -/
structure Item where
  part : Part
  before : List Symbol
  behind : List Symbol
  deriving DecidableEq

/-- What stands in front of a part: a sign or operator in front of its operand, the `=` of an
assignment, a bracket that is opened, a comma, or the last separator before statements. In front of
the whole script there is nothing. -/
inductive Cue
  | nothing | leadingSeparator
  | assignSign | sign | negation | operator (level : Level)
  | groupBracket | headerBracket | callBracket | curlyBracket
  | argumentComma | firstHeaderComma | secondHeaderComma
  deriving DecidableEq

namespace Cue

/-- The places behind such a token. -/
def items : Cue → List Item
  | nothing => []
  | leadingSeparator =>
    [⟨.phrase .statements, [.part .separators], [.phrase .expression, .part .furtherStatements]⟩]
  | assignSign =>
    [⟨.phrase .expression, [.word .letWord, .kind .identifier, .kind .assign],
      [.phrase .expression]⟩]
  | sign =>
    [⟨.phrase .factor, [.kind .plus], [.phrase .factor]⟩,
      ⟨.phrase .factor, [.kind .minus], [.phrase .factor]⟩]
  | negation => [⟨.phrase .comparison, [.kind .not], [.phrase .comparison]⟩]
  | operator level => level.operators.map fun k =>
    ⟨.furtherOperands level, [.kind k], [.phrase level.operand, .part (.furtherOperands level)]⟩
  | groupBracket =>
    [⟨.phrase .atom, [.kind .leftParen], [.phrase .expression, .kind .rightParen]⟩]
  | headerBracket =>
    [⟨.phrase .atom, [.word .ifWord, .kind .leftParen], [.phrase .expression, .kind .rightParen,
        .phrase .block, .part .elsePart]⟩,
      ⟨.phrase .atom, [.word .forWord, .kind .leftParen], [.phrase .expression, .kind .comma,
        .phrase .comparison, .kind .comma, .phrase (.joined .sums), .kind .rightParen,
        .phrase .block]⟩,
      ⟨.phrase .atom, [.word .whileWord, .kind .leftParen], [.phrase .expression,
        .kind .rightParen, .phrase .block]⟩]
  | callBracket => [⟨.callSuffix, [.kind .leftParen], [.part .arguments, .kind .rightParen]⟩]
  | curlyBracket =>
    [⟨.phrase .block, [.kind .leftCurl], [.phrase .statements, .kind .rightCurl]⟩]
  | argumentComma =>
    [⟨.furtherArguments, [.kind .comma], [.phrase .expression, .part .furtherArguments]⟩]
  | firstHeaderComma =>
    [⟨.phrase .atom, [.word .forWord, .kind .leftParen, .phrase .expression, .kind .comma],
      [.phrase .comparison, .kind .comma, .phrase (.joined .sums), .kind .rightParen,
        .phrase .block]⟩]
  | secondHeaderComma =>
    [⟨.phrase .atom, [.word .forWord, .kind .leftParen, .phrase .expression, .kind .comma,
      .phrase .comparison, .kind .comma], [.phrase (.joined .sums), .kind .rightParen,
        .phrase .block]⟩]

/-- What is missing behind such a token where nothing follows that can. -/
def asks : Cue → ParseError.Kind
  | sign | operator .sums | operator .products | operator .relations | secondHeaderComma =>
    .expectedAtom
  | operator .conditions | negation | firstHeaderComma => .expectedOperand
  | callBracket => .expectedArgument
  | nothing | assignSign | groupBracket | headerBracket | argumentComma | curlyBracket
  | leadingSeparator => .expectedExpression

/-- The kinds that such a token can have. -/
def kinds : Cue → List (Option Token.Kind)
  | nothing => [none]
  | leadingSeparator => [some .separator]
  | assignSign => [some .assign]
  | sign => [some .plus, some .minus]
  | negation => [some .not]
  | operator level => level.operators.map some
  | groupBracket | headerBracket | callBracket => [some .leftParen]
  | curlyBracket => [some .leftCurl]
  | argumentComma | firstHeaderComma | secondHeaderComma => [some .comma]

/-- All of them. -/
def all : List Cue :=
  [nothing, leadingSeparator, assignSign, sign, negation, operator .conditions,
    operator .relations, operator .sums, operator .products, groupBracket, headerBracket,
    callBracket, curlyBracket, argumentComma, firstHeaderComma, secondHeaderComma]

end Cue

/-- A script can begin with these tokens and go on with a part of this sort. -/
inductive Opens : List Token → Part → Prop
  | script : Opens [] (.phrase .statements)
  | within {p q : Part} {before after : List Symbol} {u v : List Token} :
    Opens u p → before ++ .part q :: after ∈ productions p → Derives before v → Opens (u ++ v) q

/-- A script can begin with these tokens in such a way that the last of them is this cue. -/
def Cue.Ends (cue : Cue) (w : List Token) : Prop :=
  cue = .nothing ∧ w = [] ∨ ∃ item ∈ cue.items, ∃ u v, w = u ++ v ∧ v ≠ [] ∧
    Opens u item.part ∧ Derives item.before v

/-- What the first of some symbols asks for. -/
def Symbol.firstAsks : List Symbol → Option ParseError.Kind
  | .part q :: _ => q.asks
  | _ => none

theorem awaits_of_firstAsks (h : Symbol.firstAsks body = some kind) : Awaits body [] kind := by
  unfold Symbol.firstAsks at h
  split at h
  · exact .here h
  · cases h

/-- The kind of tokens that a symbol stands for. -/
def Symbol.kind? : Symbol → Option Token.Kind
  | .kind k => some k
  | _ => none

/-- The places behind a cue are places in productions. What stands behind them asks for what the cue
does, and right before them stands a kind of tokens that fits it, save in front of statements. -/
theorem Cue.table {cue : Cue} {item : Item} (isItem : item ∈ cue.items) :
    item.part ≠ .furtherStatements ∧ item.before ++ item.behind ∈ productions item.part ∧
      Symbol.firstAsks item.behind = some cue.asks ∧
      (cue = .leadingSeparator ∨ ∃ s ∈ item.before.getLast?,
        s.kind? ∈ cue.kinds ∧ s.kind? ≠ none ∧ s.kind? ≠ some .separator) := by
  revert item
  cases cue with
  | operator level => cases level <;> decide
  | _ => decide

/-- The last token in front of a place behind a cue fits the cue, and is no separator save in front
of statements. -/
theorem Cue.exists_last {cue : Cue} {item : Item} (isItem : item ∈ cue.items)
    (word : Derives item.before w) (notLeading : cue ≠ .leadingSeparator) :
    ∃ v t, w = v ++ [t] ∧ some t.kind ∈ cue.kinds ∧ t.kind ≠ .separator := by
  have ⟨_, _, _, lasts⟩ := Cue.table isItem
  obtain ⟨s, last, fits, isKind, other⟩ := lasts.resolve_left notLeading
  obtain ⟨before, eq⟩ := List.getLast?_eq_some_iff.mp last
  rw [eq] at word
  obtain ⟨v, x, rfl, -, rest⟩ := derives_append_iff.mp word
  cases s with
  | kind k =>
    obtain ⟨t, rest, rfl, rfl, none⟩ := derives_kind_iff.mp rest
    obtain rfl := derives_nil_iff.mp none
    exact ⟨v, t, rfl, fits, fun separator => other (congrArg some separator)⟩
  | _ => exact absurd rfl isKind

/-- Where a production goes on with a part that something is asked for, a cue stands in front. -/
theorem Cue.exists_of_asks {q : Part} {before after : List Symbol}
    (mem : before ++ .part q :: after ∈ productions p) (asks : q.asks = some kind)
    (ne : before ≠ []) (notFurther : p ≠ .furtherStatements) :
    ∃ cue : Cue, ⟨p, before, .part q :: after⟩ ∈ cue.items ∧ cue.asks = kind := by
  -- there are only so many places in productions, and each is checked against the table
  have each : ∀ production ∈ productions p, ∀ i ∈ List.range production.length, i ≠ 0 →
      ∀ kind ∈ Symbol.firstAsks (production.drop i), ∃ cue ∈ all,
        ⟨p, production.take i, production.drop i⟩ ∈ cue.items ∧ cue.asks = kind := by
    cases p with
    | phrase p =>
      cases p with
      | joined level => cases level <;> decide +kernel
      | _ => decide +kernel
    | furtherOperands level => cases level <;> decide +kernel
    | furtherStatements => exact absurd rfl notFurther
    | _ => decide +kernel
  have isKind : kind ∈ Symbol.firstAsks ((before ++ .part q :: after).drop before.length) := by
    rw [List.drop_left]
    exact asks
  obtain ⟨cue, -, isItem, same⟩ := each _ mem before.length (by simp)
    (mt List.length_eq_zero_iff.mp ne) kind isKind
  rw [List.take_left, List.drop_left] at isItem
  exact ⟨cue, isItem, same⟩

/-- Further statements ask for something behind separators only. -/
theorem separators_of_asks {q : Part} {before after : List Symbol}
    (mem : before ++ .part q :: after ∈ productions .furtherStatements)
    (asks : q.asks = some kind) (word : Derives before w) : Separators w := by
  have asked : q ≠ .separators ∧ q ≠ .furtherStatements := by
    constructor <;> rintro rfl <;> cases asks
  have eq : before = [.kind .separator, .part .separators] := by
    simp only [productions, List.mem_cons, List.append_eq_cons_iff, List.cons_eq_append_iff,
      List.not_mem_nil, or_false] at mem
    simp_all
  subst eq
  obtain ⟨t, rest, rfl, isSeparator, word⟩ := derives_kind_iff.mp word
  exact List.forall_mem_cons.mpr ⟨isSeparator, derives_separators_iff.mp word⟩

/-- What a production asks for behind its beginning is what the last token asks for. -/
theorem Awaits.exists_cue {u : List Token} {before : List Symbol} (h : Awaits body w kind)
    (opens : Opens u p) (mem : before ++ body ∈ productions p) (word : Derives before v)
    (begun : p.Begun (v ++ w)) : ∃ cue : Cue, cue.Ends (u ++ (v ++ w)) ∧ cue.asks = kind := by
  induction h generalizing p u before v with
  | @here q after kind asks =>
    -- the cue is the word of the symbols in front, and it has a token
    rw [List.append_nil] at begun ⊢
    have notFurther : p ≠ .furtherStatements := by
      rintro rfl
      exact begun (separators_of_asks mem asks word)
    have ne : v ≠ [] := by
      rintro rfl
      exact not_begun_nil begun
    have ne' : before ≠ [] := by
      rintro rfl
      exact ne (derives_nil_iff.mp word)
    obtain ⟨cue, isItem, same⟩ := Cue.exists_of_asks mem asks ne' notFurther
    exact ⟨cue, .inr ⟨_, isItem, u, v, rfl, ne, opens, word⟩, same⟩
  | @kind k t body w kind isKind _ ih =>
    rw [List.append_cons] at mem begun ⊢
    exact ih opens mem (word.append (.kind isKind .nil)) begun
  | @word k t body w kind isWord _ ih =>
    rw [List.append_cons] at mem begun ⊢
    exact ih opens mem (word.append (.word isWord .nil)) begun
  | @within q production after w kind mem' begun' _ ih =>
    rw [← List.append_assoc]
    -- the production within is opened by what stands in front of it
    exact ih (opens.within mem word) ((List.nil_append _).symm ▸ mem') .nil begun'
  | @behind q after w x kind first _ ih =>
    rw [List.append_cons] at mem
    rw [← List.append_assoc v w x] at begun ⊢
    exact ih opens mem (word.append first) begun

/-- What a part asks for behind its beginning is asked for by a script that begins with the part, as
long as more than separators has been read of it. -/
theorem Opens.awaits {u : List Token} (h : Opens u p) (inside : Awaits [.part p] w kind)
    (begun : ¬ Separators w) : Awaits [.phrase .statements] (u ++ w) kind := by
  induction h generalizing w with
  | script => exact inside
  | @within p q before after u v _ mem word ih =>
    have begun' : ¬ Separators (v ++ w) := fun separators =>
      begun (List.forall_mem_append.mp separators).2
    rw [List.append_assoc]
    refine ih (.within mem (begun_of_not_separators begun') ?_) begun'
    rw [← List.singleton_append]
    exact inside.append.after word

/-- Statements are opened at the beginning of a script and behind a curly bracket. -/
theorem Opens.statements_iff {u : List Token} : Opens u (.phrase .statements) ↔
    u = [] ∨ ∃ v t, u = v ++ [t] ∧ t.kind = .leftCurl ∧ Opens v (.phrase .block) := by
  constructor
  · intro h
    cases h with
    | script => exact .inl rfl
    | @within p _ before after u v opens mem word =>
      -- of all productions only that of a block has statements in it
      have only : ∀ production ∈ productions p, Symbol.phrase .statements ∈ production →
          p = .phrase .block := by
        cases p with
        | phrase p =>
          cases p with
          | joined level => cases level <;> decide
          | _ => decide
        | furtherOperands level => cases level <;> decide
        | _ => decide
      obtain rfl := only _ mem (by simp)
      obtain ⟨rfl, -⟩ : before = [.kind .leftCurl] ∧ after = [.kind .rightCurl] := by
        simpa [productions, List.append_eq_cons_iff, List.cons_eq_append_iff] using mem
      obtain ⟨t, rest, rfl, isCurl, word⟩ := derives_kind_iff.mp word
      obtain rfl := derives_nil_iff.mp word
      exact .inr ⟨u, t, rfl, isCurl, opens⟩
  · rintro (rfl | ⟨v, t, rfl, isCurl, opens⟩)
    · exact .script
    · have block : [.kind .leftCurl] ++ [.phrase .statements, .kind .rightCurl] ∈
          productions (.phrase .block) :=
        List.mem_cons_self
      exact opens.within block (.kind isCurl .nil)

/-- A part asks for something behind a cue in it. -/
theorem Cue.awaits {cue : Cue} {item : Item} (isItem : item ∈ cue.items)
    (word : Derives item.before w) (ne : w ≠ []) : Awaits [.part item.part] w cue.asks := by
  have ⟨notFurther, mem, firstAsks, _⟩ := Cue.table isItem
  have asks := (awaits_of_firstAsks firstAsks).after word
  rw [List.append_nil] at asks
  exact .within mem ((begun_iff notFurther).mpr ne) asks

/-- What the beginning of a script asks for is settled by what its last token is. -/
theorem awaits_statements_iff :
    Awaits [.phrase .statements] w kind ↔ ∃ cue : Cue, cue.Ends w ∧ cue.asks = kind := by
  constructor
  · intro h
    rcases awaits_part_iff.mp h with ⟨rfl, asks⟩ | ⟨begun, production, mem, inside⟩
    · exact ⟨.nothing, .inl ⟨rfl, rfl⟩, Option.some.inj asks⟩
    · exact inside.exists_cue .script ((List.nil_append _).symm ▸ mem) .nil begun
  · rintro ⟨cue, ⟨rfl, rfl⟩ | ⟨item, isItem, u, v, rfl, ne, opens, word⟩, rfl⟩
    · exact .here rfl
    · have inside := Cue.awaits isItem word ne
      -- a separator may lead at the beginning of a script or of a block, and any other cue
      -- anywhere
      by_cases leading : cue = .leadingSeparator
      · subst leading
        obtain rfl := List.mem_singleton.mp isItem
        rcases Opens.statements_iff.mp opens with rfl | ⟨u, t, rfl, isCurl, opens⟩
        · exact inside
        · rw [← List.append_cons]
          refine opens.awaits (.within List.mem_cons_self (List.cons_ne_nil _ _)
            (.kind isCurl inside.append)) fun separators => ?_
          simpa [isCurl] using separators t List.mem_cons_self
      · obtain ⟨v, t, rfl, -, other⟩ := Cue.exists_last isItem word leading
        exact opens.awaits inside fun separators => other (separators t (by simp))

/-- The last token of what ends in a cue has a kind that fits the cue. -/
theorem Cue.Ends.kind_mem {cue : Cue} (h : cue.Ends w) :
    w.getLast?.map Token.kind ∈ cue.kinds := by
  rcases h with ⟨rfl, rfl⟩ | ⟨item, isItem, u, v, rfl, ne, -, word⟩
  · exact List.mem_singleton.mpr rfl
  rw [List.getLast?_append_of_ne_nil u ne]
  by_cases leading : cue = .leadingSeparator
  · subst leading
    obtain rfl := List.mem_singleton.mp isItem
    have separators := derives_separators_iff.mp word
    have isSeparator := separators _ (List.getLast_mem ne)
    simp [List.getLast?_eq_some_getLast ne, isSeparator, kinds]
  · obtain ⟨v, t, rfl, fits, -⟩ := Cue.exists_last isItem word leading
    simpa using fits

end Scriptlet
