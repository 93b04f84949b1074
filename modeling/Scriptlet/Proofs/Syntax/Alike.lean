import Mathlib.Data.List.Forall2
import Scriptlet.Proofs.Syntax.Failing
import Scriptlet.Proofs.Syntax.Soundness
import Scriptlet.Proofs.Syntax.Unplaced

/-!
# Reading by content

Two lists of tokens are read side by side. Where they agree in the content of their tokens, rules
do the same on both: they read as many tokens, build trees of the same content, and fail at the
same token for the same reason. Places may differ; those of what is read or missed correspond as
those of the tokens do.

The lists may end in tokens about which nothing is known. Rules look one token ahead, so that
all this holds up to the last token that is known to agree.

## Main definitions

* `Pairing` — how the places of two lists of tokens correspond, and how the lists end
* `Token.Alike`, `Tree.Alike`, `Cursor.Alike`, `Failure.Alike` — the same content, and places that
  correspond
* `Cursor.Sees` — what comes next at a cursor is not among the tokens at the end
* `Rule.Alike` — rules that do the same at cursors that are alike

## Main results

* `Rule.Alike.bind`, `Rule.Alike.onNext`, `Rule.Alike.pin` — rules composed of rules that are alike
* `Rule.Alike.binaryChain`, `Rule.Alike.afterCommas`, `Rule.Alike.statements` — so do loops
-/

namespace Scriptlet

/-- How the places where tokens of two lists begin correspond, and the tokens at the ends of the
lists about which nothing is known. -/
structure Pairing where
  starts : Position → Position → Prop
  rest : List Token
  rest' : List Token

/-- Two tokens of the same content that begin at places that correspond. -/
structure Token.Alike (m : Pairing) (t u : Token) : Prop where
  unplaced : t.unplaced = u.unplaced
  start : m.starts t.start u.start

/-- Two trees of the same content that begin at places that correspond. -/
structure Tree.Alike (m : Pairing) (tree tree' : Tree) : Prop where
  unplaced : tree.unplaced = tree'.unplaced
  start : m.starts tree.start tree'.start

/-- Two cursors behind as many tokens that are alike. Tokens that are alike are ahead too, and
then those about which nothing is known. -/
structure Cursor.Alike (m : Pairing) (c d : Cursor) : Prop where
  ahead : ∃ w v, c.ahead = w ++ m.rest ∧ d.ahead = v ++ m.rest' ∧
    List.Forall₂ (Token.Alike m) w v
  passed : List.Forall₂ (Token.Alike m) c.passed d.passed
  final : c.final.Alike m d.final

/-- What comes next at the cursor is not among the tokens about which nothing is known. If there
are none of these, that is so at the end, too. -/
def Cursor.Sees (m : Pairing) (c : Cursor) : Prop :=
  m.rest.length < c.left ∨ m.rest = [] ∧ m.rest' = []

/-- The same is missed, or trees that are alike stand in the place of an assignment. -/
inductive Failure.Cause.Alike (m : Pairing) : Failure.Cause → Failure.Cause → Prop
  | missing {kind : ParseError.Kind} : Alike m (.missing kind) (.missing kind)
  | notAssignment {tree tree' : Tree} :
    tree.Alike m tree' → Alike m (.notAssignment tree) (.notAssignment tree')

/-- Two failures for the same reason, at cursors that are alike. -/
structure Failure.Alike (m : Pairing) (f f' : Failure) : Prop where
  cause : f.cause.Alike m f'.cause
  cursor : f.cursor.Alike m f'.cursor

variable {m : Pairing}

theorem Token.Alike.kind_eq {t u : Token} (h : t.Alike m u) : t.kind = u.kind :=
  Token.kind_of_unplaced_eq h.unplaced

theorem Token.map_unplaced_eq_of_alike {w v : List Token}
    (h : List.Forall₂ (Token.Alike m) w v) : w.map Token.unplaced = v.map Token.unplaced := by
  induction h with
  | nil => rfl
  | cons first _ ih => rw [List.map_cons, List.map_cons, first.unplaced, ih]

theorem Tree.unplacedEach_eq_of_alike {trees trees' : List Tree}
    (h : List.Forall₂ (Tree.Alike m) trees trees') :
    Tree.unplacedEach trees = Tree.unplacedEach trees' := by
  induction h with
  | nil => rfl
  | cons first _ ih => rw [Tree.unplacedEach, Tree.unplacedEach, first.unplaced, ih]

/-- Each token on the second side has a partner on the first. -/
theorem exists_alike_of_mem {w v : List Token} {u : Token}
    (h : List.Forall₂ (Token.Alike m) w v) (mem : u ∈ v) : ∃ t ∈ w, t.Alike m u := by
  induction h with
  | nil => cases mem
  | cons first _ ih =>
    rcases List.mem_cons.mp mem with rfl | mem
    · exact ⟨_, List.mem_cons_self, first⟩
    · obtain ⟨t, mem, alike⟩ := ih mem
      exact ⟨t, List.mem_cons_of_mem _ mem, alike⟩

/-! ### Cursors -/

namespace Cursor

variable {c c₁ d : Cursor} {t : Token} {w : List Token}

theorem Sees.of_left_le (h : c₁.Sees m) (le : c₁.left ≤ c.left) : c.Sees m :=
  h.imp_left fun lt => Nat.lt_of_lt_of_le lt le

namespace Alike

/-- As many tokens are ahead of one cursor as of the other, but for those at the ends. -/
theorem left_add (h : c.Alike m d) : c.left + m.rest'.length = d.left + m.rest.length := by
  obtain ⟨⟨w, v, ahead, ahead', alike⟩, -, -⟩ := h
  simp only [left, ahead, ahead', List.length_append, alike.length_eq]
  omega

theorem left_eq_iff {d₁ : Cursor} (h : c.Alike m d) (h₁ : c₁.Alike m d₁) :
    c₁.left = c.left ↔ d₁.left = d.left := by
  have eq := h.left_add
  have eq₁ := h₁.left_add
  omega

/-- What comes next is alike. -/
theorem take? (h : c.Alike m d) (sees : c.Sees m) :
    (c.ahead = [] ∧ d.ahead = []) ∨ ∃ t c₁ u d₁, c.take? = some (t, c₁) ∧
      d.take? = some (u, d₁) ∧ t.Alike m u ∧ c₁.Alike m d₁ := by
  obtain ⟨⟨w, v, ahead, ahead', alike⟩, passed, final⟩ := h
  cases alike with
  | nil =>
    -- the tokens known to agree are all read, so that there are no others either
    rcases sees with less | ⟨rest, rest'⟩
    · simp [left, ahead] at less
    · exact .inl ⟨by simp [ahead, rest], by simp [ahead', rest']⟩
  | @cons t u w v first others =>
    refine .inr ⟨t, ⟨t :: c.passed, w ++ m.rest, c.final⟩, u,
      ⟨u :: d.passed, v ++ m.rest', d.final⟩,
      take?_eq_some_iff.mpr ⟨ahead, rfl, rfl⟩, take?_eq_some_iff.mpr ⟨ahead', rfl, rfl⟩, first,
      ⟨w, v, rfl, rfl, others⟩, .cons first passed, final⟩

theorem taken (h : c.Alike m d) (sees : c.Sees m) (taken : c.take? = some (t, c₁)) :
    ∃ u d₁, d.take? = some (u, d₁) ∧ t.Alike m u ∧ c₁.Alike m d₁ := by
  rcases h.take? sees with ⟨none, -⟩ | ⟨t', c₁', u, d₁, taken', there, alike, behind⟩
  · rw [take?_eq_none_iff.mpr none] at taken
    cases taken
  · obtain ⟨rfl, rfl⟩ : t' = t ∧ c₁' = c₁ := by simpa [taken'] using taken
    exact ⟨u, d₁, there, alike, behind⟩

/-- The next token on one side is like that on the other. -/
theorem exists_head (h : c.Alike m d) (sees : c.Sees m) {u : Token}
    (head : d.ahead.head? = some u) : ∃ t, c.ahead.head? = some t ∧ t.Alike m u := by
  rcases h.take? sees with ⟨-, none⟩ | ⟨t, c₁, u', d₁, taken, there, alike, -⟩
  · simp [none] at head
  · obtain rfl := eq_of_take? there head
    exact ⟨t, head?_of_take? taken, alike⟩

/-- What comes next is alike where it is the end of input, too. -/
theorem current (h : c.Alike m d) (sees : c.Sees m) : c.current.Alike m d.current := by
  rcases h.take? sees with ⟨none, none'⟩ | ⟨t, c₁, u, d₁, taken, there, alike, -⟩
  · simpa [Cursor.current, none, none'] using h.final
  · simpa [Cursor.current, (take?_eq_some_iff.mp taken).1, (take?_eq_some_iff.mp there).1]

/-- Tokens that are alike are read on both sides. -/
theorem reads (h : c.Alike m d) (reads : c.Reads w c₁) (sees : c₁.Sees m) :
    ∃ v d₁, d.Reads v d₁ ∧ List.Forall₂ (Token.Alike m) w v ∧ c₁.Alike m d₁ := by
  induction w generalizing c d with
  | nil =>
    obtain rfl := reads_nil_iff.mp reads
    exact ⟨[], d, .refl d, .nil, h⟩
  | cons t w ih =>
    obtain ⟨c₂, taken, reads⟩ := reads_cons_iff.mp reads
    have le := Nat.le_trans reads.left_le (Nat.le_of_lt (left_lt_of_take? taken))
    obtain ⟨u, d₂, there, alike, behind⟩ := h.taken (sees.of_left_le le) taken
    obtain ⟨v, d₁, reads', alikeEach, behind'⟩ := ih behind reads
    exact ⟨u :: v, d₁, reads'.behind there, .cons alike alikeEach, behind'⟩

end Alike

theorem kind_ne_separator {t : Token} (head : c.skipSeparators.ahead.head? = some t) :
    t.kind ≠ .separator := by
  have not := List.head?_dropWhile_not (·.kind == .separator) c.ahead
  rw [show c.ahead.dropWhile (·.kind == .separator) = c.skipSeparators.ahead from rfl, head] at not
  simpa using not

/-- The same separators are skipped on both sides. -/
theorem Alike.skipSeparators (h : c.Alike m d) (sees : c.skipSeparators.Sees m) :
    c.skipSeparators.Alike m d.skipSeparators := by
  obtain ⟨v, d₁, reads, alikeEach, alike⟩ := h.reads c.reads_skipSeparators sees
  have separators : Separators v := by
    intro u mem
    obtain ⟨t, mem, alike⟩ := exists_alike_of_mem alikeEach mem
    rw [← alike.kind_eq]
    exact c.separators_takeWhile t mem
  have ended : ∀ u, d₁.ahead.head? = some u → u.kind ≠ .separator := by
    intro u head
    obtain ⟨t, head, same⟩ := alike.exists_head sees head
    rw [← same.kind_eq]
    exact kind_ne_separator head
  rwa [skipSeparators_eq reads separators ended]

end Cursor

/-! ### Rules -/

namespace Rule

variable {n k i j size size' : Nat} {α β : Type} {given : Prop} {R : α → α → Prop}
  {Q : β → β → Prop} {rule other : Rule n α} {rule' other' : Rule k α}

/-- The rules do the same at cursors that are alike and have fewer than `size` tokens ahead,
`given` what is known of values read before: what one reads is related to what the other reads,
and where one fails so does the other. All this holds where what comes next afterwards is not
among the tokens about which nothing is known. No rule fails further back than where it begins. -/
structure Alike (m : Pairing) (size : Nat) (given : Prop) (R : α → α → Prop) (rule : Rule n α)
    (rule' : Rule k α) : Prop where
  onward {c f} : c.left < size → rule.Fails c f → f.cursor.left ≤ c.left
  yields {c d a c'} : given → c.left < size → c.Alike m d → d.left < k → rule.Yields c a c' →
    c'.Sees m → ∃ b d', rule'.Yields d b d' ∧ R a b ∧ c'.Alike m d'
  fails {c d f} : given → c.left < size → c.Alike m d → d.left < k → rule.Fails c f →
    f.cursor.Sees m → ∃ f', rule'.Fails d f' ∧ f.Alike m f'

namespace Alike

/-- What is given may be used. -/
theorem of_given (onward : ∀ {c f}, c.left < size → rule.Fails c f → f.cursor.left ≤ c.left)
    (alike : given → Alike m size given R rule rule') : Alike m size given R rule rule' where
  onward := onward
  yields holds := (alike holds).yields holds
  fails holds := (alike holds).fails holds

protected theorem pure {a b : α} (related : given → R a b) :
    Alike m size given R (pure a : Rule n α) (pure b : Rule k α) where
  onward _ failed := absurd failed not_fails_pure
  yields holds _ alike room yields _ := by
    obtain ⟨-, rfl, rfl⟩ := yields_pure.mp yields
    exact ⟨b, _, yields_pure.mpr ⟨room, rfl, rfl⟩, related holds, alike⟩
  fails _ _ _ _ failed := absurd failed not_fails_pure

/-- Failures are alike if their causes are. -/
theorem fail {cause cause' : Failure.Cause} (same : given → cause.Alike m cause') :
    Alike m size given R (fail cause : Rule n α) (Rule.fail cause' : Rule k α) where
  onward _ failed := by
    obtain ⟨-, rfl⟩ := fails_fail.mp failed
    exact Nat.le_refl _
  yields _ _ _ _ yields := absurd yields not_yields_fail
  fails holds _ alike room failed _ := by
    obtain ⟨-, rfl⟩ := fails_fail.mp failed
    exact ⟨_, fails_fail.mpr ⟨room, rfl⟩, same holds, alike⟩

theorem missing {kind : ParseError.Kind} :
    Alike m size given R (missing kind : Rule n α) (Rule.missing kind : Rule k α) :=
  fail fun _ => .missing

theorem here : Alike m size given m.starts (here : Rule n Position) (Rule.here : Rule k Position)
    where
  onward _ failed := absurd failed not_fails_here
  yields _ _ alike room yields sees := by
    obtain ⟨-, rfl, rfl⟩ := yields_here.mp yields
    exact ⟨_, _, yields_here.mpr ⟨room, rfl, rfl⟩, (alike.current sees).start, alike⟩
  fails _ _ _ _ failed := absurd failed not_fails_here

theorem lastStop : Alike m size given (fun _ _ => True) (lastStop : Rule n Position)
    (Rule.lastStop : Rule k Position) where
  onward _ failed := absurd failed not_fails_lastStop
  yields _ _ alike room yields _ := by
    obtain ⟨-, rfl, rfl⟩ := yields_lastStop.mp yields
    exact ⟨_, _, yields_lastStop.mpr ⟨room, rfl, rfl⟩, trivial, alike⟩
  fails _ _ _ _ failed := absurd failed not_fails_lastStop

theorem skipSeparators : Alike m size given (fun _ _ => True) (skipSeparators : Rule n Unit)
    (Rule.skipSeparators : Rule k Unit) where
  onward _ failed := absurd failed not_fails_skipSeparators
  yields _ _ alike room yields sees := by
    obtain ⟨-, rfl⟩ := yields_skipSeparators.mp yields
    exact ⟨(), _, yields_skipSeparators.mpr ⟨room, rfl⟩, trivial, alike.skipSeparators sees⟩
  fails _ _ _ _ failed := absurd failed not_fails_skipSeparators

/-- What the first rules read on both sides may be used for the second. -/
protected theorem bind {next : α → Rule n β} {next' : α → Rule k β}
    (first : Alike m size given R rule rule')
    (second : ∀ a b, Alike m size (given ∧ R a b) Q (next a) (next' b)) :
    Alike m size given Q (rule >>= next) (rule' >>= next') where
  onward lt failed := by
    rcases fails_bind.mp failed with failed | ⟨a, c₁, yields, failed⟩
    · exact first.onward lt failed
    · have le := yields.left_le
      exact Nat.le_trans ((second a a).onward (Nat.lt_of_le_of_lt le lt) failed) le
  yields holds lt alike room yields sees := by
    obtain ⟨a, c₁, yields, further⟩ := yields_bind.mp yields
    obtain ⟨b, d₁, yields', related, alike₁⟩ :=
      first.yields holds lt alike room yields (sees.of_left_le further.left_le)
    obtain ⟨b₂, d₂, further', related₂, alike₂⟩ := (second a b).yields ⟨holds, related⟩
      (Nat.lt_of_le_of_lt yields.left_le lt) alike₁ (Nat.lt_of_le_of_lt yields'.left_le room)
      further sees
    exact ⟨b₂, d₂, yields_bind.mpr ⟨b, d₁, yields', further'⟩, related₂, alike₂⟩
  fails holds lt alike room failed sees := by
    rcases fails_bind.mp failed with failed | ⟨a, c₁, yields, failed⟩
    · obtain ⟨f', failed', same⟩ := first.fails holds lt alike room failed sees
      exact ⟨f', fails_bind.mpr (.inl failed'), same⟩
    · have lt₁ := Nat.lt_of_le_of_lt yields.left_le lt
      obtain ⟨b, d₁, yields', related, alike₁⟩ := first.yields holds lt alike room yields
        (sees.of_left_le ((second a a).onward lt₁ failed))
      obtain ⟨f', failed', same⟩ := (second a b).fails ⟨holds, related⟩ lt₁ alike₁
        (Nat.lt_of_le_of_lt yields'.left_le room) failed sees
      exact ⟨f', fails_bind.mpr (.inr ⟨b, d₁, yields', failed'⟩), same⟩

/-- Rules that decide by the content of the next token decide alike. -/
theorem onNext (room : n ≤ i + 1) (room' : k ≤ j + 1) {choose : Token → Option (Rule i α)}
    {choose' : Token → Option (Rule j α)}
    (chosen : ∀ {size'}, size' < size → ∀ t u, t.unplaced = u.unplaced →
      Option.Rel (Alike m size' (given ∧ t.Alike m u) R) (choose t) (choose' u))
    (others : Alike m size given R other other') :
    Alike m size given R (onNext room choose other) (Rule.onNext room' choose' other') := by
  -- what the next token chooses on one side it chooses on the other
  have chooses {c : Cursor} {t u : Token} {rule : Rule i α} (lt : c.left < size)
      (same : t.unplaced = u.unplaced) (eq : choose t = some rule) :
      ∃ rule', choose' u = some rule' ∧ Alike m c.left (given ∧ t.Alike m u) R rule rule' := by
    have related := chosen lt t u same
    rw [eq] at related
    generalize choose' u = chosen' at related
    cases related with
    | some alike => exact ⟨_, rfl, alike⟩
  have choosesNone {c d : Cursor} (lt : c.left < size) (alike : c.Alike m d) (sees : c.Sees m)
      (none : ∀ t, c.ahead.head? = some t → choose t = none) (u : Token)
      (head : d.ahead.head? = some u) : choose' u = Option.none := by
    obtain ⟨t, head, same⟩ := alike.exists_head sees head
    have related := chosen lt t u same.unplaced
    rw [none t head] at related
    generalize choose' u = chosen' at related
    cases related
    rfl
  constructor
  case onward =>
    intro c f lt failed
    rcases fails_onNext.mp failed with ⟨-, t, c₁, rule, taken, eq, failed⟩ | ⟨-, failed⟩
    · obtain ⟨_, -, alike⟩ := chooses lt rfl eq
      have shorter := Cursor.left_lt_of_take? taken
      exact Nat.le_trans (alike.onward shorter failed) (Nat.le_of_lt shorter)
    · exact others.onward lt failed
  case yields =>
    intro c d a c' holds lt alike isRoom yields sees
    have seesHere := sees.of_left_le yields.left_le
    rcases yields_onNext.mp yields with ⟨-, t, c₁, rule, taken, eq, yields⟩ | ⟨none, yields⟩
    · obtain ⟨u, d₁, there, same, behind⟩ := alike.taken seesHere taken
      obtain ⟨rule', eq', alike'⟩ := chooses lt same.unplaced eq
      have shorter := Cursor.left_lt_of_take? there
      obtain ⟨b, d', yields', result⟩ := alike'.yields ⟨holds, same⟩
        (Cursor.left_lt_of_take? taken) behind (by omega) yields sees
      exact ⟨b, d', yields_onNext.mpr (.inl ⟨isRoom, u, d₁, rule', there, eq', yields'⟩), result⟩
    · obtain ⟨b, d', yields', result⟩ := others.yields holds lt alike isRoom yields sees
      exact ⟨b, d', yields_onNext.mpr (.inr ⟨choosesNone lt alike seesHere none, yields'⟩), result⟩
  case fails =>
    intro c d f holds lt alike isRoom failed sees
    rcases fails_onNext.mp failed with ⟨-, t, c₁, rule, taken, eq, failed⟩ | ⟨none, failed⟩
    · have shorter := Cursor.left_lt_of_take? taken
      obtain ⟨_, -, self⟩ := chooses lt rfl eq
      have seesBehind := sees.of_left_le (self.onward shorter failed)
      obtain ⟨u, d₁, there, same, behind⟩ :=
        alike.taken (seesBehind.of_left_le (Nat.le_of_lt shorter)) taken
      obtain ⟨rule', eq', alike'⟩ := chooses lt same.unplaced eq
      have shorter' := Cursor.left_lt_of_take? there
      obtain ⟨f', failed', result⟩ :=
        alike'.fails ⟨holds, same⟩ shorter behind (by omega) failed sees
      exact ⟨f', fails_onNext.mpr (.inl ⟨isRoom, u, d₁, rule', there, eq', failed'⟩), result⟩
    · obtain ⟨f', failed', result⟩ := others.fails holds lt alike isRoom failed sees
      have seesHere := sees.of_left_le (others.onward lt failed)
      exact ⟨f', fails_onNext.mpr (.inr ⟨choosesNone lt alike seesHere none, failed'⟩), result⟩

/-- Whether a token is as asked does not depend on its places. -/
theorem ifNext {asked : Token → Bool} {after : Token → Rule n α} {after' : Token → Rule k α}
    (content : ∀ t, asked t.unplaced = asked t)
    (behind : ∀ {size'}, size' < size → ∀ t u,
      Alike m size' (given ∧ t.Alike m u) R (after t) (after' u))
    (others : Alike m size given R other other') :
    Alike m size given R (ifNext asked after other) (Rule.ifNext asked after' other') := by
  refine onNext _ _ (fun smaller t u same => ?_) others
  rw [← content t, ← content u, same]
  split
  · exact .some (behind smaller t u)
  · exact .none

/-- A choice within the levels is alike if both of its ways are. -/
theorem within {asked : Token → Bool} {after : Token → Rule n α} {after' : Token → Rule k α}
    {other : Rule (n + 1) α} {other' : Rule (k + 1) α} (content : ∀ t, asked t.unplaced = asked t)
    (behind : ∀ {size'}, size' < size → ∀ t u,
      Alike m size' (given ∧ t.Alike m u) R (after t) (after' u))
    (others : Alike m size given R other other') :
    Alike m size given R (within asked after other) (Rule.within asked after' other') := by
  refine onNext (Nat.le_refl _) (Nat.le_refl _) (fun smaller t u same => ?_) others
  rw [← content t, ← content u, same]
  split
  · exact .some (behind smaller t u)
  · exact .none

theorem expect {kind : Token.Kind} {what : Expectation} :
    Alike m size given (Token.Alike m) (expect kind what : Rule n Token)
      (Rule.expect kind what : Rule k Token) :=
  ifNext (fun _ => rfl) (fun _ _ _ => .pure And.right) missing

/-- A failure at once on one side is one at once on the other. -/
theorem pin {kind : ParseError.Kind} (alike : Alike m size given R rule rule') :
    Alike m size given R (pin kind rule) (Rule.pin kind rule') where
  onward {c f} lt failed := by
    obtain ⟨f', inside, rfl⟩ := fails_pin.mp failed
    split
    · exact Nat.le_refl _
    · exact alike.onward lt inside
  yields {c d a c'} holds lt behind room yields sees := by
    obtain ⟨b, d', yields', result⟩ :=
      alike.yields holds lt behind room (yields_pin.mp yields) sees
    exact ⟨b, d', yields_pin.mpr yields', result⟩
  fails {c d f} holds lt behind room failed sees := by
    obtain ⟨f₁, inside, rfl⟩ := fails_pin.mp failed
    have seesInside : f₁.cursor.Sees m := by
      split at sees
      · next atOnce => exact sees.of_left_le (Nat.le_of_eq atOnce.symm)
      · exact sees
    obtain ⟨f₂, failed', same⟩ := alike.fails holds lt behind room inside seesInside
    refine ⟨_, fails_pin.mpr ⟨f₂, failed', rfl⟩, ?_⟩
    simp only [behind.left_eq_iff same.cursor]
    split
    · exact ⟨.missing, behind⟩
    · exact same

/-! ### Loops

In each round a token is read, so that the induction is on the tokens ahead. -/

theorem binaryChainFrom {isOperator : Token.Kind → Bool} {operand : Rule n Tree}
    {operand' : Rule k Tree} {left left' : Tree}
    (operands : ∀ {size given}, Alike m size given (Tree.Alike m) operand operand')
    (lefts : given → left.Alike m left') :
    Alike m size given (Tree.Alike m) (binaryChainFrom isOperator operand left)
      (Rule.binaryChainFrom isOperator operand' left') := by
  induction size using Nat.strongRecOn generalizing given left left' with
  | ind size ih =>
    rw [binaryChainFrom_eq isOperator operand, binaryChainFrom_eq isOperator operand']
    refine ifNext (fun _ => rfl)
      (fun smaller t u => operands.bind fun right right' => ih _ smaller ?_) (.pure lefts)
    rintro ⟨⟨holds, operator⟩, right⟩
    exact ⟨by simp only [Tree.unplaced, (lefts holds).unplaced, operator.unplaced, right.unplaced],
      (lefts holds).start⟩

/-- Chains of operands are alike if the operands are. -/
theorem binaryChain {isOperator : Token.Kind → Bool} {operand : Rule n Tree}
    {operand' : Rule k Tree}
    (operands : ∀ {size given}, Alike m size given (Tree.Alike m) operand operand') :
    Alike m size given (Tree.Alike m) (binaryChain isOperator operand)
      (Rule.binaryChain isOperator operand') :=
  operands.bind fun _ _ => binaryChainFrom operands And.right

theorem afterCommas (items : ∀ {size given}, Alike m size given R rule rule') :
    Alike m size given (List.Forall₂ R) (afterCommas rule) (Rule.afterCommas rule') := by
  induction size using Nat.strongRecOn generalizing given with
  | ind size ih =>
    rw [afterCommas_eq rule, afterCommas_eq rule']
    refine ifNext (fun _ => rfl) (fun smaller t u => items.bind fun a b =>
      (ih _ smaller).bind fun others others' => .pure ?_) (.pure fun _ => .nil)
    rintro ⟨⟨-, related⟩, further⟩
    exact .cons related further

section Statements

variable {statement : Rule n Tree} {statement' : Rule k Tree}

/-- Statements behind separators are alike, since as many separators are skipped on either
side. -/
theorem furtherStatements
    (alike : ∀ {size given}, Alike m size given (Tree.Alike m) statement statement') :
    Alike m size given (List.Forall₂ (Tree.Alike m)) (furtherStatements statement)
      (Rule.furtherStatements statement') := by
  -- on both sides separators are skipped, or on neither
  have skips {c d : Cursor} (behind : c.Alike m d) (sees : c.skipSeparators.Sees m) :
      c.skipSeparators.left < c.left ↔ d.skipSeparators.left < d.left := by
    have iff := behind.left_eq_iff (behind.skipSeparators sees)
    have le := c.left_skipSeparators_le
    have le' := d.left_skipSeparators_le
    omega
  induction size using Nat.strongRecOn with
  | ind size ih =>
  -- a round in which no separator is skipped is the last, so the induction is on what is seen
  have first : Alike m size given (Tree.Alike m) statement statement' := alike
  constructor
  case onward =>
    intro c f lt failed
    have le := c.left_skipSeparators_le
    obtain ⟨shorter, -, ⟨failed, -⟩ | ⟨tree, c₁, yields, failed⟩⟩ :=
      fails_furtherStatements.mp failed
    · exact Nat.le_trans (first.onward (Nat.lt_of_le_of_lt le lt) failed) le
    · have shorter₁ := Nat.lt_of_le_of_lt yields.left_le shorter
      exact Nat.le_trans ((ih _ lt).onward shorter₁ failed) (Nat.le_of_lt shorter₁)
  case yields =>
    intro c d trees c' holds lt behind room yields sees
    have ltSkip := Nat.lt_of_le_of_lt c.left_skipSeparators_le lt
    have roomSkip := Nat.lt_of_le_of_lt d.left_skipSeparators_le room
    rcases yields_furtherStatements.mp yields with
      ⟨shorter, -, tree, c₁, others, rfl, read, further⟩ | ⟨shorter, -, refuses, rfl, rfl⟩ |
      ⟨same, -, rfl, rfl⟩
    · have sees₁ := sees.of_left_le further.left_le
      have seesSkip := sees₁.of_left_le read.left_le
      obtain ⟨tree', d₁, read', related, alike₁⟩ :=
        first.yields holds ltSkip (behind.skipSeparators seesSkip) roomSkip read sees₁
      obtain ⟨others', d', further', relatedEach, alike'⟩ := (ih _ lt).yields holds
        (Nat.lt_of_le_of_lt read.left_le shorter) alike₁
        (Nat.lt_of_le_of_lt read'.left_le roomSkip) further sees
      exact ⟨tree' :: others', d', yields_furtherStatements.mpr (.inl
        ⟨(skips behind seesSkip).mp shorter, room, tree', d₁, others', rfl, read', further'⟩),
        .cons related relatedEach, alike'⟩
    · -- a statement that is refused on one side is refused on the other, at the same place
      obtain ⟨f, failed, atOnce⟩ := refuses_iff.mp refuses
      obtain ⟨f', failed', same⟩ := first.fails holds ltSkip (behind.skipSeparators sees) roomSkip
        failed (sees.of_left_le (Nat.le_of_eq atOnce.symm))
      have refuses' := refuses_iff.mpr
        ⟨f', failed', ((behind.skipSeparators sees).left_eq_iff same.cursor).mp atOnce⟩
      exact ⟨[], _, yields_furtherStatements.mpr (.inr (.inl
        ⟨(skips behind sees).mp shorter, room, refuses', rfl, rfl⟩)), .nil,
        behind.skipSeparators sees⟩
    · have seesSkip : Cursor.Sees m c'.skipSeparators := sees.of_left_le (Nat.not_lt.mp same)
      exact ⟨[], d, yields_furtherStatements.mpr (.inr (.inr
        ⟨mt (skips behind seesSkip).mpr same, room, rfl, rfl⟩)), .nil, behind⟩
  case fails =>
    intro c d f holds lt behind room failed sees
    have ltSkip := Nat.lt_of_le_of_lt c.left_skipSeparators_le lt
    have roomSkip := Nat.lt_of_le_of_lt d.left_skipSeparators_le room
    obtain ⟨shorter, -, ⟨failed, further⟩ | ⟨tree, c₁, read, failed⟩⟩ :=
      fails_furtherStatements.mp failed
    · have seesSkip := sees.of_left_le (first.onward ltSkip failed)
      obtain ⟨f', failed', same⟩ :=
        first.fails holds ltSkip (behind.skipSeparators seesSkip) roomSkip failed sees
      have further' := mt ((behind.skipSeparators seesSkip).left_eq_iff same.cursor).mpr further
      exact ⟨f', fails_furtherStatements.mpr
        ⟨(skips behind seesSkip).mp shorter, room, .inl ⟨failed', further'⟩⟩, same⟩
    · have shorter₁ := Nat.lt_of_le_of_lt read.left_le shorter
      have sees₁ := sees.of_left_le ((ih _ lt).onward shorter₁ failed)
      have seesSkip := sees₁.of_left_le read.left_le
      obtain ⟨tree', d₁, read', related, alike₁⟩ :=
        first.yields holds ltSkip (behind.skipSeparators seesSkip) roomSkip read sees₁
      obtain ⟨f', failed', same⟩ := (ih _ lt).fails holds shorter₁ alike₁
        (Nat.lt_of_le_of_lt read'.left_le roomSkip) failed sees
      exact ⟨f', fails_furtherStatements.mpr
        ⟨(skips behind seesSkip).mp shorter, room, .inr ⟨tree', d₁, read', failed'⟩⟩, same⟩

/-- Statements with the separators around them are alike if each statement is. -/
theorem statements
    (alike : ∀ {size given}, Alike m size given (Tree.Alike m) statement statement') :
    Alike m size given (Tree.Alike m) (statements statement) (Rule.statements statement') := by
  refine here.bind fun _ _ => skipSeparators.bind fun _ _ => alike.bind fun first first' =>
    (furtherStatements alike).bind fun others others' => lastStop.bind fun _ _ => .pure ?_
  rintro ⟨⟨⟨⟨⟨-, start⟩, -⟩, first⟩, others⟩, -⟩
  exact ⟨by simp only [Tree.unplaced, Tree.unplacedEach, first.unplaced,
    Tree.unplacedEach_eq_of_alike others], start⟩

end Statements

end Alike

end Rule

end Scriptlet
