import Scriptlet.Proofs.Syntax.Failing
import Scriptlet.Proofs.Syntax.Productions
import Scriptlet.Proofs.Syntax.Soundness

/-!
# Rules that recognize words

A rule recognizes the words of a language if it reads nothing else, if what it has read where
something is missing can be completed to a word, and if it reads each word to its end. The last
holds only where the word is not followed by a token with which the rule would go on; and in place
of reading a word a rule may find, behind its first token, that the header of a `for` loop has no
assignment.

## Main definitions

* `Cursor.Bars` — a cursor where none of some tokens comes next
* `Rule.Gets` — a rule reads up to a cursor, or misses an assignment
* `Rule.Recognizes` — a rule recognizes the words of a language
* `Leads` — what may stand behind a word, where a word of another sort comes next

## Main results

* `Rule.Recognizes.bind`, `Rule.Recognizes.ifNext`, `Rule.Recognizes.pin` — composed rules
* `Rule.Recognizes.binaryChain`, `Rule.Recognizes.afterCommas`, `Rule.Recognizes.statements` — loops
-/

namespace Scriptlet

/-- None of these tokens comes next. -/
def Cursor.Bars (c : Cursor) (barred : Token → Prop) : Prop :=
  ∀ t, c.ahead.head? = some t → ¬ barred t

/-- Words of these symbols begin with no token of the first sort, and an empty one leaves them
barred where those of the second sort are. -/
structure Leads (body : List Symbol) (barred barred' : Token → Prop) : Prop where
  head {t w} : Derives body (t :: w) → ¬ barred t
  empty : Derives body [] → ∀ t, barred t → barred' t

namespace Leads

variable {body : List Symbol} {barred barred' : Token → Prop}

/-- Nothing has to be barred. -/
theorem never : Leads body (fun _ => False) barred' := ⟨fun _ => id, fun _ _ => False.elim⟩

theorem nil (h : ∀ t, barred t → barred' t) : Leads [] barred barred' :=
  ⟨fun word => absurd (derives_nil_iff.mp word) (List.cons_ne_nil _ _), fun _ => h⟩

theorem kind {k : Token.Kind} (h : ∀ t, t.kind = k → ¬ barred t) :
    Leads (.kind k :: body) barred barred' where
  head word := h _ (derives_kind_cons_iff.mp word).1
  empty word := by simp at word

theorem phrase {p : Phrase} (ne : p ≠ .statements) (h : ∀ t, p.Begins t → ¬ barred t) :
    Leads (.phrase p :: body) barred barred' where
  head word := h _ (word.begins_cons ne)
  empty word := absurd word (not_derives_phrase_nil ne)

/-- An expression ends before the signs that stand around expressions. -/
theorem closing {k : Token.Kind} {p : Phrase} (ne : p ≠ .statements)
    (closes : k ∈ [.rightParen, .comma, .separator, .rightCurl]) :
    Leads (.kind k :: body) p.GoesOnWith barred' :=
  kind fun _ eq => Phrase.not_goesOnWith_of_closing ne (eq ▸ closes)

/-- A part begins as one of its productions does. -/
theorem part {p : Part}
    (each : ∀ production ∈ productions p, Leads (production ++ body) barred barred') :
    Leads (.part p :: body) barred barred' where
  head {t w} word := by
    obtain ⟨production, mem, word⟩ := derives_part_iff.mp word
    exact (each production mem).head word
  empty word := by
    obtain ⟨production, mem, word⟩ := derives_part_iff.mp word
    exact (each production mem).empty word

theorem either {p : Part} {a b : List Symbol} (two : productions p = [a, b])
    (first : Leads (a ++ body) barred barred') (second : Leads (b ++ body) barred barred') :
    Leads (.part p :: body) barred barred' := by
  refine part fun production mem => ?_
  rcases List.mem_pair.mp (two ▸ mem) with rfl | rfl
  · exact first
  · exact second

/-- Further statements begin with a separator, and so do the statements' surroundings end an
expression. -/
theorem furtherStatements : Leads [.part .furtherStatements] (Phrase.GoesOnWith .expression)
    (Phrase.GoesOnWith .statements) := by
  have closing {t : Token} (kind : t.kind = .separator ∨ t.kind = .rightCurl) :
      ¬ (Phrase.GoesOnWith .expression) t :=
    Phrase.not_goesOnWith_of_closing (by decide) (by rcases kind with kind | kind <;> simp [kind])
  constructor
  · intro t w word
    rcases derives_furtherStatements_iff.mp word with separators | ⟨between, u, v, eq, separators,
      ne, -, -⟩
    · exact closing (.inl (separators t List.mem_cons_self))
    · obtain ⟨separator, between, rfl⟩ := List.exists_cons_of_ne_nil ne
      cases eq
      exact closing (.inl (separators _ List.mem_cons_self))
  · intro _ t goesOn isCurl
    exact closing (.inr isCurl) goesOn

/-- The cursor between two words is one where the first ends. -/
theorem bars {c c' : Cursor} {w : List Token} (leads : Leads body barred barred')
    (reads : c.Reads w c') (word : Derives body w) (ends : c'.Bars barred') : c.Bars barred := by
  intro t head isBarred
  cases w with
  | nil =>
    obtain rfl := Cursor.reads_nil_iff.mp reads
    exact ends t head (leads.empty word t isBarred)
  | cons u w =>
    obtain rfl := reads.eq_head head
    exact leads.head word isBarred

end Leads

namespace Rule

variable {m n size : Nat} {α β : Type} {c c' : Cursor} {L : List Token → Prop}
  {barred barred' : Token → Prop}

/-- At `c` the rule reads up to `c'`, or finds further on that an assignment is missing in the
header of a `for` loop. -/
def Gets (rule : Rule n α) (c c' : Cursor) : Prop :=
  (∃ a, rule.Yields c a c') ∨
    ∃ initial d, rule.Fails c ⟨.notAssignment initial, d⟩ ∧ d.left < c.left

theorem Gets.bind {rule : Rule n α} {next : α → Rule n β} {c₁ : Cursor} {x : α}
    (yields : rule.Yields c x c₁) (h : (next x).Gets c₁ c') : (rule >>= next).Gets c c' := by
  rcases h with ⟨y, further⟩ | ⟨initial, d, fails, less⟩
  · exact .inl ⟨y, yields_bind.mpr ⟨x, c₁, yields, further⟩⟩
  · exact .inr ⟨initial, d, fails_bind.mpr (.inr ⟨x, c₁, yields, fails⟩),
      Nat.lt_of_lt_of_le less yields.left_le⟩

theorem Gets.onNext {room : n ≤ m + 1} {choose : Token → Option (Rule m α)} {other : Rule n α}
    {c₁ : Cursor} {t : Token} {rule : Rule m α} (lt : c.left < n)
    (taken : c.take? = some (t, c₁)) (chosen : choose t = some rule) (h : rule.Gets c₁ c') :
    (onNext room choose other).Gets c c' := by
  rcases h with ⟨a, yields⟩ | ⟨initial, d, fails, less⟩
  · exact .inl ⟨a, yields_onNext.mpr (.inl ⟨lt, t, c₁, rule, taken, chosen, yields⟩)⟩
  · exact .inr ⟨initial, d, fails_onNext.mpr (.inl ⟨lt, t, c₁, rule, taken, chosen, fails⟩),
      Nat.lt_trans less (Cursor.left_lt_of_take? taken)⟩

/-- At cursors with fewer than `size` tokens ahead, the rule recognizes the words of a language
where no barred token comes next behind them. -/
structure Recognizes (size : Nat) (rule : Rule n α) (L : List Token → Prop)
    (barred : Token → Prop) : Prop where
  reads {c a c'} : c.left < size → rule.Yields c a c' → ∃ w, c.Reads w c' ∧ L w
  misses {c kind d} : c.left < size → rule.Fails c ⟨.missing kind, d⟩ →
    ∃ w v, c.Reads w d ∧ L (w ++ v)
  gets {c w c'} : c.left < size → c.left < n → c.Reads w c' → L w → c'.Bars barred →
    rule.Gets c c'

namespace Recognizes

/-- The same words, with more tokens barred behind them. -/
theorem congr {rule : Rule n α} {L' : List Token → Prop} (h : rule.Recognizes size L barred)
    (same : ∀ w, L' w ↔ L w) (bars : ∀ t, barred t → barred' t) :
    rule.Recognizes size L' barred' where
  reads lt yields := by
    obtain ⟨w, reads, word⟩ := h.reads lt yields
    exact ⟨w, reads, (same w).mpr word⟩
  misses lt fails := by
    obtain ⟨w, v, reads, word⟩ := h.misses lt fails
    exact ⟨w, v, reads, (same _).mpr word⟩
  gets lt room reads word ends :=
    h.gets lt room reads ((same _).mp word) fun t head isBarred => ends t head (bars t isBarred)

/-- The words of a part that has one production. -/
theorem ofOnly {rule : Rule n α} {p : Part} {body : List Symbol} (only : productions p = [body])
    (h : rule.Recognizes size (Derives body) barred) :
    rule.Recognizes size (Derives [.part p]) barred :=
  h.congr (fun w => by simp [derives_only only]) fun _ => id

/-! ### Rules without a loop -/

protected theorem pure {a : α} : (pure a : Rule n α).Recognizes size (Derives []) barred where
  reads {c b c'} _ yields := by
    obtain ⟨-, -, rfl⟩ := yields_pure.mp yields
    exact ⟨[], .refl _, .nil⟩
  misses _ fails := absurd fails not_fails_pure
  gets {c w c'} _ room reads word _ := by
    obtain rfl := derives_nil_iff.mp word
    obtain rfl := Cursor.reads_nil_iff.mp reads
    exact .inl ⟨a, yields_pure.mpr ⟨room, rfl, rfl⟩⟩

theorem here : (here : Rule n Position).Recognizes size (Derives []) barred where
  reads {c b c'} _ yields := by
    obtain ⟨-, -, rfl⟩ := yields_here.mp yields
    exact ⟨[], .refl _, .nil⟩
  misses _ fails := absurd fails not_fails_here
  gets {c w c'} _ room reads word _ := by
    obtain rfl := derives_nil_iff.mp word
    obtain rfl := Cursor.reads_nil_iff.mp reads
    exact .inl ⟨_, yields_here.mpr ⟨room, rfl, rfl⟩⟩

theorem lastStop : (lastStop : Rule n Position).Recognizes size (Derives []) barred where
  reads {c b c'} _ yields := by
    obtain ⟨-, -, rfl⟩ := yields_lastStop.mp yields
    exact ⟨[], .refl _, .nil⟩
  misses _ fails := absurd fails not_fails_lastStop
  gets {c w c'} _ room reads word _ := by
    obtain rfl := derives_nil_iff.mp word
    obtain rfl := Cursor.reads_nil_iff.mp reads
    exact .inl ⟨_, yields_lastStop.mpr ⟨room, rfl, rfl⟩⟩

theorem skipSeparators : (skipSeparators : Rule n Unit).Recognizes size
    (Derives [.part .separators]) (·.kind = .separator) where
  reads {c b c'} _ yields := by
    obtain ⟨-, rfl⟩ := yields_skipSeparators.mp yields
    exact ⟨_, c.reads_skipSeparators, derives_separators_iff.mpr c.separators_takeWhile⟩
  misses _ fails := absurd fails not_fails_skipSeparators
  gets {c w c'} _ room reads word ends := by
    have skipped := Cursor.skipSeparators_eq reads (derives_separators_iff.mp word) ends
    exact .inl ⟨(), yields_skipSeparators.mpr ⟨room, skipped.symm⟩⟩

/-- Where words of two sorts are read in a row, the end of the first is settled by how the second
may begin. Behind a word that is not empty, the header of a `for` loop may turn out to have no
assignment. -/
theorem bindOr {rule : Rule n α} {next : α → Rule n β} {a b : List Symbol}
    (first : rule.Recognizes size (Derives a) barred) (leads : Leads b barred barred')
    (second : ∀ x, (next x).Recognizes size (Derives b) barred' ∨
      ¬ Derives a [] ∧ ∃ initial, next x = Rule.fail (.notAssignment initial)) :
    (rule >>= next).Recognizes size (Derives (a ++ b)) barred' where
  reads lt yields := by
    obtain ⟨x, c₁, yields, further⟩ := yields_bind.mp yields
    obtain ⟨w, reads, word⟩ := first.reads lt yields
    rcases second x with rest | ⟨-, initial, failed⟩
    · obtain ⟨v, reads', word'⟩ := rest.reads (reads.left_lt lt) further
      exact ⟨w ++ v, reads.trans reads', word.append word'⟩
    · exact absurd (failed ▸ further) not_yields_fail
  misses lt fails := by
    rcases fails_bind.mp fails with fails | ⟨x, c₁, yields, fails⟩
    · obtain ⟨w, v, reads, word⟩ := first.misses lt fails
      -- what the first rule misses comes before some word of the second
      obtain ⟨u, rest⟩ := exists_derives b
      exact ⟨w, v ++ u, reads, by simpa using word.append rest⟩
    · obtain ⟨w, reads, word⟩ := first.reads lt yields
      rcases second x with rest | ⟨-, initial, failed⟩
      · obtain ⟨v, u, reads', word'⟩ := rest.misses (reads.left_lt lt) fails
        exact ⟨w ++ v, u, reads.trans reads', by simpa using word.append word'⟩
      · cases (fails_fail.mp (failed ▸ fails)).2
  gets {c w c'} lt room reads word ends := by
    obtain ⟨u, v, rfl, word, word'⟩ := derives_append_iff.mp word
    obtain ⟨c₁, reads, reads'⟩ := Cursor.reads_append_iff.mp reads
    rcases first.gets lt room reads word (leads.bars reads' word' ends) with
      ⟨x, yields⟩ | ⟨initial, d, fails, less⟩
    · rcases second x with rest | ⟨notEmpty, initial, failed⟩
      · exact .bind yields (rest.gets (reads.left_lt lt) (reads.left_lt room) reads' word' ends)
      · have fails : (next x).Fails c₁ ⟨.notAssignment initial, c₁⟩ :=
          failed ▸ fails_fail.mpr ⟨reads.left_lt room, rfl⟩
        -- the word of the first rule is not empty, so that some token has been read
        have shorter := reads.left_lt_iff.mpr fun empty => notEmpty (empty ▸ word)
        exact .inr ⟨initial, c₁, fails_bind.mpr (.inr ⟨x, c₁, yields, fails⟩), shorter⟩
    · exact .inr ⟨initial, d, fails_bind.mpr (.inl fails), less⟩

protected theorem bind {rule : Rule n α} {next : α → Rule n β} {a b : List Symbol}
    (first : rule.Recognizes size (Derives a) barred) (leads : Leads b barred barred')
    (second : ∀ x, (next x).Recognizes size (Derives b) barred') :
    (rule >>= next).Recognizes size (Derives (a ++ b)) barred' :=
  first.bindOr leads fun x => .inl (second x)

/-- Where every word begins with a token that chooses a rule for the rest of it, nothing is left
for other rules. -/
theorem onNext (room : n ≤ m + 1) {choose : Token → Option (Rule m α)} {kind : ParseError.Kind}
    (chosen : ∀ {size'}, size' < size → ∀ {t rule}, choose t = some rule →
      rule.Recognizes size' (fun w => L (t :: w)) barred)
    (begins : ∀ {w}, L w → ∃ t v rule, w = t :: v ∧ choose t = some rule) (some : ∃ w, L w) :
    (onNext room choose (missing kind)).Recognizes size L barred where
  reads lt yields := by
    rcases yields_onNext.mp yields with ⟨-, t, c₁, rule, taken, eq, yields⟩ | ⟨-, yields⟩
    · obtain ⟨w, reads, word⟩ := (chosen lt eq).reads (Cursor.left_lt_of_take? taken) yields
      exact ⟨t :: w, reads.behind taken, word⟩
    · exact absurd yields not_yields_missing
  misses lt fails := by
    rcases fails_onNext.mp fails with ⟨-, t, c₁, rule, taken, eq, fails⟩ | ⟨-, fails⟩
    · obtain ⟨w, v, reads, word⟩ := (chosen lt eq).misses (Cursor.left_lt_of_take? taken) fails
      exact ⟨t :: w, v, reads.behind taken, word⟩
    · obtain ⟨-, eq⟩ := fails_missing.mp fails
      cases eq
      -- with no token chosen, any word could still have begun here
      obtain ⟨v, word⟩ := some
      exact ⟨[], v, .refl _, word⟩
  gets {c w c'} lt room reads word ends := by
    obtain ⟨t, v, rule, rfl, eq⟩ := begins word
    obtain ⟨c₁, taken, reads⟩ := Cursor.reads_cons_iff.mp reads
    have shorter := Cursor.left_lt_of_take? taken
    exact .onNext room taken eq ((chosen lt eq).gets shorter (by omega) reads word ends)

theorem expect {kind : Token.Kind} {what : Expectation} :
    (expect kind what : Rule n Token).Recognizes size (Derives [.kind kind]) barred := by
  refine onNext (Nat.le_succ n) (fun _ t rule eq => ?_) (fun word => ?_) (exists_derives _)
  · obtain ⟨isKind, eq⟩ := Option.ite_none_right_eq_some.mp eq
    cases eq
    exact Recognizes.pure.congr (fun w => by simpa using fun _ => beq_iff_eq.mp isKind) fun _ => id
  · obtain ⟨t, v, rfl, isKind, -⟩ := derives_kind_iff.mp word
    exact ⟨t, v, _, rfl, if_pos (beq_iff_eq.mpr isKind)⟩

section Decision

variable {asked : Token → Bool} {a b : List Symbol}

/-- Words of one sort begin with a token that is asked for, and those of the other do not. -/
theorem onNextIf (room : n ≤ m + 1) {after : Token → Rule m α} {other : Rule n α}
    (split : ∀ w, L w ↔ (∃ t v, w = t :: v ∧ asked t ∧ Derives a v) ∨ Derives b w)
    (leads : Leads b (fun t => asked t) barred)
    (behind : ∀ {size'}, size' < size → ∀ t, asked t →
      (after t).Recognizes size' (Derives a) barred)
    (others : other.Recognizes size (Derives b) barred) :
    (Rule.onNext room (fun t => if asked t then some (after t) else none) other).Recognizes size L
      barred where
  reads lt yields := by
    rcases yields_onNext.mp yields with ⟨-, t, c₁, rule, taken, eq, yields⟩ | ⟨-, yields⟩
    · obtain ⟨isAsked, eq⟩ := Option.ite_none_right_eq_some.mp eq
      cases eq
      obtain ⟨w, reads, word⟩ :=
        (behind lt t isAsked).reads (Cursor.left_lt_of_take? taken) yields
      exact ⟨t :: w, reads.behind taken, (split _).mpr (.inl ⟨t, w, rfl, isAsked, word⟩)⟩
    · obtain ⟨w, reads, word⟩ := others.reads lt yields
      exact ⟨w, reads, (split _).mpr (.inr word)⟩
  misses lt fails := by
    rcases fails_onNext.mp fails with ⟨-, t, c₁, rule, taken, eq, fails⟩ | ⟨-, fails⟩
    · obtain ⟨isAsked, eq⟩ := Option.ite_none_right_eq_some.mp eq
      cases eq
      obtain ⟨w, v, reads, word⟩ :=
        (behind lt t isAsked).misses (Cursor.left_lt_of_take? taken) fails
      exact ⟨t :: w, v, reads.behind taken, (split _).mpr (.inl ⟨t, _, rfl, isAsked, word⟩)⟩
    · obtain ⟨w, v, reads, word⟩ := others.misses lt fails
      exact ⟨w, v, reads, (split _).mpr (.inr word)⟩
  gets {c w c'} lt room reads word ends := by
    rcases (split w).mp word with ⟨t, v, rfl, isAsked, word⟩ | word
    · obtain ⟨c₁, taken, reads⟩ := Cursor.reads_cons_iff.mp reads
      have shorter := Cursor.left_lt_of_take? taken
      exact .onNext room taken (if_pos isAsked)
        ((behind lt t isAsked).gets shorter (by omega) reads word ends)
    · -- the next token belongs to the word, or comes behind an empty one
      have none : ∀ t, c.ahead.head? = some t →
          (if asked t then some (after t) else none) = Option.none := by
        intro t head
        suffices asked t = false by simp [this]
        cases w with
        | nil =>
          obtain rfl := Cursor.reads_nil_iff.mp reads
          exact Bool.eq_false_iff.mpr fun isAsked => ends t head (leads.empty word t isAsked)
        | cons u w =>
          obtain rfl := reads.eq_head head
          exact Bool.eq_false_iff.mpr (leads.head word)
      rcases others.gets lt room reads word ends with ⟨a, yields⟩ | ⟨initial, d, fails, less⟩
      · exact .inl ⟨a, yields_onNext.mpr (.inr ⟨none, yields⟩)⟩
      · exact .inr ⟨initial, d, fails_onNext.mpr (.inr ⟨none, fails⟩), less⟩

theorem ifNext {after : Token → Rule n α} {other : Rule n α}
    (split : ∀ w, L w ↔ (∃ t v, w = t :: v ∧ asked t ∧ Derives a v) ∨ Derives b w)
    (leads : Leads b (fun t => asked t) barred)
    (behind : ∀ {size'}, size' < size → ∀ t, asked t →
      (after t).Recognizes size' (Derives a) barred)
    (others : other.Recognizes size (Derives b) barred) :
    (ifNext asked after other).Recognizes size L barred :=
  onNextIf _ split leads behind others

theorem within {after : Token → Rule n α} {other : Rule (n + 1) α}
    (split : ∀ w, L w ↔ (∃ t v, w = t :: v ∧ asked t ∧ Derives a v) ∨ Derives b w)
    (leads : Leads b (fun t => asked t) barred)
    (behind : ∀ {size'}, size' < size → ∀ t, asked t →
      (after t).Recognizes size' (Derives a) barred)
    (others : other.Recognizes size (Derives b) barred) :
    (within asked after other).Recognizes size L barred :=
  onNextIf (Nat.le_refl _) split leads behind others

end Decision

/-- A failure at once is reported otherwise, but it is one all the same. -/
theorem pin {rule : Rule n α} {kind : ParseError.Kind} (h : rule.Recognizes size L barred)
    (some : ∃ w, L w) : (pin kind rule).Recognizes size L barred where
  reads lt yields := h.reads lt (yields_pin.mp yields)
  misses {c kind' d} lt fails := by
    obtain ⟨f, fails, eq⟩ := fails_pin.mp fails
    split at eq
    · cases eq
      obtain ⟨v, word⟩ := some
      exact ⟨[], v, .refl _, word⟩
    · exact h.misses lt (eq ▸ fails)
  gets lt room reads word ends := by
    rcases h.gets lt room reads word ends with ⟨a, yields⟩ | ⟨initial, d, fails, less⟩
    · exact .inl ⟨a, yields_pin.mpr yields⟩
    · exact .inr ⟨initial, d, fails_pin.mpr ⟨_, fails, (if_neg (Nat.ne_of_lt less)).symm⟩, less⟩

/-! ### Loops

In each round a token is read, so that the induction is on the tokens ahead. -/

theorem afterCommas {p : Part} {s : Symbol} {item : Rule n α}
    (table : productions p = [[], [.kind .comma, s, .part p]])
    (items : ∀ {size}, item.Recognizes size (Derives [s]) barred)
    (notComma : ∀ t, t.kind = .comma → ¬ barred t) :
    (afterCommas item).Recognizes size (Derives [.part p])
      (fun t => t.kind = .comma ∨ barred t) := by
  have split (w : List Token) : Derives [.part p] w ↔
      (∃ t v, w = t :: v ∧ (t.kind == .comma) ∧ Derives [s, .part p] v) ∨ Derives [] w := by
    simp [derives_either table, or_comm]
  have leads : Leads [.part p] barred (fun t => t.kind = .comma ∨ barred t) :=
    .either table (.nil fun t => .inr) (.kind notComma)
  induction size using Nat.strongRecOn with
  | ind size ih =>
    rw [afterCommas_eq item]
    refine ifNext split (.nil fun t isComma => .inl (beq_iff_eq.mp isComma))
      (fun smaller t _ => ?_) .pure
    exact items.bind leads fun value => (ih _ smaller).bind (.nil fun _ => id) fun others => .pure

section Chain

variable {level : Level} {isOperator : Token.Kind → Bool} {operand : Rule n Tree}

theorem derives_furtherOperands_iff {w : List Token} :
    Derives [.part (.furtherOperands level)] w ↔
      (∃ t v, w = t :: v ∧ t.kind ∈ level.operators ∧
        Derives [.phrase level.operand, .part (.furtherOperands level)] v) ∨ Derives [] w := by
  rw [derives_part_iff]
  simp only [productions, List.mem_cons, List.mem_map, List.append_nil]
  constructor
  · rintro ⟨production, rfl | ⟨k, operator, rfl⟩, word⟩
    · exact .inr word
    · obtain ⟨t, v, rfl, rfl, rest⟩ := derives_kind_iff.mp word
      exact .inl ⟨t, v, rfl, operator, rest⟩
  · rintro (⟨t, v, rfl, operator, rest⟩ | empty)
    · exact ⟨_, .inr ⟨t.kind, operator, rfl⟩, .kind rfl rest⟩
    · exact ⟨[], .inl rfl, empty⟩

theorem leads_furtherOperands : Leads [.part (.furtherOperands level)] level.operand.GoesOnWith
    (Phrase.joined level).GoesOnWith := by
  refine .part fun production mem => ?_
  rcases List.mem_cons.mp mem with rfl | mem
  · exact .nil fun t => Level.goesOnWith_of_operand
  · obtain ⟨k, operator, rfl⟩ := List.mem_map.mp mem
    exact .kind fun t kind => Level.not_goesOnWith_of_operator (kind ▸ operator)

/-- A chain goes on for as long as operators of its level come next. -/
theorem binaryChainFrom (isOperator_iff : ∀ k, isOperator k ↔ k ∈ level.operators)
    (operands : ∀ {size},
      operand.Recognizes size (Derives [.phrase level.operand]) level.operand.GoesOnWith)
    {left : Tree} :
    (binaryChainFrom isOperator operand left).Recognizes size
      (Derives [.part (.furtherOperands level)]) (Phrase.joined level).GoesOnWith := by
  induction size using Nat.strongRecOn generalizing left with
  | ind size ih =>
    rw [binaryChainFrom_eq isOperator operand]
    refine ifNext (a := [.phrase level.operand, .part (.furtherOperands level)]) (fun w => ?_)
      (.nil fun t operator => ?_) (fun smaller t _ => ?_) .pure
    · simp only [isOperator_iff, derives_furtherOperands_iff]
    · exact .inr (.inr ⟨level, level.mem_levels_joined, (isOperator_iff _).mp operator⟩)
    · exact operands.bind leads_furtherOperands fun right => ih _ smaller

theorem binaryChain (isOperator_iff : ∀ k, isOperator k ↔ k ∈ level.operators)
    (operands : ∀ {size},
      operand.Recognizes size (Derives [.phrase level.operand]) level.operand.GoesOnWith) :
    (binaryChain isOperator operand).Recognizes size (Derives [.phrase (.joined level)])
      (Phrase.joined level).GoesOnWith :=
  ofOnly rfl <|
    operands.bind leads_furtherOperands fun _ => binaryChainFrom isOperator_iff operands

end Chain

section Statements

variable {statement : Rule n Tree}

/-- Further statements are read on wherever one begins behind separators. -/
theorem furtherStatements
    (h : ∀ {size}, statement.Recognizes size (Derives [.phrase .expression])
      (Phrase.GoesOnWith .expression))
    (refuses : ∀ {c : Cursor}, c.left < n →
      (∀ t, c.ahead.head? = some t → ¬ t.BeginsExpression) → statement.Refuses c) :
    (furtherStatements statement).Recognizes size (Derives [.part .furtherStatements])
      (Phrase.GoesOnWith .statements) := by
  induction size using Nat.strongRecOn with
  | ind size ih =>
  have between (c : Cursor) (shorter : c.skipSeparators.left < c.left) :
      c.ahead.takeWhile (·.kind == .separator) ≠ [] :=
    c.reads_skipSeparators.left_lt_iff.mp shorter
  constructor
  case reads =>
    intro c trees c' lt yields
    have ltSkip := c.reads_skipSeparators.left_lt lt
    rcases yields_furtherStatements.mp yields with
      ⟨shorter, -, tree, c₁, others, rfl, first, further⟩ | ⟨-, -, -, rfl, rfl⟩ | ⟨-, -, rfl, rfl⟩
    · obtain ⟨u, reads, word⟩ := h.reads ltSkip first
      obtain ⟨v, reads', word'⟩ :=
        (ih _ lt).reads (Nat.lt_of_le_of_lt reads.left_le shorter) further
      exact ⟨_, (c.reads_skipSeparators.trans reads).trans reads',
        derives_furtherStatements_iff.mpr (.inr ⟨_, u, v, rfl, c.separators_takeWhile,
          between c shorter, word, word'⟩)⟩
    · exact ⟨_, c.reads_skipSeparators,
        derives_furtherStatements_iff.mpr (.inl c.separators_takeWhile)⟩
    · exact ⟨[], .refl _, derives_furtherStatements_iff.mpr (.inl (List.forall_mem_nil _))⟩
  case misses =>
    intro c kind d lt fails
    have ltSkip := c.reads_skipSeparators.left_lt lt
    obtain ⟨shorter, -, ⟨fails, -⟩ | ⟨tree, c₁, first, fails⟩⟩ :=
      fails_furtherStatements.mp fails
    · obtain ⟨u, v, reads, word⟩ := h.misses ltSkip fails
      have none : Derives [.part .furtherStatements] [] :=
        derives_furtherStatements_iff.mpr (.inl (List.forall_mem_nil _))
      refine ⟨_, v, c.reads_skipSeparators.trans reads, derives_furtherStatements_iff.mpr (.inr
        ⟨_, u ++ v, [], by simp, c.separators_takeWhile, between c shorter, word, none⟩)⟩
    · obtain ⟨u, reads, word⟩ := h.reads ltSkip first
      obtain ⟨v, x, reads', word'⟩ :=
        (ih _ lt).misses (Nat.lt_of_le_of_lt reads.left_le shorter) fails
      refine ⟨_, x, (c.reads_skipSeparators.trans reads).trans reads',
        derives_furtherStatements_iff.mpr (.inr ⟨_, u, v ++ x, by simp, c.separators_takeWhile,
          between c shorter, word, word'⟩)⟩
  case gets =>
    intro c w c' lt room reads word ends
    have curl : ∀ t, c'.ahead.head? = some t → t.kind = .rightCurl :=
      Cursor.endsPhrase_statements_iff.mp ends
    rcases derives_furtherStatements_iff.mp word with separators | ⟨lead, u, v, rfl, separators, ne,
      word, word'⟩
    -- only separators are left, and no statement begins behind them
    · have skipped : c.skipSeparators = c' :=
        Cursor.skipSeparators_eq reads separators fun t head => by simp [curl t head]
      by_cases shorter : c.skipSeparators.left < c.left
      · have none : statement.Refuses c' := refuses (reads.left_lt room) fun t head begins =>
          begins.kind_not_mem (by simp [curl t head])
        exact .inl ⟨[], yields_furtherStatements.mpr
          (.inr (.inl ⟨shorter, room, skipped ▸ none, rfl, skipped.symm⟩))⟩
      · obtain rfl : w = [] := of_not_not (mt reads.left_lt_iff.mpr (skipped ▸ shorter))
        obtain rfl := Cursor.reads_nil_iff.mp reads
        exact .inl ⟨[], yields_furtherStatements.mpr (.inr (.inr ⟨shorter, room, rfl, rfl⟩))⟩
    -- a statement stands behind the separators
    · obtain ⟨c₂, reads, reads₃⟩ := Cursor.reads_append_iff.mp reads
      obtain ⟨c₁, reads₁, reads₂⟩ := Cursor.reads_append_iff.mp reads
      obtain ⟨t, u, rfl, begins⟩ := word.begins (by decide)
      have skipped : c.skipSeparators = c₁ := by
        refine Cursor.skipSeparators_eq reads₁ separators fun s head separator => ?_
        obtain rfl := reads₂.eq_head head
        exact Token.BeginsExpression.kind_not_mem begins (by simp [separator])
      have shorter := reads₁.left_lt_iff.mpr ne
      obtain rfl := skipped
      have room₁ := reads₁.left_lt room
      have shorter₂ := Nat.lt_of_le_of_lt reads₂.left_le shorter
      rcases h.gets (Nat.lt_succ_self _) room₁ reads₂ word
          (Leads.furtherStatements.bars reads₃ word' ends) with
        ⟨tree, first⟩ | ⟨initial, d, fails, less⟩
      · rcases (ih _ lt).gets shorter₂ (reads₂.left_lt room₁) reads₃ word' ends with
          ⟨others, further⟩ | ⟨initial, d, fails, less⟩
        · exact .inl ⟨tree :: others, yields_furtherStatements.mpr
            (.inl ⟨shorter, room, tree, c₂, others, rfl, first, further⟩)⟩
        · exact .inr ⟨initial, d, fails_furtherStatements.mpr
            ⟨shorter, room, .inr ⟨tree, c₂, first, fails⟩⟩, Nat.lt_trans less shorter₂⟩
      · exact .inr ⟨initial, d, fails_furtherStatements.mpr
          ⟨shorter, room, .inl ⟨fails, Nat.ne_of_lt less⟩⟩, Nat.lt_trans less shorter⟩

theorem statements
    (h : ∀ {size}, statement.Recognizes size (Derives [.phrase .expression])
      (Phrase.GoesOnWith .expression))
    (refuses : ∀ {c : Cursor}, c.left < n →
      (∀ t, c.ahead.head? = some t → ¬ t.BeginsExpression) → statement.Refuses c) :
    (statements statement).Recognizes size (Derives [.phrase .statements])
      (Phrase.GoesOnWith .statements) := by
  refine ofOnly rfl ?_
  refine here.bind (a := []) .never fun start => skipSeparators.bind ?_ fun _ =>
    h.bind ?_ fun first => (furtherStatements h refuses).bind (.nil fun _ => id) fun others =>
    lastStop.bind (a := []) .never fun stop => .pure
  · refine .phrase (by decide) fun t begins separator => ?_
    exact Token.BeginsExpression.kind_not_mem begins (by simp [separator])
  · exact .furtherStatements

end Statements

end Recognizes

end Rule

end Scriptlet
