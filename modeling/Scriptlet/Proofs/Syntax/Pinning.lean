import Scriptlet.Proofs.Syntax.Awaiting
import Scriptlet.Proofs.Syntax.Viable
import Scriptlet.Tokenizing

/-!
# Errors name what is asked for

Where a rule fails because a part is missing, the kind of the error is what the tokens read so far
ask for. Rules inside each other may fail at one place, each with a kind of its own; the kind of the
outermost of them stands, as each failure at once is reported in the terms of the rule as a whole.

One direction holds of each failure. For the other it is needed that no word goes on with the next
token: then a rule that has read what asks for a part cannot but fail there. Since a rule fails in
one way only, what has been read asks for one kind of part at most.

## Main definitions

* `Cursor.Stuck` — no word of a language goes on with the next token
* `Rule.Asks` — a rule fails for lack of a part with what the tokens read ask for

## Main results

* `Rule.Asks.bindOr`, `Rule.Asks.onNextIf`, `Rule.Asks.pin` — composed rules
* `Grammar.asks_upTo` — the rules for any number of tokens
* `Tree.kind_ofTokens` — the kind of an error is settled by what the last token read is
-/

namespace Scriptlet

/-- No word of a language goes on with the next token. -/
def Cursor.Stuck (d : Cursor) (L : List Token → Prop) : Prop :=
  ∀ t v, d.ahead.head? = some t → ¬ L (t :: v)

theorem Leads.weaken {body : List Symbol} {barred barred' : Token → Prop}
    (h : Leads body barred barred') : Leads body barred fun _ => True :=
  ⟨h.head, fun _ _ _ => trivial⟩

namespace Rule

variable {m n size : Nat} {α β : Type} {c c₁ d : Cursor} {f : Failure} {L L' : List Token → Prop}
  {A A' : List Token → ParseError.Kind → Prop} {barred : Token → Prop} {a b : List Symbol}

/-- At `c` the rule fails like this, or finds further on that an assignment is missing in the header
of a `for` loop. -/
def Stops (rule : Rule n α) (c : Cursor) (f : Failure) : Prop :=
  rule.Fails c f ∨ ∃ initial d, rule.Fails c ⟨.notAssignment initial, d⟩ ∧ d.left < c.left

/-- At cursors with fewer than `size` tokens ahead, the rule fails for lack of a part with what is
asked for behind the tokens read, and does so wherever no word goes on with the next token. -/
structure Asks (size : Nat) (rule : Rule n α) (L : List Token → Prop)
    (A : List Token → ParseError.Kind → Prop) : Prop where
  asked {c kind d} : c.left < size → kind.isPart → rule.Fails c ⟨.missing kind, d⟩ →
    ∃ w, c.Reads w d ∧ A w kind
  asks {c w kind d} : c.left < size → c.left < n → c.Reads w d → A w kind →
    d.Stuck (fun v => L (w ++ v)) → rule.Stops c ⟨.missing kind, d⟩

/-- The same for a rule that reads the words of some symbols. -/
abbrev AsksFor (size : Nat) (rule : Rule n α) (body : List Symbol) : Prop :=
  rule.Asks size (Derives body) (Awaits body)

theorem Stops.bind {rule : Rule n α} {next : α → Rule n β} {x : α} (yields : rule.Yields c x c₁)
    (h : (next x).Stops c₁ f) : (rule >>= next).Stops c f := by
  rcases h with fails | ⟨initial, d, fails, less⟩
  · exact .inl (fails_bind.mpr (.inr ⟨x, c₁, yields, fails⟩))
  · exact .inr ⟨initial, d, fails_bind.mpr (.inr ⟨x, c₁, yields, fails⟩),
      Nat.lt_of_lt_of_le less yields.left_le⟩

theorem Stops.onNext {room : n ≤ m + 1} {choose : Token → Option (Rule m α)} {other : Rule n α}
    {t : Token} {rule : Rule m α} (lt : c.left < n) (taken : c.take? = some (t, c₁))
    (chosen : choose t = some rule) (h : rule.Stops c₁ f) :
    (onNext room choose other).Stops c f := by
  rcases h with fails | ⟨initial, d, fails, less⟩
  · exact .inl (fails_onNext.mpr (.inl ⟨lt, t, c₁, rule, taken, chosen, fails⟩))
  · exact .inr ⟨initial, d, fails_onNext.mpr (.inl ⟨lt, t, c₁, rule, taken, chosen, fails⟩),
      Nat.lt_trans less (Cursor.left_lt_of_take? taken)⟩

namespace Asks

/-- The same words, asking for the same. -/
theorem congr {rule : Rule n α} (h : rule.Asks size L A) (same : ∀ w, L' w ↔ L w)
    (same' : ∀ w kind, A' w kind ↔ A w kind) : rule.Asks size L' A' where
  asked lt isPart fails := by
    obtain ⟨w, reads, asks⟩ := h.asked lt isPart fails
    exact ⟨w, reads, (same' w _).mpr asks⟩
  asks lt room reads asks stuck :=
    h.asks lt room reads ((same' _ _).mp asks) fun t v head word =>
      stuck t v head ((same _).mpr word)

/-- A part with one production, which asks at once for what the part does. -/
theorem ofOnly {rule : Rule n α} {p : Part} {body : List Symbol} (only : productions p = [body])
    (notFurther : p ≠ .furtherStatements)
    (atOnce : ∀ kind, p.asks = some kind ↔ Awaits body [] kind) (h : rule.AsksFor size body) :
    rule.AsksFor size [.part p] := by
  refine h.congr (fun w => by simp [derives_only only]) fun w kind => ?_
  rw [awaits_productions_iff notFurther (by simp [only, atOnce])]
  simp [only]

/-! ### Rules without a loop -/

/-- What never fails and asks for nothing. -/
theorem silent {rule : Rule n α} (never : ∀ c f, ¬ rule.Fails c f) (none : ∀ w kind, ¬ A w kind) :
    rule.Asks size L A :=
  ⟨fun _ _ fails => absurd fails (never _ _), fun _ _ _ asks => absurd asks (none _ _)⟩

protected theorem pure {x : α} : (pure x : Rule n α).AsksFor size [] :=
  silent (fun _ _ => not_fails_pure) fun _ _ => not_awaits_nil

/-- Where a part is asked for right behind the first words, a token that would go on with these has
to belong to some word of the whole. -/
theorem bindSettled {rule : Rule n α} {next : α → Rule n β}
    (first : rule.Asks size (Derives a) A) (recognizes : rule.Recognizes size (Derives a) barred)
    (leads : Leads b barred fun _ => True)
    (settled : ∀ {u t kind}, Derives a u → barred t → Awaits b [] kind →
      ∃ v, Derives (a ++ b) (u ++ t :: v))
    (second : ∀ x, (next x).AsksFor size b ∨
      ¬ Derives a [] ∧ ∃ initial, next x = Rule.fail (.notAssignment initial)) :
    (rule >>= next).Asks size (Derives (a ++ b)) fun w kind =>
      A w kind ∨ ∃ u v, w = u ++ v ∧ Derives a u ∧ Awaits b v kind where
  asked lt isPart fails := by
    rcases fails_bind.mp fails with fails | ⟨x, c₁, yields, fails⟩
    · obtain ⟨w, reads, asks⟩ := first.asked lt isPart fails
      exact ⟨w, reads, .inl asks⟩
    · obtain ⟨w, reads, word⟩ := recognizes.reads lt yields
      rcases second x with rest | ⟨-, initial, failed⟩
      · obtain ⟨v, reads', asks⟩ := rest.asked (reads.left_lt lt) isPart fails
        exact ⟨w ++ v, reads.trans reads', .inr ⟨w, v, rfl, word, asks⟩⟩
      · cases (fails_fail.mp (failed ▸ fails)).2
  asks {c w kind d} lt room reads asks stuck := by
    rcases asks with asks | ⟨u, v, rfl, word, asks⟩
    · -- what goes on with the first words goes on to a word of the whole
      have stuck' : d.Stuck fun v => Derives a (w ++ v) := fun t v head word => by
        obtain ⟨x, rest⟩ := exists_derives b
        exact stuck t (v ++ x) head (by simpa using word.append rest)
      rcases first.asks lt room reads asks stuck' with fails | ⟨initial, d, fails, less⟩
      · exact .inl (fails_bind.mpr (.inl fails))
      · exact .inr ⟨initial, d, fails_bind.mpr (.inl fails), less⟩
    · obtain ⟨c₁, reads, reads'⟩ := Cursor.reads_append_iff.mp reads
      -- what comes next does not go on with the first words: it would then belong to the whole
      have bars : c₁.Bars barred := by
        intro t head isBarred
        cases v with
        | nil =>
          obtain rfl := Cursor.reads_nil_iff.mp reads'
          obtain ⟨v, whole⟩ := settled word isBarred asks
          exact stuck t v head (by simpa using whole)
        | cons s v =>
          obtain rfl := reads'.eq_head head
          obtain ⟨x, rest⟩ := asks.exists_derives
          exact leads.head rest isBarred
      rcases recognizes.gets lt room reads word bars with ⟨x, yields⟩ | ⟨initial, d, fails, less⟩
      · rcases second x with rest | ⟨notEmpty, initial, failed⟩
        · refine .bind yields (rest.asks (reads.left_lt lt) (reads.left_lt room) reads' asks ?_)
          exact fun t x head rest => stuck t x head (by simpa using word.append rest)
        · have fails : (next x).Fails c₁ ⟨.notAssignment initial, c₁⟩ :=
            failed ▸ fails_fail.mpr ⟨reads.left_lt room, rfl⟩
          -- the word of the first rule is not empty, so that some token has been read
          have shorter := reads.left_lt_iff.mpr fun empty => notEmpty (empty ▸ word)
          exact .inr ⟨initial, c₁, fails_bind.mpr (.inr ⟨x, c₁, yields, fails⟩), shorter⟩
      · exact .inr ⟨initial, d, fails_bind.mpr (.inl fails), less⟩

/-- Where nothing is asked for right behind the first words, or no token goes on with these. -/
theorem bindOr {rule : Rule n α} {next : α → Rule n β}
    (first : rule.AsksFor size a) (recognizes : rule.Recognizes size (Derives a) barred)
    (leads : Leads b barred fun _ => True)
    (quiet : ∀ kind, Awaits b [] kind → ∀ t, ¬ barred t)
    (second : ∀ x, (next x).AsksFor size b ∨
      ¬ Derives a [] ∧ ∃ initial, next x = Rule.fail (.notAssignment initial)) :
    (rule >>= next).AsksFor size (a ++ b) :=
  (first.bindSettled recognizes leads (fun _ isBarred asks => absurd isBarred (quiet _ asks _))
    second).congr (fun _ => Iff.rfl) fun _ _ => awaits_append_iff

protected theorem bind {rule : Rule n α} {next : α → Rule n β}
    (first : rule.AsksFor size a) (recognizes : rule.Recognizes size (Derives a) barred)
    (leads : Leads b barred fun _ => True) (quiet : Quiet b)
    (second : ∀ x, (next x).AsksFor size b) : (rule >>= next).AsksFor size (a ++ b) :=
  first.bindOr recognizes leads (fun kind asks => absurd asks (quiet kind))
    fun x => .inl (second x)

/-- Nothing goes on with the first words. -/
theorem bindEnded {rule : Rule n α} {next : α → Rule n β} (first : rule.AsksFor size a)
    (recognizes : rule.Recognizes size (Derives a) fun _ => False)
    (second : ∀ x, (next x).AsksFor size b) : (rule >>= next).AsksFor size (a ++ b) :=
  first.bindOr recognizes .never (fun _ _ _ => id) fun x => .inl (second x)

/-- The next token chooses a rule for what follows it. Where it chooses none, what is missing is
what is asked for at once. -/
theorem onNext (room : n ≤ m + 1) {choose : Token → Option (Rule m α)} {kind : ParseError.Kind}
    (chosen : ∀ {size'}, size' < size → ∀ {t rule}, choose t = some rule →
      rule.Asks size' (fun w => L (t :: w)) fun w => A (t :: w))
    (begins : ∀ {t w kind}, A (t :: w) kind → ∃ rule, choose t = some rule)
    (goesOn : ∀ {t rule}, choose t = some rule → ∃ w, L (t :: w))
    (atOnce : ∀ kind', A [] kind' ↔ kind' = kind) :
    (onNext room choose (missing kind)).Asks size L A where
  asked lt isPart fails := by
    rcases fails_onNext.mp fails with ⟨-, t, c₁, rule, taken, eq, fails⟩ | ⟨-, fails⟩
    · obtain ⟨w, reads, asks⟩ :=
        (chosen lt eq).asked (Cursor.left_lt_of_take? taken) isPart fails
      exact ⟨t :: w, reads.behind taken, asks⟩
    · obtain ⟨-, eq⟩ := fails_missing.mp fails
      cases eq
      exact ⟨[], .refl _, (atOnce _).mpr rfl⟩
  asks {c w kind' d} lt lt' reads asks stuck := by
    cases w with
    | nil =>
      obtain rfl := Cursor.reads_nil_iff.mp reads
      obtain rfl := (atOnce _).mp asks
      -- a token that chooses a rule goes on with some word, and the cursor would not be stuck
      have none : ∀ t, d.ahead.head? = some t → choose t = Option.none := by
        intro t head
        by_contra chosen
        obtain ⟨rule, chosen⟩ := Option.ne_none_iff_exists'.mp chosen
        obtain ⟨v, word⟩ := goesOn chosen
        exact stuck t v head word
      exact .inl (fails_onNext.mpr (.inr ⟨none, fails_missing.mpr ⟨lt', rfl⟩⟩))
    | cons t w =>
      obtain ⟨rule, eq⟩ := begins asks
      obtain ⟨c₁, taken, reads⟩ := Cursor.reads_cons_iff.mp reads
      have shorter := Cursor.left_lt_of_take? taken
      exact .onNext lt' taken eq ((chosen lt eq).asks shorter (by omega) reads asks stuck)

/-- A single token asks for no part. -/
theorem expect {kind : Token.Kind} {what : Expectation} :
    (expect kind what : Rule n Token).AsksFor size [.kind kind] where
  asked _ isPart fails := by
    unfold Rule.expect Rule.ifNext at fails
    rcases fails_onNext.mp fails with ⟨-, t, c₁, rule, -, eq, fails⟩ | ⟨-, fails⟩
    · obtain ⟨-, eq⟩ := Option.ite_none_right_eq_some.mp eq
      cases eq
      exact absurd fails not_fails_pure
    · obtain ⟨-, eq⟩ := fails_missing.mp fails
      cases eq
      cases isPart
  asks _ _ _ asks _ := by simp at asks

/-- What is asked for behind a single token. -/
theorem expectThen {kind : Token.Kind} {what : Expectation} {next : Token → Rule n β}
    (rest : ∀ t, (next t).AsksFor size b) :
    (Rule.expect kind what >>= next).AsksFor size (.kind kind :: b) :=
  expect.bindEnded Recognizes.expect rest

section Decision

variable {asked : Token → Bool} {B : List Token → ParseError.Kind → Prop}

/-- Words of one sort begin with a token that is asked for, and those of the other do not. -/
theorem onNextIf (room : n ≤ m + 1) {after : Token → Rule m α} {other : Rule n α}
    (split : ∀ w, L w ↔ (∃ t v, w = t :: v ∧ asked t ∧ Derives a v) ∨ Derives b w)
    (split' : ∀ w kind, A w kind ↔
      (∃ t v, w = t :: v ∧ asked t ∧ Awaits a v kind) ∨ B w kind)
    (leads : Leads b (fun t => asked t) fun _ => True)
    (behind : ∀ {size'}, size' < size → ∀ t, asked t → (after t).AsksFor size' a)
    (others : other.Asks size (Derives b) B)
    (viable : ∀ {w kind}, B w kind → ∃ x, Derives b (w ++ x)) :
    (Rule.onNext room (fun t => if asked t then some (after t) else none) other).Asks size L A where
  asked lt isPart fails := by
    rcases fails_onNext.mp fails with ⟨-, t, c₁, rule, taken, eq, fails⟩ | ⟨-, fails⟩
    · obtain ⟨isAsked, eq⟩ := Option.ite_none_right_eq_some.mp eq
      cases eq
      obtain ⟨w, reads, asks⟩ :=
        (behind lt t isAsked).asked (Cursor.left_lt_of_take? taken) isPart fails
      exact ⟨t :: w, reads.behind taken, (split' _ _).mpr (.inl ⟨t, w, rfl, isAsked, asks⟩)⟩
    · obtain ⟨w, reads, asks⟩ := others.asked lt isPart fails
      exact ⟨w, reads, (split' _ _).mpr (.inr asks)⟩
  asks {c w kind d} lt lt' reads asks stuck := by
    rcases (split' w kind).mp asks with ⟨t, v, rfl, isAsked, asks⟩ | asks
    · obtain ⟨c₁, taken, reads⟩ := Cursor.reads_cons_iff.mp reads
      have shorter := Cursor.left_lt_of_take? taken
      refine .onNext lt' taken (if_pos isAsked)
        ((behind lt t isAsked).asks shorter (by omega) reads asks ?_)
      exact fun s x head word => stuck s x head ((split _).mpr (.inl ⟨t, _, rfl, isAsked, word⟩))
    · -- the next token belongs to a word of the other sort, or none goes on with it
      have none : ∀ t, c.ahead.head? = some t →
          (if asked t then some (after t) else none) = Option.none := by
        intro t head
        suffices ¬ asked t by simp [this]
        intro isAsked
        cases w with
        | nil =>
          obtain rfl := Cursor.reads_nil_iff.mp reads
          obtain ⟨x, word⟩ := exists_derives a
          exact stuck t x head ((split _).mpr (.inl ⟨t, x, rfl, isAsked, word⟩))
        | cons u w =>
          obtain rfl := reads.eq_head head
          obtain ⟨x, word⟩ := viable asks
          exact leads.head word isAsked
      have stuck' : d.Stuck fun v => Derives b (w ++ v) := fun t v head word =>
        stuck t v head ((split _).mpr (.inr word))
      rcases others.asks lt lt' reads asks stuck' with fails | ⟨initial, d, fails, less⟩
      · exact .inl (fails_onNext.mpr (.inr ⟨none, fails⟩))
      · exact .inr ⟨initial, d, fails_onNext.mpr (.inr ⟨none, fails⟩), less⟩

theorem ifNext {after : Token → Rule n α} {other : Rule n α}
    (split : ∀ w, L w ↔ (∃ t v, w = t :: v ∧ asked t ∧ Derives a v) ∨ Derives b w)
    (split' : ∀ w kind, A w kind ↔
      (∃ t v, w = t :: v ∧ asked t ∧ Awaits a v kind) ∨ Awaits b w kind)
    (leads : Leads b (fun t => asked t) fun _ => True)
    (behind : ∀ {size'}, size' < size → ∀ t, asked t → (after t).AsksFor size' a)
    (others : other.AsksFor size b) : (ifNext asked after other).Asks size L A :=
  onNextIf _ split split' leads behind others Awaits.exists_derives

theorem within {after : Token → Rule n α} {other : Rule (n + 1) α}
    (split : ∀ w, L w ↔ (∃ t v, w = t :: v ∧ asked t ∧ Derives a v) ∨ Derives b w)
    (split' : ∀ w kind, A w kind ↔
      (∃ t v, w = t :: v ∧ asked t ∧ Awaits a v kind) ∨ Awaits b w kind)
    (leads : Leads b (fun t => asked t) fun _ => True)
    (behind : ∀ {size'}, size' < size → ∀ t, asked t → (after t).AsksFor size' a)
    (others : other.AsksFor size b) : (within asked after other).Asks size L A :=
  onNextIf (Nat.le_refl _) split split' leads behind others Awaits.exists_derives

end Decision

/-- A pinned rule asks at once for what it is pinned to, and further on for what it asks for. -/
theorem pin {rule : Rule n α} {kind : ParseError.Kind} (h : rule.Asks size L A)
    (atOnce : ∃ kind, A [] kind)
    (same : ∀ w kind', A' w kind' ↔ w = [] ∧ kind' = kind ∨ w ≠ [] ∧ A w kind') :
    (pin kind rule).Asks size L A' where
  asked {c kind' d} lt isPart fails := by
    obtain ⟨f, fails, eq⟩ := fails_pin.mp fails
    split at eq
    · cases eq
      exact ⟨[], .refl _, (same _ _).mpr (.inl ⟨rfl, rfl⟩)⟩
    · next further =>
      obtain rfl := eq
      obtain ⟨w, reads, asks⟩ := h.asked lt isPart fails
      refine ⟨w, reads, (same _ _).mpr (.inr ⟨?_, asks⟩)⟩
      rintro rfl
      obtain rfl := Cursor.reads_nil_iff.mp reads
      exact further rfl
  asks {c w kind' d} lt lt' reads asks stuck := by
    rcases (same w kind').mp asks with ⟨rfl, rfl⟩ | ⟨ne, asks⟩
    · obtain rfl := Cursor.reads_nil_iff.mp reads
      obtain ⟨kind, asks⟩ := atOnce
      rcases h.asks lt lt' reads asks stuck with fails | ⟨initial, d, fails, less⟩
      · exact .inl (fails_pin.mpr ⟨_, fails, (if_pos rfl).symm⟩)
      · exact .inr ⟨initial, d, fails_pin.mpr ⟨_, fails, (if_neg (Nat.ne_of_lt less)).symm⟩, less⟩
    · -- something has been read, and so the failure is not at once
      have further : d.left ≠ c.left := Nat.ne_of_lt (reads.left_lt_iff.mpr ne)
      rcases h.asks lt lt' reads asks stuck with fails | ⟨initial, d, fails, less⟩
      · exact .inl (fails_pin.mpr ⟨_, fails, (if_neg further).symm⟩)
      · exact .inr ⟨initial, d, fails_pin.mpr ⟨_, fails, (if_neg (Nat.ne_of_lt less)).symm⟩, less⟩

/-- A pinned rule, with what comes behind it. -/
theorem pinThen {rule : Rule n α} {next : α → Rule n β} {kind : ParseError.Kind}
    (first : rule.AsksFor size a) (recognizes : rule.Recognizes size (Derives a) barred)
    (leads : Leads b barred fun _ => True) (ne : ¬ Derives a [])
    (atOnce : ∃ kind, Awaits a [] kind) (quiet : Quiet b)
    (second : ∀ x, (next x).AsksFor size b) :
    (Rule.pin kind rule >>= next).Asks size (Derives (a ++ b)) fun w kind' =>
      w = [] ∧ kind' = kind ∨ w ≠ [] ∧ Awaits (a ++ b) w kind' := by
  have pinned : (Rule.pin kind rule).Asks size (Derives a) fun w kind' =>
      w = [] ∧ kind' = kind ∨ w ≠ [] ∧ Awaits a w kind' :=
    first.pin atOnce fun _ _ => Iff.rfl
  refine (pinned.bindSettled (recognizes.pin (exists_derives a)) leads
    (fun _ _ asks => absurd asks (quiet _)) fun x => .inl (second x)).congr
    (fun _ => Iff.rfl) fun w kind' => ?_
  rw [awaits_append_iff, and_or_left, or_assoc]
  refine or_congr_right (or_congr_right ⟨And.right, fun further => ⟨?_, further⟩⟩)
  -- nothing but the first rule asks for anything at once, since its words are not empty
  rintro rfl
  obtain ⟨u, v, eq, word, -⟩ := further
  obtain ⟨rfl, -⟩ := List.append_eq_nil_iff.mp eq.symm
  exact ne word

/-! ### Loops

In each round a token is read, so that the induction is on the tokens ahead. -/

theorem afterCommas {p : Part} {s : Symbol} {item : Rule n α}
    (table : productions p = [[], [.kind .comma, s, .part p]]) (none : p.asks = none)
    (items : ∀ {size}, item.AsksFor size [s])
    (recognizes : ∀ {size}, item.Recognizes size (Derives [s]) barred)
    (notComma : ∀ t, t.kind = .comma → ¬ barred t) :
    (afterCommas item).AsksFor size [.part p] := by
  have notFurther : p ≠ .furtherStatements := by
    rintro rfl
    simp [productions] at table
  have split (w : List Token) : Derives [.part p] w ↔
      (∃ t v, w = t :: v ∧ (t.kind == .comma) ∧ Derives [s, .part p] v) ∨ Derives [] w := by
    simp [derives_either table, or_comm]
  have split' (w : List Token) (kind : ParseError.Kind) : Awaits [.part p] w kind ↔
      (∃ t v, w = t :: v ∧ (t.kind == .comma) ∧ Awaits [s, .part p] v kind) ∨
        Awaits [] w kind := by
    rw [awaits_productions_iff notFurther (by simp [table, none])]
    simp [table]
  have leads : Leads [.part p] barred fun _ => True :=
    .either table (.nil fun _ _ => trivial) (.kind notComma)
  induction size using Nat.strongRecOn with
  | ind size ih =>
    rw [afterCommas_eq item]
    refine ifNext split split' (.nil fun _ _ => trivial) (fun smaller t _ => ?_) .pure
    refine items.bind recognizes leads (.part none .nil) fun value => ?_
    exact (ih _ smaller).bind (.afterCommas table recognizes notComma)
      (.nil fun _ _ => trivial) .nil fun others => .pure

section Chain

variable {level : Level} {isOperator : Token.Kind → Bool} {operand : Rule n Tree}

theorem awaits_furtherOperands_iff {w : List Token} {kind : ParseError.Kind} :
    Awaits [.part (.furtherOperands level)] w kind ↔
      (∃ t v, w = t :: v ∧ t.kind ∈ level.operators ∧
        Awaits [.phrase level.operand, .part (.furtherOperands level)] v kind) ∨
      Awaits [] w kind := by
  rw [awaits_productions_iff (by simp) (by simp [productions, Part.asks])]
  simp only [productions, List.mem_cons, List.mem_map, not_awaits_nil, or_false]
  constructor
  · rintro ⟨production, rfl | ⟨k, operator, rfl⟩, asks⟩
    · exact absurd asks not_awaits_nil
    · obtain ⟨t, v, rfl, rfl, rest⟩ := awaits_kind_iff.mp asks
      exact ⟨t, v, rfl, operator, rest⟩
  · rintro ⟨t, v, rfl, operator, rest⟩
    exact ⟨_, .inr ⟨t.kind, operator, rfl⟩, .kind rfl rest⟩

/-- A chain goes on for as long as operators of its level come next. -/
theorem binaryChainFrom (isOperator_iff : ∀ k, isOperator k ↔ k ∈ level.operators)
    (operands : ∀ {size}, operand.AsksFor size [.phrase level.operand])
    (recognizes : ∀ {size},
      operand.Recognizes size (Derives [.phrase level.operand]) level.operand.GoesOnWith)
    {left : Tree} :
    (binaryChainFrom isOperator operand left).AsksFor size [.part (.furtherOperands level)] := by
  induction size using Nat.strongRecOn generalizing left with
  | ind size ih =>
    rw [binaryChainFrom_eq isOperator operand]
    refine ifNext (a := [.phrase level.operand, .part (.furtherOperands level)]) (fun w => ?_)
      (fun w kind => ?_) (.nil fun _ _ => trivial) (fun smaller t _ => ?_) .pure
    · simp only [isOperator_iff, Recognizes.derives_furtherOperands_iff]
    · simp only [isOperator_iff, awaits_furtherOperands_iff]
    · exact operands.bind recognizes Recognizes.leads_furtherOperands.weaken (.part rfl .nil)
        fun right => ih _ smaller

theorem binaryChain (isOperator_iff : ∀ k, isOperator k ↔ k ∈ level.operators)
    (operands : ∀ {size}, operand.AsksFor size [.phrase level.operand])
    (recognizes : ∀ {size},
      operand.Recognizes size (Derives [.phrase level.operand]) level.operand.GoesOnWith) :
    (binaryChain isOperator operand).AsksFor size
      [.phrase level.operand, .part (.furtherOperands level)] :=
  operands.bind recognizes Recognizes.leads_furtherOperands.weaken (.part rfl .nil) fun _ =>
    binaryChainFrom isOperator_iff operands recognizes

end Chain

section Statements

variable {statement : Rule n Tree}

/-- Separators are skipped up to where a statement is begun. -/
theorem skipSeparators_eq_of_awaits {c c₁ d : Cursor} {lead v : List Token}
    {kind : ParseError.Kind} (reads : c.Reads lead c₁) (separators : Separators lead)
    (reads' : c₁.Reads v d) (ne : v ≠ [])
    (asks : Awaits [.phrase .expression, .part .furtherStatements] v kind) :
    c.skipSeparators = c₁ := by
  obtain ⟨t, rest, rfl⟩ := List.exists_cons_of_ne_nil ne
  refine Cursor.skipSeparators_eq reads separators fun s head separator => ?_
  obtain rfl := reads'.eq_head head
  obtain ⟨x, word⟩ := asks.exists_derives
  have begins : t.BeginsExpression := word.begins_cons (by decide)
  exact begins.kind_not_mem (by simp [separator])

/-- Where no statement begins behind separators they are no reason to fail, so that a statement has
to be begun for anything to be asked for. -/
theorem furtherStatements (h : ∀ {size}, statement.AsksFor size [.phrase .expression])
    (recognizes : ∀ {size}, statement.Recognizes size (Derives [.phrase .expression])
      (Phrase.GoesOnWith .expression)) :
    (furtherStatements statement).AsksFor size [.part .furtherStatements] := by
  induction size using Nat.strongRecOn with
  | ind size ih =>
  constructor
  case asked =>
    intro c kind d lt isPart fails
    have ltSkip := c.reads_skipSeparators.left_lt lt
    obtain ⟨shorter, -, further⟩ := fails_furtherStatements.mp fails
    have between := c.reads_skipSeparators.left_lt_iff.mp shorter
    rcases further with ⟨fails, notAtOnce⟩ | ⟨tree, c₁, first, fails⟩
    · obtain ⟨v, reads, asks⟩ := h.asked ltSkip isPart fails
      refine ⟨_, c.reads_skipSeparators.trans reads, awaits_furtherStatements_iff.mpr
        ⟨_, v, rfl, c.separators_takeWhile, between, ?_, asks.append⟩⟩
      rintro rfl
      exact notAtOnce (congrArg Cursor.left (Cursor.reads_nil_iff.mp reads))
    · obtain ⟨u, reads, word⟩ := recognizes.reads ltSkip first
      obtain ⟨v, reads', asks⟩ :=
        (ih _ lt).asked (Nat.lt_of_le_of_lt reads.left_le shorter) isPart fails
      refine ⟨_, c.reads_skipSeparators.trans (reads.trans reads'),
        awaits_furtherStatements_iff.mpr ⟨_, u ++ v, rfl, c.separators_takeWhile, between, ?_,
          .behind word asks⟩⟩
      obtain ⟨t, u, rfl, -⟩ := word.begins (by decide)
      exact List.cons_ne_nil _ _
  case asks =>
    intro c w kind d lt lt' reads asks stuck
    obtain ⟨lead, v, rfl, separators, ne, ne', asks⟩ := awaits_furtherStatements_iff.mp asks
    obtain ⟨c₁, reads, reads'⟩ := Cursor.reads_append_iff.mp reads
    have skipped := skipSeparators_eq_of_awaits reads separators reads' ne' asks
    have shorter := reads.left_lt_iff.mpr ne
    have further : d.left ≠ c₁.left := Nat.ne_of_lt (reads'.left_lt_iff.mpr ne')
    have lt₁ := reads.left_lt lt'
    obtain rfl := skipped
    rcases awaits_append_iff (a := [.phrase .expression]).mp asks with
      asks | ⟨u, v, rfl, word, asks⟩
    -- the statement behind the separators has been begun
    · have stuck' : d.Stuck fun x => Derives [.phrase .expression] (v ++ x) := by
        intro t x head word
        have none : Derives [.part .furtherStatements] [] :=
          derives_furtherStatements_iff.mpr (.inl (List.forall_mem_nil _))
        exact stuck t x head (derives_furtherStatements_iff.mpr
          (.inr ⟨lead, v ++ t :: x, [], by simp, separators, ne, word, none⟩))
      rcases h.asks (Nat.lt_succ_self _) lt₁ reads' asks stuck' with
        fails | ⟨initial, d', fails, less⟩
      · exact .inl (fails_furtherStatements.mpr ⟨shorter, lt', .inl ⟨fails, further⟩⟩)
      · exact .inr ⟨initial, d', fails_furtherStatements.mpr
          ⟨shorter, lt', .inl ⟨fails, Nat.ne_of_lt less⟩⟩, Nat.lt_trans less shorter⟩
    -- it has been read, and what is asked for comes behind it
    · obtain ⟨c₂, reads₁, reads₂⟩ := Cursor.reads_append_iff.mp reads'
      have bars : c₂.Bars (Phrase.GoesOnWith .expression) := by
        intro t head goesOn
        cases v with
        | nil => simp [awaits_part_nil_iff, Part.asks] at asks
        | cons s v =>
          obtain rfl := reads₂.eq_head head
          obtain ⟨x, word'⟩ := asks.exists_derives
          exact Leads.furtherStatements.head word' goesOn
      have stuck' : d.Stuck fun x => Derives [.part .furtherStatements] (v ++ x) := by
        intro t x head word'
        exact stuck t x head (derives_furtherStatements_iff.mpr
          (.inr ⟨lead, u, v ++ t :: x, by simp, separators, ne, word, word'⟩))
      have shorter₂ := Nat.lt_of_le_of_lt reads₁.left_le shorter
      rcases recognizes.gets (Nat.lt_succ_self _) lt₁ reads₁ word bars with
        ⟨tree, yields⟩ | ⟨initial, d', fails, less⟩
      · rcases (ih _ lt).asks shorter₂ (reads₁.left_lt lt₁) reads₂ asks stuck' with
          fails | ⟨initial, d', fails, less⟩
        · exact .inl (fails_furtherStatements.mpr
            ⟨shorter, lt', .inr ⟨tree, c₂, yields, fails⟩⟩)
        · exact .inr ⟨initial, d', fails_furtherStatements.mpr
            ⟨shorter, lt', .inr ⟨tree, c₂, yields, fails⟩⟩, Nat.lt_trans less shorter₂⟩
      · exact .inr ⟨initial, d', fails_furtherStatements.mpr
          ⟨shorter, lt', .inl ⟨fails, Nat.ne_of_lt less⟩⟩, Nat.lt_trans less shorter⟩

theorem statements (h : ∀ {size}, statement.AsksFor size [.phrase .expression])
    (recognizes : ∀ {size}, statement.Recognizes size (Derives [.phrase .expression])
      (Phrase.GoesOnWith .expression))
    (refuses : ∀ {c : Cursor}, c.left < n →
      (∀ t, c.ahead.head? = some t → ¬ t.BeginsExpression) → statement.Refuses c) :
    (statements statement).AsksFor size [.phrase .statements] := by
  refine .ofOnly rfl (by decide) (fun kind => ?_) ?_
  · simp [awaits_part_nil_iff, Part.asks, derives_separators_iff, Separators,
      not_derives_phrase_nil]
  · refine (silent (fun _ _ => not_fails_here) fun _ _ => not_awaits_nil).bindEnded (a := [])
      Recognizes.here fun start => ?_
    have skip : (Rule.skipSeparators : Rule n Unit).AsksFor size [.part .separators] :=
      silent (fun _ _ => not_fails_skipSeparators) fun _ _ => not_awaits_separators
    refine (skip.bindSettled Recognizes.skipSeparators
      (.phrase (by decide) fun t begins separator => ?_) (fun word isSeparator _ => ?_)
      fun _ => .inl ?_).congr (fun _ => Iff.rfl) fun _ _ => awaits_append_iff (a := [_])
    · exact Token.BeginsExpression.kind_not_mem begins (by simp [separator])
    · obtain ⟨v, rest⟩ := exists_derives [.phrase .expression, .part .furtherStatements]
      have separators := List.forall_mem_append.mpr
        ⟨derives_separators_iff.mp word, List.forall_mem_singleton.mpr isSeparator⟩
      have whole := (derives_separators_iff.mpr separators).append rest
      exact ⟨v, by simpa using whole⟩
    · refine h.bind recognizes Leads.furtherStatements.weaken (.part rfl .nil) fun first => ?_
      refine (furtherStatements h recognizes).bind (.furtherStatements recognizes refuses)
        (.nil fun _ _ => trivial) .nil fun others => ?_
      exact (silent (fun _ _ => not_fails_lastStop) fun _ _ => not_awaits_nil).bindEnded (a := [])
        Recognizes.lastStop fun stop => .pure

end Statements

end Asks

end Rule

/-! ### The rules of the grammar -/

namespace Grammar

open Rule

variable {n size : Nat} {start : Position}

/-- The rules of a grammar fail for lack of a part with what their parts ask for. -/
structure Asks (g : Grammar n) : Prop where
  expression : ∀ {size}, g.expression.AsksFor size [.phrase .expression]
  comparison : ∀ {size}, g.comparison.AsksFor size [.phrase .comparison]
  arithmetic : ∀ {size}, g.arithmetic.AsksFor size [.phrase (.joined .sums)]
  factor : ∀ {size}, g.factor.AsksFor size [.phrase .factor]

variable {g : Grammar n}

/-- An expression with the bracket that closes it. -/
theorem Asks.closed (h : g.Asks) (recognizes : g.Recognizes) {what : Expectation} :
    (do
      let tree ← g.expression
      let _ ← expect .rightParen what
      return tree : Rule n Tree).AsksFor size [.phrase .expression, .kind .rightParen] :=
  h.expression.bind recognizes.expression (.closing (by decide) (by decide)) .token fun _ =>
    .expectThen fun _ => .pure

theorem Asks.parenthesised (h : g.Asks) (recognizes : g.Recognizes) :
    (parenthesised g.expression).AsksFor size
      [.kind .leftParen, .phrase .expression, .kind .rightParen] :=
  .expectThen fun _ => h.closed recognizes

theorem Asks.block (h : g.Asks) (recognizes : g.Recognizes) :
    g.block.AsksFor size [.phrase .block] :=
  .ofOnly rfl (by decide) (by simp [Part.asks]) <| .expectThen fun _ =>
    (Rule.Asks.statements h.expression recognizes.expression recognizes.refuses).bind
      (.statements recognizes.expression recognizes.refuses)
      (.kind fun _ isCurl goesOn => goesOn isCurl) .token fun _ => .expectThen fun _ => .pure

/-- Where neither an argument nor the bracket that closes the call comes next, that is what is
missing. -/
theorem Asks.arguments (h : g.Asks) (recognizes : g.Recognizes) :
    g.arguments.AsksFor size [.part .arguments, .kind .rightParen] := by
  have closing {t : Token} (kind : t.kind ∈ [.comma, .rightParen]) :
      ¬ (Phrase.GoesOnWith .expression) t :=
    Phrase.not_goesOnWith_of_closing (by decide) (by
      rcases List.mem_pair.mp kind with kind | kind <;> simp [kind])
  have others : (Rule.afterCommas g.expression).AsksFor size [.part .furtherArguments] :=
    .afterCommas rfl rfl h.expression recognizes.expression fun t isComma =>
      closing (by simp [isComma])
  refine Rule.Asks.onNextIf (Nat.le_succ n) (a := []) (fun w => ?_) (fun w kind => ?_)
    (.phrase (by decide) fun t begins isRight => ?_) (fun _ _ _ => .pure)
    (h.expression.pinThen recognizes.expression (leads_list rfl fun t => closing)
      (not_derives_phrase_nil (by decide)) ⟨_, .here rfl⟩ (.part rfl .token) fun _ =>
      others.bind (.afterCommas rfl recognizes.expression ?_) (.kind ?_) .token fun _ =>
        .expectThen fun _ => .pure) fun asks => ?_
  · rw [derives_either rfl]
    simp
  · simp [awaits_arguments_iff]
  · exact Token.BeginsExpression.kind_not_mem begins (by simp [beq_iff_eq.mp isRight])
  · exact fun t isComma => closing (by simp [isComma])
  · rintro t isRight (isComma | goesOn)
    · simp [isRight] at isComma
    · exact closing (by simp [isRight]) goesOn
  · rcases asks with ⟨rfl, -⟩ | ⟨-, asks⟩
    · exact exists_derives _
    · exact asks.exists_derives

theorem asks_parameters :
    (parameters : Rule n (List Token)).AsksFor size [.part .parameters, .kind .rightParen] := by
  have names {size} : (Rule.afterCommas (Rule.expect .identifier .identifier) :
      Rule n _).AsksFor size [.part .furtherParameters] :=
    .afterCommas rfl rfl .expect Rule.Recognizes.expect fun _ _ => id
  have recognizes {size} : (Rule.afterCommas (Rule.expect .identifier .identifier) :
      Rule n _).Recognizes size (Derives [.part .furtherParameters])
        (fun t => t.kind = .comma ∨ False) :=
    .afterCommas rfl .expect fun _ _ => id
  refine .ifNext (a := [.part .furtherParameters, .kind .rightParen]) (b := [.kind .rightParen])
    (fun w => ?_) (fun w kind => ?_) (.kind fun t isRight => by simp [isRight])
    (fun _ _ _ => names.bind recognizes (.kind ?_) .token fun _ => .expectThen fun _ => .pure)
    (.expectThen fun _ => .pure)
  · rw [derives_either rfl]
    simp [or_comm]
  · have closed (p : Part) (w : List Token) : Awaits [.part p, .kind .rightParen] w kind ↔
        Awaits [.part p] w kind :=
      awaits_append_kind_iff (a := [_])
    simp only [closed]
    rw [awaits_productions_iff (by decide) (by simp [productions, Part.asks])]
    simp [productions]
  · rintro t isRight (isComma | none)
    · simp [isRight] at isComma
    · exact none

/-! ### Compound expressions -/

theorem Asks.elsePart (h : g.Asks) (recognizes : g.Recognizes) {stop : Position} :
    (ifNext (·.isKeyword .elseWord)
      (fun _ => do
        let (body, stop) ← g.block
        return (Arms.otherwise body, stop))
      (return (Arms.none, stop)) : Rule n (Arms × Position)).AsksFor size [.part .elsePart] := by
  refine .ifNext (a := [.phrase .block]) (b := []) (fun w => ?_) (fun w kind => ?_)
    (.nil fun _ _ => trivial)
    (fun _ _ _ => (h.block recognizes).bindEnded recognizes.block fun _ => .pure)
    .pure
  · rw [derives_either rfl]
    simp [or_comm]
  · rw [awaits_productions_iff (by decide) (by simp [productions, Part.asks])]
    simp [productions]

theorem Asks.conditional (h : g.Asks) (recognizes : g.Recognizes) :
    (g.conditional start).AsksFor size
      [.kind .leftParen, .phrase .expression, .kind .rightParen, .phrase .block,
        .part .elsePart] := by
  refine (h.parenthesised recognizes).bindEnded recognizes.parenthesised fun _ => ?_
  refine (h.block recognizes).bindEnded recognizes.block fun _ => ?_
  exact (h.elsePart recognizes).bind recognizes.elsePart (.nil fun _ _ => trivial) .nil
    fun _ => .pure

theorem Asks.afterAssignment (h : g.Asks) (recognizes : g.Recognizes) {letStart : Position}
    {name : Token} {initial : Tree} :
    (g.afterAssignment start letStart name initial).AsksFor size behindInitial := by
  refine .expectThen fun _ => ?_
  refine h.comparison.bind recognizes.comparison (.closing (by decide) (by decide)) .token
    fun _ => ?_
  refine .expectThen fun _ => ?_
  refine h.arithmetic.bind recognizes.arithmetic (.closing (by decide) (by decide)) .token
    fun _ => ?_
  refine .expectThen fun _ => ?_
  exact (h.block recognizes).bindEnded recognizes.block fun _ => .pure

/-- Where the first part of the header is no assignment, the loop is given up behind it. -/
theorem Asks.afterInitial (h : g.Asks) (recognizes : g.Recognizes) :
    (g.expression >>= g.afterInitial start).AsksFor size
      (.phrase .expression :: behindInitial) := by
  refine h.expression.bindOr recognizes.expression (.closing (by decide) (by decide))
    (fun kind asks => absurd asks (Quiet.token kind)) fun initial => ?_
  by_cases assignment : ∃ letStart name value, initial = .assignment letStart name value
  · obtain ⟨letStart, name, value, rfl⟩ := assignment
    exact .inl (h.afterAssignment recognizes)
  · have failed := afterInitial_eq_fail g start fun letStart name value eq =>
      assignment ⟨letStart, name, value, eq⟩
    exact .inr ⟨not_derives_phrase_nil (by decide), initial, failed⟩

theorem Asks.forLoop (h : g.Asks) (recognizes : g.Recognizes) :
    (g.forLoop start).AsksFor size (.kind .leftParen :: .phrase .expression :: behindInitial) :=
  .expectThen fun _ => h.afterInitial recognizes

theorem Asks.whileLoop (h : g.Asks) (recognizes : g.Recognizes) :
    (g.whileLoop start).AsksFor size
      [.kind .leftParen, .phrase .expression, .kind .rightParen, .phrase .block] := by
  refine (h.parenthesised recognizes).bindEnded recognizes.parenthesised fun _ => ?_
  exact (h.block recognizes).bindEnded recognizes.block fun _ => .pure

theorem Asks.function (h : g.Asks) (recognizes : g.Recognizes) :
    (g.function start).AsksFor size
      [.kind .identifier, .kind .leftParen, .part .parameters, .kind .rightParen,
        .phrase .block] := by
  refine .expectThen fun _ => .expectThen fun _ => ?_
  refine asks_parameters.bindEnded recognizes_parameters fun _ => ?_
  exact (h.block recognizes).bindEnded recognizes.block fun _ => .pure

/-! ### Atoms and calls -/

/-- What is asked for in an atom behind its first token. -/
theorem awaits_atom_iff {t : Token} {w : List Token} {kind : ParseError.Kind} :
    Awaits [.phrase .atom] (t :: w) kind ↔
      t.kind = .leftParen ∧ Awaits [.phrase .expression, .kind .rightParen] w kind ∨
      ∃ k rest, t.isKeyword k ∧ .word k :: rest ∈ productions (.phrase .atom) ∧
        Awaits rest w kind := by
  rw [awaits_part_iff]
  constructor
  · rintro (⟨empty, -⟩ | ⟨-, production, mem, asks⟩)
    · cases empty
    simp only [productions, List.mem_cons, List.not_mem_nil, or_false] at mem
    rcases mem with rfl | rfl | rfl | rfl | rfl | rfl | rfl | rfl | rfl
    -- four kinds of leaves, the bracket, and four words
    iterate 4 · simp at asks
    · exact .inl (by simpa using asks)
    all_goals
      obtain ⟨_, _, eq, isWord, rest⟩ := awaits_word_iff.mp asks
      cases eq
      exact .inr ⟨_, _, isWord, by simp [productions], rest⟩
  · rintro (⟨isLeft, asks⟩ | ⟨k, rest, isWord, mem, asks⟩)
    · exact .inr ⟨List.cons_ne_nil _ _, [.kind .leftParen, .phrase .expression, .kind .rightParen],
        by simp [productions], .kind isLeft asks⟩
    · exact .inr ⟨List.cons_ne_nil _ _, _, mem, .word isWord asks⟩

/-- Behind a reserved word, what its production asks for. -/
theorem awaits_atom_of_isKeyword {t : Token} {k : Keyword} (isWord : t.isKeyword k)
    {rest : List Symbol} (only : ∀ rest', .word k :: rest' ∈ productions (.phrase .atom) ↔
      rest' = rest) (w : List Token) (kind : ParseError.Kind) :
    Awaits [.phrase .atom] (t :: w) kind ↔ Awaits rest w kind := by
  rw [awaits_atom_iff]
  simp only [Token.kind_of_isKeyword isWord]
  constructor
  · rintro (⟨kind, -⟩ | ⟨k', rest', isWord', mem, asks⟩)
    · cases kind
    · obtain rfl := Token.isKeyword_inj isWord isWord'
      obtain rfl := (only rest').mp mem
      exact asks
  · exact fun asks => .inr ⟨k, rest, isWord, (only rest).mpr rfl, asks⟩

theorem Asks.afterWord (h : g.Asks) (recognizes : g.Recognizes) {t : Token} {k : Keyword}
    (isWord : t.isKeyword k) {rule : Rule n Tree} (chosen : g.afterWord? t.start k = some rule) :
    rule.Asks size (fun w => Derives [.phrase .atom] (t :: w))
      fun w => Awaits [.phrase .atom] (t :: w) := by
  have only {k : Keyword} {rest : List Symbol} (isWord : t.isKeyword k)
      (only : ∀ rest', .word k :: rest' ∈ productions (.phrase .atom) ↔ rest' = rest)
      {rule : Rule n Tree} (rests : rule.AsksFor size rest) :
      rule.Asks size (fun w => Derives [.phrase .atom] (t :: w))
        fun w => Awaits [.phrase .atom] (t :: w) :=
    rests.congr (derives_atom_of_isKeyword isWord only) (awaits_atom_of_isKeyword isWord only)
  cases k <;> simp only [afterWord?, Option.some.injEq, reduceCtorEq] at chosen <;> subst chosen
  case ifWord => exact only isWord (by simp [productions]) (h.conditional recognizes)
  case forWord => exact only isWord (by simp [productions]) (h.forLoop recognizes)
  case whileWord => exact only isWord (by simp [productions]) (h.whileLoop recognizes)
  case funcWord => exact only isWord (by simp [productions]) (h.function recognizes)

theorem Asks.afterFirst (h : g.Asks) (recognizes : g.Recognizes) {t : Token}
    {rule : Rule n Tree} (chosen : g.afterFirst? t = some rule) :
    rule.Asks size (fun w => Derives [.phrase .atom] (t :: w))
      fun w => Awaits [.phrase .atom] (t :: w) := by
  have notWord (ne : t.kind ≠ .keyword) (k : Keyword) : ¬ t.isKeyword k :=
    fun isWord => ne (Token.kind_of_isKeyword isWord)
  unfold afterFirst? at chosen
  split at chosen
  case h_1 kind | h_2 kind | h_3 kind | h_4 kind =>
    cases chosen
    have notWord := notWord (by simp [kind])
    exact .silent (fun _ _ => not_fails_pure) fun w _ => by simp [awaits_atom_iff, kind, notWord]
  case h_5 kind =>
    cases chosen
    have notWord := notWord (by simp [kind])
    exact (h.closed recognizes).congr (fun w => by simp [derives_atom_iff, kind, notWord])
      fun w _ => by simp [awaits_atom_iff, kind, notWord]
  case h_6 kind =>
    obtain ⟨k, isWord, chosen⟩ := Option.bind_eq_some_iff.mp chosen
    exact h.afterWord recognizes (by simp [Token.isKeyword, isWord]) chosen
  case h_7 => cases chosen

/-- Every token with which an atom can begin is the first of some atom. -/
theorem exists_derives_atom {t : Token} (begins : t.BeginsAtom) :
    ∃ w, Derives [.phrase .atom] (t :: w) := by
  rcases begins with kind | ⟨k, mem, isWord⟩
  · by_cases isLeft : t.kind = .leftParen
    · obtain ⟨w, word⟩ := exists_derives [.phrase .expression, .kind .rightParen]
      exact ⟨w, derives_atom_iff.mpr (.inr (.inl ⟨isLeft, word⟩))⟩
    · refine ⟨[], derives_atom_iff.mpr (.inl ⟨?_, .nil⟩)⟩
      simpa [isLeft] using kind
  · obtain ⟨rest, production⟩ :
        ∃ rest, Symbol.word k :: rest ∈ productions (.phrase .atom) := by
      cases k <;> simp [productions] at mem ⊢
    obtain ⟨w, word⟩ := exists_derives rest
    exact ⟨w, derives_atom_iff.mpr (.inr (.inr ⟨k, rest, isWord, production, word⟩))⟩

theorem Asks.atom (h : g.Asks) (recognizes : g.Recognizes) :
    g.atom.AsksFor size [.phrase .atom] := by
  refine .onNext (Nat.le_refl _) (fun _ _ _ chosen => h.afterFirst recognizes chosen)
    (fun asks => ?_) (fun {t rule} chosen => exists_derives_atom ?_) fun kind => ?_
  · obtain ⟨x, word⟩ := asks.exists_derives
    exact exists_afterFirst (word.begins_cons (by decide))
  · by_contra none
    rw [afterFirst?_eq_none none] at chosen
    cases chosen
  · simp [awaits_part_nil_iff, Part.asks, eq_comm]

theorem Asks.call (h : g.Asks) (recognizes : g.Recognizes) :
    g.call.AsksFor size [.phrase .call] := by
  refine .ofOnly rfl (by decide)
    (by simp [awaits_part_nil_iff, Part.asks, not_derives_phrase_nil]) ?_
  have leads : Leads [.part .callSuffix] (Phrase.GoesOnWith .atom) fun _ => True := by
    refine .either rfl (.nil fun _ _ => trivial) (.kind fun t isLeft isElse => ?_)
    simp [Token.kind_of_isKeyword isElse] at isLeft
  refine (h.atom recognizes).bind recognizes.atom leads (.part rfl .nil) fun callee => .within
    (a := [.part .arguments, .kind .rightParen]) (b := []) (fun w => ?_) (fun w kind => ?_)
    (.nil fun _ _ => trivial)
    (fun _ _ _ => (h.arguments recognizes).bindEnded recognizes.arguments fun _ => .pure) .pure
  · rw [derives_either rfl]
    simp [or_comm]
  · rw [awaits_productions_iff (by decide) (by simp [productions, Part.asks])]
    simp [productions]

/-! ### Levels of operators -/

theorem asks_underOperator {isOperator : Token.Kind → Bool} {operand : Rule n Tree}
    {bare : Rule (n + 1) Tree} {p q : Phrase}
    (operands : ∀ {size}, operand.AsksFor size [.phrase p])
    (recognizes : ∀ {size}, operand.Recognizes size (Derives [.phrase p]) p.GoesOnWith)
    (bares : bare.AsksFor size [.phrase q])
    (split : ∀ w, Derives [.phrase p] w ↔
      (∃ t v, w = t :: v ∧ isOperator t.kind ∧ Derives [.phrase p] v) ∨ Derives [.phrase q] w)
    (split' : ∀ w kind, Awaits [.phrase p] w kind ↔
      (∃ t v, w = t :: v ∧ isOperator t.kind ∧ Awaits [.phrase p] v kind) ∨
        Awaits [.phrase q] w kind)
    (ne : q ≠ .statements) (first : ∀ {t}, q.Begins t → isOperator t.kind = false) :
    (underOperator isOperator operand bare).AsksFor size [.phrase p] :=
  .within split split' (.phrase ne fun t begins operator => by simp [first begins] at operator)
    (fun _ _ _ => operands.bind recognizes (.nil fun _ _ => trivial) .nil fun _ => .pure) bares

/-- Operands that are joined and pinned ask at once for what they are pinned to. -/
theorem asks_pinned {level : Level} {rule : Rule n Tree} {kind : ParseError.Kind}
    (asksKind : (Phrase.joined level).asks = some kind)
    (h : rule.AsksFor size [.phrase level.operand, .part (.furtherOperands level)]) :
    (pin kind rule).AsksFor size [.phrase (.joined level)] := by
  have atOnce : ∃ kind, level.operand.asks = some kind := by
    cases level <;> exact ⟨_, rfl⟩
  obtain ⟨kind', asks⟩ := atOnce
  have only : productions (.phrase (.joined level)) =
      [[.phrase level.operand, .part (.furtherOperands level)]] :=
    rfl
  refine (h.congr (fun w => by simp [derives_only only]) fun _ _ => Iff.rfl).pin
    ⟨kind', .here asks⟩ fun w kind' => ?_
  rw [awaits_part_iff, begun_iff (by simp)]
  simp [productions, Part.asks, asksKind, eq_comm, -Phrase.asks]

theorem Asks.assignmentOr (h : g.Asks) (recognizes : g.Recognizes) {other : Rule (n + 1) Tree}
    (others : other.AsksFor size [.phrase (.joined .conditions)]) :
    (g.assignmentOr other).AsksFor size [.phrase .expression] := by
  refine .within (a := [.kind .identifier, .kind .assign, .phrase .expression]) (fun w => ?_)
    (fun w kind => ?_) (.phrase (by decide) fun t begins isLet => ?_)
    (fun _ _ _ => .expectThen fun _ => .expectThen fun _ =>
      h.expression.bind recognizes.expression (.nil fun _ _ => trivial) .nil fun _ => .pure) others
  · rw [derives_either rfl]
    simp
  · rw [awaits_productions_iff (by decide)
      (by simp [productions, awaits_part_nil_iff, Part.asks])]
    simp [productions]
  · exact Token.BeginsComparison.not_isKeyword_letWord begins isLet

theorem awaits_factor_iff {w : List Token} {kind : ParseError.Kind} :
    Awaits [.phrase .factor] w kind ↔
      (∃ t v, w = t :: v ∧ isAdditive t.kind ∧ Awaits [.phrase .factor] v kind) ∨
        Awaits [.phrase .call] w kind := by
  rw [awaits_productions_iff (by decide)
    (by simp [productions, awaits_part_nil_iff, Part.asks])]
  simp only [productions, List.mem_cons, List.not_mem_nil, or_false, exists_eq_or_imp,
    exists_eq_left, awaits_kind_iff, isAdditive, Bool.or_eq_true, beq_iff_eq]
  constructor
  · rintro (⟨t, v, rfl, isPlus, asks⟩ | ⟨t, v, rfl, isMinus, asks⟩ | asks)
    · exact .inl ⟨t, v, rfl, .inl isPlus, asks⟩
    · exact .inl ⟨t, v, rfl, .inr isMinus, asks⟩
    · exact .inr asks
  · rintro (⟨t, v, rfl, isPlus | isMinus, asks⟩ | asks)
    · exact .inl ⟨t, v, rfl, isPlus, asks⟩
    · exact .inr (.inl ⟨t, v, rfl, isMinus, asks⟩)
    · exact .inr (.inr asks)

theorem awaits_comparison_iff {w : List Token} {kind : ParseError.Kind} :
    Awaits [.phrase .comparison] w kind ↔
      (∃ t v, w = t :: v ∧ (t.kind == .not) ∧ Awaits [.phrase .comparison] v kind) ∨
        Awaits [.phrase (.joined .relations)] w kind := by
  rw [awaits_productions_iff (by decide)
    (by simp [productions, awaits_part_nil_iff, Part.asks])]
  simp [productions]

theorem Asks.next (h : g.Asks) (recognizes : g.Recognizes) : g.next.Asks := by
  have factor {size} : g.next.factor.AsksFor size [.phrase .factor] :=
    asks_underOperator h.factor recognizes.factor (h.call recognizes)
      (fun _ => derives_factor_iff) (fun _ _ => awaits_factor_iff) (by decide)
      fun begins => Token.BeginsAtom.not_isAdditive begins
  have products {size} : (Rule.binaryChain isMultiplicative g.next.factor).AsksFor size
      [.phrase (.joined .products)] :=
    .ofOnly rfl (by decide)
      (by simp [awaits_part_nil_iff, Part.asks, Level.operand, not_derives_phrase_nil])
      (.binaryChain Level.products.test_iff factor recognizes.next.factor)
  have arithmetic {size} : g.next.arithmetic.AsksFor size [.phrase (.joined .sums)] :=
    .ofOnly rfl (by decide)
      (by simp [awaits_part_nil_iff, Part.asks, Level.operand, not_derives_phrase_nil])
      (.binaryChain Level.sums.test_iff products
        (.binaryChain Level.products.test_iff recognizes.next.factor))
  have comparison {size} : g.next.comparison.AsksFor size [.phrase .comparison] := by
    rw [next_comparison]
    exact asks_underOperator h.comparison recognizes.comparison
      (asks_pinned rfl
        (.binaryChain Level.relations.test_iff arithmetic recognizes.next.arithmetic))
      (fun _ => derives_comparison_iff) (fun _ _ => awaits_comparison_iff) (by decide)
      fun begins => beq_eq_false_iff_ne.mpr (Token.BeginsFactor.kind_ne_not begins)
  exact ⟨h.assignmentOr recognizes (asks_pinned rfl
    (.binaryChain Level.conditions.test_iff comparison recognizes.next.comparison)), comparison,
    arithmetic, factor⟩

/-- The rules for any number of tokens fail for lack of a part with what is asked for. -/
theorem asks_upTo (n : Nat) : (upTo n).Asks := by
  induction n with
  | zero =>
    have never {size} {rule : Rule 0 Tree} {body : List Symbol} : rule.AsksFor size body :=
      ⟨fun _ _ fails => absurd fails.lt (Nat.not_lt_zero _),
        fun _ room => absurd room (Nat.not_lt_zero _)⟩
    exact ⟨never, never, never, never⟩
  | succ n h => exact h.next (recognizes_upTo n)

/-! ### Scripts -/

/-- A script that fails for lack of a part fails with what the tokens read ask for, and with nothing
else. -/
theorem awaits_iff_of_missing {c : Cursor} {f : Failure} {kind : ParseError.Kind}
    (failed : script c = .error f) (missing : f.cause = .missing kind) (isPart : kind.isPart) :
    ∃ w, c.Reads w f.cursor ∧
      ∀ kind', kind = kind' ↔ Awaits [.phrase .statements] w kind' := by
  have lt := Nat.lt_succ_self c.left
  obtain ⟨cause, d⟩ := f
  obtain rfl : cause = .missing kind := missing
  have recognizes := recognizes_upTo (c.left + 1)
  have asks : (Rule.statements (upTo (c.left + 1)).expression).AsksFor (c.left + 1)
      [.phrase .statements] :=
    .statements (asks_upTo _).expression recognizes.expression recognizes.refuses
  rcases script_eq_error_iff.mp failed with fails | ⟨_, _, -, -, eq⟩
  · obtain ⟨w, reads, awaits⟩ := asks.asked lt isPart fails
    refine ⟨w, reads, fun kind' => ⟨fun same => same ▸ awaits, fun awaits' => ?_⟩⟩
    have stuck : d.Stuck fun v => Derives [.phrase .statements] (w ++ v) := fun t v head =>
      not_derives_of_missing failed rfl reads (v := t :: v) (by simp [head])
    rcases asks.asks lt lt reads awaits' stuck with fails' | ⟨initial, d', fails', -⟩
    · cases fails.unique fails'
      rfl
    · cases fails.unique fails'
  · cases eq
    cases isPart

end Grammar

/-- An error that a part is missing is of the kind that the last token read asks for: a script can
begin with the tokens read in such a way that the last of them is a cue for this kind, and in no way
is it a cue for another. -/
theorem Tree.kind_ofTokens {tokens : List Token} {e : ParseError}
    (failed : Tree.ofTokens tokens = .error e) (isPart : e.kind.isPart) :
    ∃ f, Grammar.script (Cursor.ofTokens tokens) = .error f ∧ e = f.toError ∧
      let read := tokens.take f.cursor.passed.length
      (∀ kind, e.kind = kind ↔ ∃ cue : Cue, cue.Ends read ∧ cue.asks = kind) ∧
        ∀ cue : Cue, cue.Ends read → read.getLast?.map Token.kind ∈ cue.kinds := by
  rw [Tree.ofTokens] at failed
  cases parsed : Grammar.script (Cursor.ofTokens tokens) with
  | ok tree =>
    rw [parsed] at failed
    cases failed
  | error f =>
    rw [parsed] at failed
    obtain rfl : f.toError = e := Except.error.inj failed
    refine ⟨f, rfl, rfl, ?_, fun cue ends => ends.kind_mem⟩
    cases cause : f.cause with
    | missing kind =>
      have kind_eq : f.toError.kind = kind := by rw [Failure.toError, cause]
      rw [kind_eq] at isPart ⊢
      obtain ⟨w, reads, settled⟩ := Grammar.awaits_iff_of_missing parsed cause isPart
      rw [reads.ofTokens.1]
      intro kind'
      rw [settled, awaits_statements_iff]
    | notAssignment initial =>
      have kind_eq : f.toError.kind = .expected .letAssignment := by rw [Failure.toError, cause]
      rw [kind_eq] at isPart
      cases isPart

theorem Tree.kind_ofTokens_header :
    let tokens := (Source.tokens ⟨"", "for (let i = 0, i < 3, )"⟩).toOption.getD []
    ∃ e, Tree.ofTokens tokens = .error e ∧ e.kind = .expectedAtom ∧
      ∃ cue : Cue, cue.Ends (tokens.take 11) ∧ cue.asks = .expectedAtom ∧
        some .comma ∈ cue.kinds := by
  intro tokens
  have fails : ((Tree.ofTokens tokens).map fun _ => ()).mapError (·.kind) =
      .error .expectedAtom := by
    decide +kernel
  have number : ((Grammar.script (Cursor.ofTokens tokens)).map fun _ => ()).mapError
      (·.cursor.passed.length) = .error 11 := by
    decide +kernel
  cases failed : Tree.ofTokens tokens with
  | ok tree =>
    rw [failed] at fails
    cases fails
  | error e =>
    rw [failed] at fails
    have kind : e.kind = .expectedAtom := Except.error.inj fails
    obtain ⟨f, parsed, -, settled, fits⟩ := Tree.kind_ofTokens failed (by rw [kind]; rfl)
    rw [parsed] at number
    have read : f.cursor.passed.length = 11 := Except.error.inj number
    rw [read] at settled fits
    obtain ⟨cue, ends, asks⟩ := (settled _).mp kind
    have last : (tokens.take 11).getLast?.map Token.kind = some .comma := by decide +kernel
    exact ⟨e, rfl, kind, cue, ends, asks, last ▸ fits cue ends⟩

end Scriptlet
