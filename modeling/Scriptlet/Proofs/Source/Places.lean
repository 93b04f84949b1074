import Mathlib.Data.List.Induction
import Mathlib.Data.String.Basic
import Scriptlet.Proofs.Source.Content
import Scriptlet.Proofs.Syntax.Locating

/-!
# Places and the text

A position counts bytes, lines and columns while characters are read. It is faithful if these counts
are those of the text in front of it, taken by the number of bytes alone. Whatever has a place in a
source has a faithful one, since places are only made by reading and then handed on: from lexemes to
tokens, from tokens to trees and to errors.

Bytes also put places in order. Tokens stand one behind the other, and so the trees that they spell
are nested as trees should be.

## Main definitions

* `Position.Faithful` — a position agrees with the text in front of it
* `Source.Place` — a place that is reached by reading a source from its beginning
* `Token.Ordered` — tokens that stand one behind the other
* `Tree.places` — the places that a node of a tree names
* `Tree.Nests` — a tree reaches over some tokens, and around its parts

## Main results

* `Source.faithful_places` — all positions in tokens, trees and errors are faithful
* `Source.nests_tree` — the trees of a source are nested
-/

namespace Scriptlet

/-! ### The text in front of a place -/

/-- The characters in the first bytes of a source. -/
def Source.before (s : Source) (index : Nat) : List Char :=
  (String.Pos.Raw.extract s.text 0 ⟨index⟩).toList

namespace Position

/-- A position lies in this source, between two characters of it, and its line and column are those
that the text in front of it leads to. -/
structure Faithful (s : Source) (p : Position) : Prop where
  source : p.source = s
  le_size : p.index ≤ s.text.utf8ByteSize
  boundary : String.Pos.Raw.IsValid s.text ⟨p.index⟩
  line : p.line = 1 + (s.before p.index).count '\n'
  column : p.column = 1 + ((s.before p.index).reverse.takeWhile (· != '\n')).length

theorem advanceAll_index (p : Position) (cs : List Char) :
    (p.advanceAll cs).index = p.index + String.utf8Len cs := by
  induction cs generalizing p with
  | nil => rfl
  | cons c cs ih =>
    rw [advanceAll_cons, ih, advance_index, String.utf8Len_cons]
    omega

theorem start_advanceAll_index (s : Source) (cs : List Char) :
    ((start s).advanceAll cs).index = String.utf8Len cs := by
  rw [advanceAll_index]
  exact Nat.zero_add _

theorem index_lt_advanceAll (p : Position) {cs : List Char} (ne : cs ≠ []) :
    p.index < (p.advanceAll cs).index := by
  obtain ⟨c, cs, rfl⟩ := List.exists_cons_of_ne_nil ne
  have := c.utf8Size_pos
  rw [advanceAll_index, String.utf8Len_cons]
  omega

theorem advanceAll_line (p : Position) (cs : List Char) :
    (p.advanceAll cs).line = p.line + cs.count '\n' := by
  induction cs generalizing p with
  | nil => rfl
  | cons c cs ih =>
    rw [advanceAll_cons, ih, List.count_cons, advance]
    by_cases feed : c = '\n'
    · simp only [feed, if_true, beq_self_eq_true]
      omega
    · simp [feed]

/-- Columns begin anew behind each line feed. -/
theorem advanceAll_column (s : Source) (cs : List Char) :
    ((start s).advanceAll cs).column = 1 + (cs.reverse.takeWhile (· != '\n')).length := by
  induction cs using List.reverseRecOn with
  | nil => rfl
  | append_singleton cs c ih =>
    rw [advanceAll_append, advanceAll_cons, advanceAll_nil, advance, List.reverse_concat]
    by_cases feed : c = '\n'
    · simp [feed]
    · simp [feed, ih]
      omega

end Position

/-- A place that is reached by reading a source from its beginning. -/
def Source.Place (s : Source) (p : Position) : Prop :=
  ∃ before after, s.text.toList = before ++ after ∧ p = (Position.start s).advanceAll before

namespace Source.Place

variable {s : Source} {p : Position}

/-- The first bytes of a text, as many as some of its characters take, are these characters. -/
theorem before_eq {before after : List Char} (text : s.text.toList = before ++ after) :
    s.before (String.utf8Len before) = before := by
  have extract := String.extract_of_valid [] before after
  rw [List.nil_append, ← text, String.ofList_toList, String.utf8Len_nil, Nat.zero_add] at extract
  exact (congrArg String.toList extract).trans String.toList_ofList

/-- The counts kept while reading are those of the text that has been read. -/
theorem faithful (h : s.Place p) : p.Faithful s := by
  obtain ⟨before, after, text, rfl⟩ := h
  have index := Position.start_advanceAll_index s before
  -- what has been read is a whole number of characters
  have boundary : String.Pos.Raw.IsValid s.text ⟨String.utf8Len before⟩ := by
    refine String.Pos.Raw.isValid_iff_exists_append.mpr
      ⟨String.ofList before, String.ofList after, ?_, ?_⟩
    · rw [← String.ofList_append, ← text, String.ofList_toList]
    · rw [String.rawEndPos_ofList]
  constructor
  case source => exact Position.advanceAll_source _ _
  case le_size => exact index ▸ boundary.le_utf8ByteSize
  case boundary => exact index ▸ boundary
  case line =>
    rw [Position.advanceAll_line, index, before_eq text]
    rfl
  case column => rw [Position.advanceAll_column, index, before_eq text]

theorem stop (s : Source) : s.Place s.stop := ⟨_, [], (List.append_nil _).symm, rfl⟩

end Source.Place

/-! ### Tokens and errors -/

section Places

variable {s : Source} {p : Position} {text before : List Char} {w : List Token}

/-- A text that stands in a source is cut at places of the source. -/
theorem Cut.places (h : Cut p text w) (whole : s.text.toList = before ++ text)
    (place : p = (Position.start s).advanceAll before) :
    ∀ t ∈ w, s.Place t.start ∧ s.Place t.stop := by
  induction h generalizing before with
  | nil => exact List.forall_mem_nil _
  | @blank p c text w _ _ ih =>
    have whole' : s.text.toList = before ++ [c] ++ text := by rw [whole, List.append_cons]
    refine ih whole' ?_
    rw [place, Position.advanceAll_append]
    rfl
  | @word p text word kind value w _ _ ih =>
    -- a word begins where what has been read ends, and ends where the rest begins
    have behind : p.advanceAll word = (Position.start s).advanceAll (before ++ word) := by
      rw [place, Position.advanceAll_append]
    have whole' : s.text.toList = before ++ word ++ text := by rw [whole, List.append_assoc]
    refine List.forall_mem_cons.mpr ⟨⟨⟨before, _, whole, place⟩, _, text, whole', behind⟩, ?_⟩
    exact ih whole' behind

/-- The tokens of a source stand at places of it. -/
theorem Source.places_of_tokens {tokens : List Token} (h : s.tokens = .ok tokens) :
    ∀ t ∈ tokens, s.Place t.start ∧ s.Place t.stop := by
  obtain ⟨w, cut, rfl⟩ := Token.readFrom_eq_ok_iff.mp h
  have stop := Place.stop s
  exact List.forall_mem_append.mpr
    ⟨cut.places (List.nil_append _).symm rfl, List.forall_mem_singleton.mpr ⟨stop, stop⟩⟩

/-- A character that begins no token stands at a place of the source. -/
theorem Source.places_of_lexError {e : LexError} (h : s.tokens = .error e) :
    s.Place e.start ∧ s.Place e.stop := by
  obtain ⟨before, c, rest, text, -, -, -, start, stop⟩ := Token.exists_of_readFrom_eq_error h
  refine ⟨⟨before, _, text, start⟩, before ++ (c :: rest).take e.fault.extent,
    (c :: rest).drop e.fault.extent, ?_, ?_⟩
  · rw [List.append_assoc, List.take_append_drop, text]
  · rw [stop, start, Position.advanceAll_append]

/-- An error of syntax concerns a part of the source between two of its places. -/
theorem Source.places_of_parseError {tokens : List Token} {e : ParseError}
    (h : s.tokens = .ok tokens) (failed : Tree.ofTokens tokens = .error e) :
    s.Place e.start ∧ s.Place e.stop := by
  have places := places_of_tokens h
  obtain ⟨w, cut, rfl⟩ := Token.readFrom_eq_ok_iff.mp h
  rw [Tree.ofTokens, cut.ofTokens_eq rfl] at failed
  obtain ⟨f, script, rfl⟩ := mapError_eq_error_iff.mp failed
  rcases Grammar.script_error_spans script with ⟨t, mem, start, stop⟩ | ⟨part, inside, spans⟩
  · rw [start, stop]
    exact places t mem
  · obtain ⟨⟨t, mem, start⟩, u, mem', stop⟩ := spans.exists_mem
    rw [start, stop]
    exact ⟨(places t (List.mem_append_left _ (inside.subset mem))).1,
      (places u (List.mem_append_left _ (inside.subset mem'))).2⟩

end Places

/-! ### Trees -/

/-- The places that a node of a tree names: where it begins and ends itself, and where the tokens
that it keeps do. -/
def Tree.places (node : Tree) : List Position :=
  node.start :: node.stop :: node.keptTokens.flatMap fun t => [t.start, t.stop]

/-- A tree names places of its tokens only. -/
theorem Tree.Covers.places {node : Tree} {part : List Token} {P : Position → Prop}
    (h : node.Covers part) (tokens : ∀ t ∈ part, P t.start ∧ P t.stop) :
    ∀ p ∈ node.places, P p := by
  obtain ⟨⟨t, mem, start⟩, u, mem', stop⟩ := h.spans.exists_mem
  refine List.forall_mem_cons.mpr ⟨start ▸ (tokens t mem).1, List.forall_mem_cons.mpr
    ⟨stop ▸ (tokens u mem').2, fun p isPlace => ?_⟩⟩
  obtain ⟨kept, isKept, own⟩ := List.mem_flatMap.mp isPlace
  have places := tokens kept (h.keeps.of_mem kept isKept)
  rcases List.mem_pair.mp own with rfl | rfl
  · exact places.1
  · exact places.2

/-- All positions that a source leads to are faithful to it: those of its tokens or of the error in
their place, and those of its tree or of the error in its place. -/
theorem Source.faithful_places (s : Source) :
    (∀ tokens, s.tokens = .ok tokens → ∀ t ∈ tokens, t.start.Faithful s ∧ t.stop.Faithful s) ∧
      (∀ e, s.tokens = .error e → e.start.Faithful s ∧ e.stop.Faithful s) ∧
      (∀ root, s.tree = .ok root →
        root.Throughout fun node => ∀ p ∈ node.places, p.Faithful s) ∧
      ∀ e, s.tree = .error e → e.start.Faithful s ∧ e.stop.Faithful s := by
  have ofTokens {tokens : List Token} (read : s.tokens = .ok tokens) :
      ∀ t ∈ tokens, t.start.Faithful s ∧ t.stop.Faithful s := fun t mem =>
    (places_of_tokens read t mem).imp Place.faithful Place.faithful
  have ofError {e : LexError} (failed : s.tokens = .error e) :
      e.start.Faithful s ∧ e.stop.Faithful s :=
    (places_of_lexError failed).imp Place.faithful Place.faithful
  refine ⟨fun _ => ofTokens, fun _ => ofError, fun root parsed => ?_, fun e failed => ?_⟩
  · obtain ⟨w, cut, spells⟩ := Source.tree_eq_ok_iff.mp parsed
    have read : s.tokens = .ok _ := Token.readFrom_eq_ok_iff.mpr ⟨w, cut, rfl⟩
    -- a node begins and ends with tokens, so that its places are theirs
    exact spells.covers.mono fun node ⟨part, inside, covers⟩ => covers.places fun t mem =>
      ofTokens read t (List.mem_append_left _ (inside.subset mem))
  · cases read : s.tokens with
    | error e' =>
      rw [Source.tree, read] at failed
      cases failed
      exact ofError read
    | ok tokens =>
      rw [tree_of_tokens read] at failed
      obtain ⟨e', atTokens, rfl⟩ := mapError_eq_error_iff.mp failed
      exact (places_of_parseError read atTokens).imp Place.faithful Place.faithful

theorem Source.faithful_places_string :
    (∃ root, Source.tree ⟨"", "\"é\n\"; f(1)"⟩ = .ok root ∧ root.statementCount = 2 ∧
      root.Throughout fun node => ∀ p ∈ node.places, p.Faithful ⟨"", "\"é\n\"; f(1)"⟩) ∧
    ∃ e, Source.tokens ⟨"", "\"é\n\" & y"⟩ = .error e ∧
      e.start = ⟨⟨"", "\"é\n\" & y"⟩, 6, 2, 3⟩ ∧ e.stop.Faithful ⟨"", "\"é\n\" & y"⟩ := by
  obtain ⟨root, parsed, two⟩ := Source.exists_tree (s := ⟨"", "\"é\n\"; f(1)"⟩)
    (p := fun root => root.statementCount == 2) (by decide +kernel)
  have failed : Source.tokens ⟨"", "\"é\n\" & y"⟩ = .error ⟨.expectedCharacter '&' '&',
      ⟨⟨"", "\"é\n\" & y"⟩, 6, 2, 3⟩, ⟨⟨"", "\"é\n\" & y"⟩, 8, 2, 5⟩⟩ := by
    decide +kernel
  exact ⟨⟨root, parsed, beq_iff_eq.mp two, (Source.faithful_places _).2.2.1 root parsed⟩, _, failed,
    rfl, ((Source.faithful_places _).2.1 _ failed).2⟩

/-! ### Order -/

/-- Tokens that stand one behind the other, each over some bytes at least. -/
structure Token.Ordered (w : List Token) : Prop where
  nonempty : ∀ t ∈ w, t.start.index < t.stop.index
  pairwise : w.Pairwise fun t u => t.stop.index ≤ u.start.index

namespace Token.Ordered

variable {u v w : List Token} {start stop : Position}

theorem sublist (h : Ordered w) (sub : u.Sublist w) : Ordered u :=
  ⟨fun t mem => h.nonempty t (sub.subset mem), h.pairwise.sublist sub⟩

/-- Tokens lie between the beginning of the first and the end of the last. -/
theorem between (h : Ordered w) (spans : Spans w start stop) :
    ∀ t ∈ w, start.index ≤ t.start.index ∧ t.stop.index ≤ stop.index := by
  intro t mem
  obtain ⟨first, head, rfl⟩ := Option.map_eq_some_iff.mp spans.start_eq
  obtain ⟨last, tail, rfl⟩ := Option.map_eq_some_iff.mp spans.stop_eq
  constructor
  · obtain ⟨rest, rfl⟩ := List.head?_eq_some_iff.mp head
    rcases List.mem_cons.mp mem with rfl | mem
    · exact Nat.le_refl _
    · -- the first token ends before any other begins
      have before := h.nonempty first List.mem_cons_self
      exact Nat.le_trans (Nat.le_of_lt before) ((List.pairwise_cons.mp h.pairwise).1 t mem)
  · obtain ⟨front, rfl⟩ := List.getLast?_eq_some_iff.mp tail
    rcases List.mem_append.mp mem with mem | mem
    · -- any other token ends before the last begins
      have behind := (List.pairwise_append.mp h.pairwise).2.2 t mem last List.mem_cons_self
      have own := h.nonempty last (List.mem_append_right _ List.mem_cons_self)
      exact Nat.le_trans behind (Nat.le_of_lt own)
    · rw [List.mem_singleton.mp mem]

end Token.Ordered

/-- A text is cut into tokens that stand one behind the other, from its beginning on. -/
theorem Cut.ordered {p : Position} {text : List Char} {w : List Token} (h : Cut p text w) :
    Token.Ordered w ∧ ∀ t ∈ w, p.index ≤ t.start.index := by
  induction h with
  | nil => exact ⟨⟨List.forall_mem_nil _, .nil⟩, List.forall_mem_nil _⟩
  | @blank p c _ _ _ _ ih =>
    refine ⟨ih.1, fun t mem => ?_⟩
    have behind := ih.2 t mem
    rw [Position.advance_index] at behind
    omega
  | @word p text word kind value w longest _ ih =>
    obtain ⟨⟨nonempty, pairwise⟩, behind⟩ := ih
    have shorter := Position.index_lt_advanceAll p longest.fits.ne_nil
    refine ⟨⟨List.forall_mem_cons.mpr ⟨shorter, nonempty⟩, List.pairwise_cons.mpr
      ⟨behind, pairwise⟩⟩, List.forall_mem_cons.mpr ⟨Nat.le_refl _, fun t mem => ?_⟩⟩
    exact Nat.le_trans (Nat.le_of_lt shorter) (behind t mem)

namespace Tree

/-- A node of a tree begins where one of these tokens does and ends behind that, where one of them
does. Its parts lie in between, one behind the other. -/
structure Nests (w : List Token) (node : Tree) : Prop where
  nonempty : node.start.index < node.stop.index
  start_mem : ∃ t ∈ w, node.start = t.start
  stop_mem : ∃ t ∈ w, node.stop = t.stop
  within : ∀ child ∈ node.children,
    node.start.index ≤ child.start.index ∧ child.stop.index ≤ node.stop.index
  inTurn : node.children.Pairwise fun child next => child.stop.index ≤ next.start.index

variable {w part : List Token} {tree : Tree} {trees : List Tree}

theorem InTurn.within (h : InTurn w trees) : ∀ tree ∈ trees, tree.Within w := by
  induction h with
  | nil => exact List.forall_mem_nil _
  | @cons u v tree others first _ ih =>
    exact List.forall_mem_cons.mpr ⟨first.mono (List.prefix_append u v).isInfix, fun tree mem =>
      (ih tree mem).mono (List.suffix_append u v).isInfix⟩

/-- Trees in turn are in order where the tokens are. -/
theorem InTurn.pairwise (h : InTurn w trees) (ordered : Token.Ordered w) :
    trees.Pairwise fun tree next => tree.stop.index ≤ next.start.index := by
  induction h with
  | nil => exact .nil
  | @cons u v tree others first rest ih =>
    have ordered' := ordered.sublist (List.sublist_append_right u v)
    refine List.pairwise_cons.mpr ⟨fun next mem => ?_, ih ordered'⟩
    obtain ⟨part, inside, spans⟩ := first
    obtain ⟨part', inside', spans'⟩ := rest.within next mem
    obtain ⟨-, t, last, stop⟩ := spans.exists_mem
    obtain ⟨⟨t', head, start⟩, -⟩ := spans'.exists_mem
    have behind := (List.pairwise_append.mp ordered.pairwise).2.2
    rw [stop, start]
    exact behind t (inside.subset last) t' (inside'.subset head)

/-- What covers tokens in order is nested. -/
theorem Covers.nests (h : tree.Covers part) (ordered : Token.Ordered w) (inside : part <:+: w) :
    tree.Nests w := by
  have ordered' := ordered.sublist inside.sublist
  have between := ordered'.between h.spans
  -- the node begins with one of the tokens and ends with one
  obtain ⟨⟨first, mem, start⟩, last, mem', stop⟩ := h.spans.exists_mem
  constructor
  case nonempty =>
    rw [start]
    exact Nat.lt_of_lt_of_le (ordered'.nonempty first mem) (between first mem).2
  case start_mem => exact ⟨first, inside.subset mem, start⟩
  case stop_mem => exact ⟨last, inside.subset mem', stop⟩
  case within =>
    intro child isChild
    obtain ⟨own, inside', spans⟩ := h.children.within child isChild
    obtain ⟨⟨t, mem, start⟩, u, mem', stop⟩ := spans.exists_mem
    rw [start, stop]
    exact ⟨(between t (inside'.subset mem)).1, (between u (inside'.subset mem')).2⟩
  case inTurn => exact h.children.pairwise ordered'

end Tree

/-- A tree covers the tokens of its source from the first to the last. In it each part reaches over
some of them, and around its own parts, which stand one behind the other in the order of the
source. -/
theorem Source.nests_tree {s : Source} {root : Tree} (h : s.tree = .ok root) :
    ∃ w final, s.tokens = .ok (w ++ [final]) ∧ (∀ t ∈ w, t.kind ≠ .endOfInput) ∧
      final.kind = .endOfInput ∧ Spans w root.start root.stop ∧ root.Throughout (Tree.Nests w) := by
  obtain ⟨w, cut, spells⟩ := Source.tree_eq_ok_iff.mp h
  have spans : Spans w root.start root.stop := by
    cases spells with
    | statements _ _ _ spans => exact spans
  exact ⟨w, _, Token.readFrom_eq_ok_iff.mpr ⟨w, cut, rfl⟩, cut.kind_ne, rfl, spans,
    spells.covers.mono fun node ⟨part, inside, covers⟩ => covers.nests cut.ordered.1 inside⟩

theorem Source.nests_tree_loop : ∃ w final root,
    Source.tree ⟨"", ";for (let i = 0, i < 3, (i + 1)) \x7b f(i) \x7d\n"⟩ = .ok root ∧
      Source.tokens ⟨"", ";for (let i = 0, i < 3, (i + 1)) \x7b f(i) \x7d\n"⟩ = .ok (w ++ [final]) ∧
      root.statementCount = 1 ∧ Spans w root.start root.stop ∧
      root.Throughout (Tree.Nests w) := by
  obtain ⟨root, parsed, one⟩ := Source.exists_tree
    (s := ⟨"", ";for (let i = 0, i < 3, (i + 1)) \x7b f(i) \x7d\n"⟩)
    (p := fun root => root.statementCount == 1) (by decide +kernel)
  obtain ⟨w, final, tokens, -, -, spans, nests⟩ := Source.nests_tree parsed
  exact ⟨w, final, root, parsed, tokens, beq_iff_eq.mp one, spans, nests⟩

end Scriptlet
