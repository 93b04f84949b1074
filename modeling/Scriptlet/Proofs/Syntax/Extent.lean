import Scriptlet.Proofs.Syntax.Phrase
import Scriptlet.Tree.Parts

/-!
# The tokens that trees cover

A tree reaches from where one token begins to where another ends. What it covers are these two
and the tokens between them. Brackets around an expression are not covered, since they leave no
trace in the tree, and so a tree may cover less than the word that spells it; but the parts of the
tree are covered with it, each by tokens of its own, and so are the tokens that it keeps.

## Main definitions

* `Tree.keptTokens` — the tokens that a node keeps
* `Tree.Keeps` — the tokens that a node keeps are of the right kind and have some property
* `Tree.InTurn` — trees lie in a word one behind the other
* `Tree.Covers` — a tree covers these tokens, with its parts in turn and the tokens that it keeps
* `Tree.Laid` — trees lie in turn, and they and their parts cover tokens of the word

## Main results

* `Spells.covers` — a tree and all its parts cover tokens of the word that spells the tree
-/

namespace Scriptlet

/-! ### Places in a word -/

/-- A word that begins with one that reaches from some place, and ends with one that reaches to some
place, reaches from the one to the other. -/
theorem Spans.through {u v : List Token} {start start' stop stop' : Position}
    (h : Spans u start stop) (m : List Token) (h' : Spans v start' stop') :
    Spans (u ++ m ++ v) start stop' := by
  have first := h.start_eq
  have last := h'.stop_eq
  refine ⟨?_, ?_⟩
  · cases u with
    | nil => cases first
    | cons t u => exact first
  · cases v with
    | nil => cases last
    | cons t v => rwa [List.getLast?_append, List.getLast?_eq_some_getLast (List.cons_ne_nil t v),
        Option.some_or, ← List.getLast?_eq_some_getLast]

theorem Spans.single (t : Token) : Spans [t] t.start t.stop := ⟨rfl, rfl⟩

/-- A word reaches from where one of its tokens begins to where one of them ends. -/
theorem Spans.exists_mem {w : List Token} {start stop : Position} (h : Spans w start stop) :
    (∃ t ∈ w, start = t.start) ∧ ∃ t ∈ w, stop = t.stop := by
  obtain ⟨t, head, start_eq⟩ := Option.map_eq_some_iff.mp h.start_eq
  obtain ⟨u, last, stop_eq⟩ := Option.map_eq_some_iff.mp h.stop_eq
  exact ⟨⟨t, List.mem_of_mem_head? head, start_eq.symm⟩, u, List.mem_of_getLast? last, stop_eq.symm⟩

namespace Tree

/-- The tokens that a node of a tree keeps are of the kinds that they should be, and have a
property. -/
def Keeps (P : Token → Prop) : Tree → Prop
  | number t => (t.kind = .int ∨ t.kind = .float) ∧ P t
  | string t => t.kind = .string ∧ P t
  | reference t | assignment _ t _ | forLoop _ t _ _ _ _ _ _ => t.kind = .identifier ∧ P t
  | binary _ operator _ => (∃ level : Level, operator.kind ∈ level.operators) ∧ P operator
  | unary operator _ => operator.kind ∈ [.plus, .minus, .not] ∧ P operator
  | function name parameters _ _ _ =>
    (name.kind = .identifier ∧ P name) ∧ ∀ t ∈ parameters, t.kind = .identifier ∧ P t
  | conditional _ _ _ | whileLoop _ _ _ _ | call _ _ _ | sequence _ _ _ => True

/-- The tokens that a node of a tree keeps. -/
def keptTokens : Tree → List Token
  | number t | string t | reference t | assignment _ t _ | forLoop _ t _ _ _ _ _ _ | binary _ t _
  | unary t _ => [t]
  | function name parameters _ _ _ => name :: parameters
  | conditional _ _ _ | whileLoop _ _ _ _ | call _ _ _ | sequence _ _ _ => []

/-- A tree reaches over some of the tokens of a word. -/
def Within (w : List Token) (tree : Tree) : Prop :=
  ∃ part, part <:+: w ∧ Spans part tree.start tree.stop

/-- Trees lie in a word one behind the other. -/
inductive InTurn : List Token → List Tree → Prop
  | nil {w : List Token} : InTurn w []
  | cons {u v : List Token} {tree : Tree} {others : List Tree} :
    tree.Within u → InTurn v others → InTurn (u ++ v) (tree :: others)

/-- A tree covers these tokens: it reaches from the first to the last, and in them lie its parts in
turn and the tokens that it keeps. -/
structure Covers (tree : Tree) (part : List Token) : Prop where
  spans : Spans part tree.start tree.stop
  children : InTurn part tree.children
  keeps : tree.Keeps (· ∈ part)

/-- A tree covers some of the tokens of a word. -/
def CoversIn (w : List Token) (tree : Tree) : Prop := ∃ part, part <:+: w ∧ tree.Covers part

/-- Trees lie in turn in a word, and they and all their parts cover tokens of it. -/
structure Laid (w : List Token) (trees : List Tree) : Prop where
  turn : InTurn w trees
  covers : ∀ tree ∈ trees, tree.Throughout (CoversIn w)

variable {tree : Tree} {trees others : List Tree} {u v w : List Token} {P Q : Token → Prop}

theorem Keeps.mono (h : tree.Keeps P) (imp : ∀ t, P t → Q t) : tree.Keeps Q := by
  cases tree <;> simp_all [Keeps]

/-- Every token that a node keeps has the property. -/
theorem Keeps.of_mem (h : tree.Keeps P) : ∀ t ∈ tree.keptTokens, P t := by
  cases tree with
  | conditional | whileLoop | call | sequence => exact List.forall_mem_nil _
  | function name parameters body start stop =>
    exact List.forall_mem_cons.mpr ⟨h.1.2, fun t mem => (h.2 t mem).2⟩
  | _ => exact List.forall_mem_singleton.mpr h.2

/-- What reaches over tokens of a part reaches over tokens of the whole. -/
theorem Within.mono (h : tree.Within u) (sub : u <:+: w) : tree.Within w := by
  obtain ⟨part, inside, spans⟩ := h
  exact ⟨part, inside.trans sub, spans⟩

theorem CoversIn.within (h : tree.CoversIn w) : tree.Within w := by
  obtain ⟨part, inside, covers⟩ := h
  exact ⟨part, inside, covers.spans⟩

/-- What is covered in a word is covered in any word around it. -/
theorem Throughout.around (h : tree.Throughout (CoversIn u)) (sub : u <:+: w) :
    tree.Throughout (CoversIn w) :=
  h.mono fun _ ⟨part, inside, covers⟩ => ⟨part, inside.trans sub, covers⟩

namespace InTurn

theorem single (h : tree.Within w) : InTurn w [tree] := by
  have turn : InTurn (w ++ []) [tree] := .cons h .nil
  rwa [List.append_nil] at turn

theorem behind (h : InTurn w trees) (v : List Token) : InTurn (v ++ w) trees := by
  cases h with
  | nil => exact .nil
  | @cons u w tree others within rest =>
    rw [← List.append_assoc]
    exact .cons (within.mono (List.suffix_append v u).isInfix) rest

theorem append (h : InTurn w trees) (h' : InTurn v others) : InTurn (w ++ v) (trees ++ others) := by
  induction h with
  | nil => exact h'.behind _
  | cons within _ ih =>
    rw [List.append_assoc]
    exact .cons within ih

theorem mono (h : InTurn u trees) (sub : u <:+: w) : InTurn w trees := by
  obtain ⟨before, after, rfl⟩ := sub
  have turn := (h.behind before).append (.nil (w := after))
  rwa [List.append_nil] at turn

end InTurn

namespace Laid

theorem nil : Laid w [] := ⟨.nil, List.forall_mem_nil _⟩

theorem single (h : tree.Throughout (CoversIn w)) : Laid w [tree] :=
  ⟨.single h.self.within, List.forall_mem_singleton.mpr h⟩

theorem mono (h : Laid u trees) (sub : u <:+: w) : Laid w trees :=
  ⟨h.turn.mono sub, fun tree mem => (h.covers tree mem).around sub⟩

theorem behind (h : Laid w trees) (v : List Token) : Laid (v ++ w) trees :=
  h.mono (List.suffix_append v w).isInfix

theorem append (h : Laid w trees) (h' : Laid v others) : Laid (w ++ v) (trees ++ others) := by
  refine ⟨h.turn.append h'.turn, List.forall_mem_append.mpr ⟨?_, ?_⟩⟩
  · exact (h.mono (List.prefix_append w v).isInfix).covers
  · exact (h'.behind w).covers

end Laid

/-! ### Nodes that begin or end where a part does -/

/-- An operator covers what stands between it and the end of its operand. -/
theorem covers_unary {sign : Token} {operand : Tree} (kind : sign.kind ∈ [.plus, .minus, .not])
    (h : operand.Throughout (CoversIn w)) :
    (unary sign operand).Throughout (CoversIn (sign :: w)) := by
  have around : operand.Throughout (CoversIn (sign :: w)) :=
    h.around (List.suffix_cons sign w).isInfix
  obtain ⟨part, ⟨before, after, rfl⟩, covers⟩ := h.self
  have turn : InTurn part [operand] := .single ⟨part, List.infix_rfl, covers.spans⟩
  have own : (unary sign operand).Covers (sign :: before ++ part) :=
    ⟨(Spans.single sign).through before covers.spans, turn.behind (sign :: before), kind, by simp⟩
  exact .intro ⟨_, ⟨[], after, by simp⟩, own⟩ (List.forall_mem_singleton.mpr around)

/-- Operands cover with their operator what stands between the beginning of the first and the end
of the second. -/
theorem covers_binary {operator : Token} {left right : Tree} {level : Level}
    (kind : operator.kind ∈ level.operators) (h : left.Throughout (CoversIn w))
    (h' : right.Throughout (CoversIn v)) :
    (binary left operator right).Throughout (CoversIn (w ++ operator :: v)) := by
  have around : left.Throughout (CoversIn (w ++ operator :: v)) :=
    h.around (List.prefix_append w _).isInfix
  have around' : right.Throughout (CoversIn (w ++ operator :: v)) :=
    h'.around ⟨w ++ [operator], [], by simp⟩
  -- the operands may stand in parentheses, which no part of them covers
  obtain ⟨part, ⟨before, after, rfl⟩, covers⟩ := h.self
  obtain ⟨part', ⟨before', after', rfl⟩, covers'⟩ := h'.self
  have turn : InTurn part [left] := .single ⟨part, List.infix_rfl, covers.spans⟩
  have turn' : InTurn part' [right] := .single ⟨part', List.infix_rfl, covers'.spans⟩
  have own : (binary left operator right).Covers
      (part ++ (after ++ operator :: before') ++ part') :=
    ⟨covers.spans.through _ covers'.spans, (turn.append .nil).append turn', ⟨level, kind⟩, by simp⟩
  exact .intro ⟨_, ⟨before, after', by simp⟩, own⟩
    (List.forall_mem_cons.mpr ⟨around, List.forall_mem_singleton.mpr around'⟩)

/-- An assignment covers what stands between its word and the end of the value. -/
theorem covers_assignment {word name equals : Token} {value : Tree}
    (kind : name.kind = .identifier) (h : value.Throughout (CoversIn w)) :
    (assignment word.start name value).Throughout (CoversIn (word :: name :: equals :: w)) := by
  have around : value.Throughout (CoversIn (word :: name :: equals :: w)) :=
    h.around ⟨[word, name, equals], [], by simp⟩
  obtain ⟨part, ⟨before, after, rfl⟩, covers⟩ := h.self
  have turn : InTurn part [value] := .single ⟨part, List.infix_rfl, covers.spans⟩
  have own : (assignment word.start name value).Covers
      (word :: name :: equals :: before ++ part) :=
    ⟨(Spans.single word).through (name :: equals :: before) covers.spans,
      turn.behind (word :: name :: equals :: before), kind, by simp⟩
  exact .intro ⟨_, ⟨[], after, by simp⟩, own⟩ (List.forall_mem_singleton.mpr around)

/-- A call covers what stands between the beginning of the callee and the bracket that closes the
arguments. -/
theorem covers_call {opening closing : Token} {callee : Tree} {arguments : List Tree}
    (h : callee.Throughout (CoversIn w)) (h' : Laid v arguments) :
    (call callee arguments closing.stop).Throughout
      (CoversIn (w ++ opening :: v ++ [closing])) := by
  have inside : w ++ opening :: v <:+: w ++ opening :: v ++ [closing] :=
    (List.prefix_append _ _).isInfix
  have laid : Laid (w ++ opening :: v) (callee :: arguments) :=
    (Laid.single h).append (h'.behind [opening])
  -- the callee may stand in parentheses, which are left out in front
  obtain ⟨part, ⟨before, after, rfl⟩, covers⟩ := h.self
  have turn : InTurn (part ++ (after ++ ([opening] ++ v))) ([callee] ++ arguments) :=
    (InTurn.single ⟨part, List.infix_rfl, covers.spans⟩).append
      ((h'.turn.behind [opening]).behind after)
  have own : (call callee arguments closing.stop).Covers
      (part ++ (after ++ ([opening] ++ v)) ++ [closing]) := by
    refine ⟨covers.spans.through _ (.single closing), ?_, trivial⟩
    rw [children_call]
    exact turn.mono (List.prefix_append _ _).isInfix
  refine .intro ⟨_, ⟨before, [], by simp⟩, own⟩ ?_
  rw [children_call]
  exact (laid.mono inside).covers

/-! ### Nodes that reach over a whole word -/

/-- A node that reaches over a whole word covers it, where its parts lie in turn. -/
theorem covers_whole (spans : Spans w tree.start tree.stop) (laid : Laid w tree.children)
    (keeps : tree.Keeps (· ∈ w)) : tree.Throughout (CoversIn w) :=
  .intro ⟨w, List.infix_rfl, spans, laid.turn, keeps⟩ laid.covers

theorem covers_leaf {t : Token} (start : tree.start = t.start) (stop : tree.stop = t.stop)
    (leaf : tree.children = []) (keeps : tree.Keeps (· ∈ [t])) :
    tree.Throughout (CoversIn [t]) := by
  have spans : Spans [t] tree.start tree.stop := start ▸ stop ▸ .single t
  exact covers_whole spans (leaf ▸ .nil) keeps

end Tree

/-! ### Names of parameters -/

theorem FurtherParameters.keeps {w names : List Token} (h : FurtherParameters w names) :
    ∀ t ∈ names, t.kind = .identifier ∧ t ∈ w := by
  induction h with
  | none => exact List.forall_mem_nil _
  | more _ kind _ ih =>
    refine List.forall_mem_cons.mpr ⟨⟨kind, by simp⟩, fun t mem => ?_⟩
    obtain ⟨kind, inside⟩ := ih t mem
    exact ⟨kind, by simp [inside]⟩

/-- The parameters of a function are identifiers between its parentheses. -/
theorem Parameters.keeps {w names : List Token} (h : Parameters w names) :
    ∀ t ∈ names, t.kind = .identifier ∧ t ∈ w := by
  cases h with
  | none => exact List.forall_mem_nil _
  | some kind further =>
    refine List.forall_mem_cons.mpr ⟨⟨kind, by simp⟩, fun t mem => ?_⟩
    obtain ⟨kind, inside⟩ := further.keeps t mem
    exact ⟨kind, by simp [inside]⟩

/-! ### Phrases -/

open Scriptlet.Tree in
mutual

/-- A tree and all its parts cover tokens of the word that spells the tree. -/
theorem Spells.covers {p : Phrase} {w : List Token} {tree : Tree} (h : Spells p w tree) :
    tree.Throughout (CoversIn w) := by
  match h with
  | .statements _ first others spans =>
    refine covers_whole spans ?_ trivial
    rw [children_sequence]
    exact ((Laid.single first.covers).behind _).append others.covers
  | .block _ body _ => exact body.covers.around ⟨[_], [_], rfl⟩
  | .assignment _ kind _ value => exact covers_assignment kind value.covers
  | .conditions inside => exact inside.covers
  | .negation kind operand => exact covers_unary (by simp [kind]) operand.covers
  | .relations inside => exact inside.covers
  | .operand inside => exact inside.covers
  | .join left kind right => exact covers_binary kind left.covers right.covers
  | .signed kind operand =>
    exact covers_unary (by rcases kind with kind | kind <;> simp [kind]) operand.covers
  | .unsigned inside => exact inside.covers
  | .uncalled inside => exact inside.covers
  | .call callee _ arguments _ => exact covers_call callee.covers arguments.covers
  | .number kind => exact covers_leaf rfl rfl rfl ⟨kind, List.mem_singleton_self _⟩
  | .string kind => exact covers_leaf rfl rfl rfl ⟨kind, List.mem_singleton_self _⟩
  | .reference kind => exact covers_leaf rfl rfl rfl ⟨kind, List.mem_singleton_self _⟩
  | .parenthesised _ inside _ => exact inside.covers.around ⟨[_], [_], rfl⟩
  | @Spells.conditional word opening closing _ _ _ _ _ _ _ _ condition _ body spans =>
    have first := (Laid.single condition.covers).behind [word, opening]
    have second := (Laid.single body.covers).behind [closing]
    exact covers_whole spans (first.append second) trivial
  | @Spells.conditionalElse word opening closing word' _ _ _ _ _ _ _ _ _ _ condition _ body _
      otherwise spans =>
    have first := (Laid.single condition.covers).behind [word, opening]
    have second := (Laid.single body.covers).behind [closing]
    have third := (Laid.single otherwise.covers).behind [word']
    exact covers_whole spans ((first.append second).append third) trivial
  | @Spells.forLoop word opening comma comma' closing name w₁ _ _ _ _ _ _ _ _ _ _ _ _ initial _
      condition _ update _ body spans =>
    have first := (Laid.single initial.covers).behind [word, opening]
    have second := (Laid.single condition.covers).behind [comma]
    have third := (Laid.single update.covers).behind [comma']
    have fourth := (Laid.single body.covers).behind [closing]
    -- a loop keeps the variable of the assignment in its header
    obtain ⟨part, inside, covers⟩ := initial.covers.self
    have kept : name ∈ w₁ := inside.subset covers.keeps.2
    exact covers_whole spans (((first.append second).append third).append fourth)
      ⟨covers.keeps.1, by simp [kept]⟩
  | @Spells.whileLoop word opening closing _ _ _ _ _ _ _ _ condition _ body spans =>
    have first := (Laid.single condition.covers).behind [word, opening]
    have second := (Laid.single body.covers).behind [closing]
    exact covers_whole spans (first.append second) trivial
  | @Spells.function word name opening closing w _ _ _ _ _ _ kind _ parameters _ body spans =>
    have only := ((Laid.single body.covers).behind [closing]).behind (word :: name :: opening :: w)
    refine covers_whole spans only ⟨⟨kind, by simp⟩, fun t mem => ?_⟩
    obtain ⟨kind, inside⟩ := parameters.keeps t mem
    exact ⟨kind, by simp [inside]⟩

/-- Trees that are spelled in turn lie in turn in the word, and they cover tokens of it. -/
theorem SpellsEach.covers {p : Series} {w : List Token} {trees : List Tree}
    (h : SpellsEach p w trees) : Laid w trees := by
  match h with
  | .noStatements _ | .noArguments | .noFurtherArguments => exact .nil
  | .statement _ _ first others =>
    exact ((Laid.single first.covers).behind _).append others.covers
  | .argument first others => exact (Laid.single first.covers).append others.covers
  | @SpellsEach.furtherArgument comma _ _ _ _ _ first others =>
    exact ((Laid.single first.covers).behind [comma]).append others.covers

end

end Scriptlet
