import Scriptlet.Proofs.Syntax.Extent

/-!
# The shape of trees

In a tree that tokens spell, sequences stand exactly where bodies do: a body is a sequence even if
it holds one statement only, and no other part is one. A sequence has a first statement.

## Main definitions

* `Tree.Shaped` — what the tokens and the parts of a node are

## Main results

* `Spells.shaped` — all nodes of a tree that is spelled have this shape
* `Spells.throughout` — what holds of every tree that is spelled holds of all its nodes
-/

namespace Scriptlet

/-- Whether a part is a body. -/
def Role.isBody : Role → Bool
  | body | otherwise => true
  | _ => false

/-- Whether a phrase of this sort is read as a sequence. -/
def Phrase.isBody : Phrase → Bool
  | statements | block => true
  | _ => false

theorem Level.isBody_operand (level : Level) : level.operand.isBody = false := by
  cases level <;> rfl

namespace Tree

/-- Whether a tree is a sequence. -/
def isSequence : Tree → Bool
  | sequence _ _ _ => true
  | _ => false

/-- Sequences stand where bodies do, and they are not empty. -/
structure Framed (node : Tree) : Prop where
  bodies : ∀ part ∈ node.parts, part.2.isSequence = part.1.isBody
  ne_nil : node.isSequence → node.children ≠ []

/-- A node keeps tokens of the kinds that it should, and with some property, and its parts are
sequences where they are bodies. -/
structure Shaped (P : Token → Prop) (node : Tree) : Prop where
  keeps : node.Keeps P
  framed : node.Framed

variable {P Q : Token → Prop} {tree : Tree}

theorem Shaped.mono (h : tree.Shaped P) (imp : ∀ t, P t → Q t) : tree.Shaped Q :=
  ⟨h.keeps.mono imp, h.framed⟩

theorem Throughout.and {P Q : Tree → Prop} (h : tree.Throughout P) (h' : tree.Throughout Q) :
    tree.Throughout fun node => P node ∧ Q node := by
  induction h with
  | intro self _ ih => exact .intro ⟨self, h'.self⟩ fun part mem => ih part mem (h'.child mem)

/-- A node without statements is framed if its parts are. -/
theorem Framed.of_parts (other : tree.isSequence = false)
    (bodies : ∀ part ∈ tree.parts, part.2.isSequence = part.1.isBody) : tree.Framed :=
  ⟨bodies, fun isSequence => by rw [other] at isSequence; cases isSequence⟩

end Tree

/-- A phrase is read as a sequence where statements may stand, and as something else elsewhere. -/
theorem Spells.isSequence {p : Phrase} {w : List Token} {tree : Tree} (h : Spells p w tree) :
    tree.isSequence = p.isBody := by
  match h with
  | .statements .. | .assignment .. | .negation .. | .join .. | .signed .. | .call .. | .number ..
  | .string .. | .reference .. | .conditional .. | .conditionalElse .. | .forLoop ..
  | .whileLoop .. | .function .. => rfl
  | .block _ inside _ | .conditions inside | .relations inside | .unsigned inside
  | .uncalled inside | .parenthesised _ inside _ => exact inside.isSequence
  | @Spells.operand level _ _ inside => exact inside.isSequence.trans level.isBody_operand

open Scriptlet.Tree in
mutual

/-- Sequences stand where bodies do in a tree that is spelled. -/
theorem Spells.framed {p : Phrase} {w : List Token} {tree : Tree} (h : Spells p w tree) :
    tree.Throughout Framed := by
  match h with
  | .statements _ first others _ =>
    -- every child of a sequence is a statement, which is no sequence itself
    have each := List.forall_mem_cons.mpr ⟨⟨first.isSequence, first.framed⟩, others.framed⟩
    refine .intro ⟨fun part mem => ?_, fun _ => by simp⟩ fun part mem => ?_
    · obtain ⟨statement, inside, rfl⟩ := List.mem_map.mp mem
      exact (each statement inside).1
    · rw [children_sequence] at mem
      exact (each part mem).2
  | .block _ inside _ | .conditions inside | .relations inside | .operand inside
  | .unsigned inside | .uncalled inside | .parenthesised _ inside _ => exact inside.framed
  | .assignment _ _ _ value =>
    exact .intro (.of_parts rfl (List.forall_mem_singleton.mpr value.isSequence))
      (List.forall_mem_singleton.mpr value.framed)
  | .negation _ operand | .signed _ operand =>
    exact .intro (.of_parts rfl (List.forall_mem_singleton.mpr operand.isSequence))
      (List.forall_mem_singleton.mpr operand.framed)
  | @Spells.join level _ _ _ _ _ left _ right =>
    -- the operand of a level is of a lower level, and so it is no body either
    have bodies := right.isSequence.trans level.isBody_operand
    exact .intro (.of_parts rfl (List.forall_mem_cons.mpr
        ⟨left.isSequence, List.forall_mem_singleton.mpr bodies⟩))
      (List.forall_mem_cons.mpr ⟨left.framed, List.forall_mem_singleton.mpr right.framed⟩)
  | .call callee _ arguments _ =>
    -- the arguments come from a series, which says what holds of each
    have each := arguments.framed
    refine .intro (.of_parts rfl ?_) ?_
    · refine List.forall_mem_cons.mpr ⟨callee.isSequence, fun part mem => ?_⟩
      obtain ⟨argument, inside, rfl⟩ := List.mem_map.mp mem
      exact (each argument inside).1
    · rw [children_call]
      exact List.forall_mem_cons.mpr ⟨callee.framed, fun part mem => (each part mem).2⟩
  | .number _ | .string _ | .reference _ =>
    exact .intro (.of_parts rfl (List.forall_mem_nil _)) (List.forall_mem_nil _)
  | .conditional _ _ condition _ body _ | .whileLoop _ _ condition _ body _ =>
    exact .intro (.of_parts rfl (List.forall_mem_cons.mpr
        ⟨condition.isSequence, List.forall_mem_singleton.mpr body.isSequence⟩))
      (List.forall_mem_cons.mpr ⟨condition.framed, List.forall_mem_singleton.mpr body.framed⟩)
  | .conditionalElse _ _ condition _ body _ other _ =>
    exact .intro (.of_parts rfl (List.forall_mem_cons.mpr ⟨condition.isSequence,
        List.forall_mem_cons.mpr
          ⟨body.isSequence, List.forall_mem_singleton.mpr other.isSequence⟩⟩))
      (List.forall_mem_cons.mpr ⟨condition.framed,
        List.forall_mem_cons.mpr ⟨body.framed, List.forall_mem_singleton.mpr other.framed⟩⟩)
  | .forLoop _ _ initial _ condition _ update _ body _ =>
    exact .intro (.of_parts rfl (List.forall_mem_cons.mpr ⟨initial.isSequence,
        List.forall_mem_cons.mpr ⟨condition.isSequence, List.forall_mem_cons.mpr
          ⟨update.isSequence, List.forall_mem_singleton.mpr body.isSequence⟩⟩⟩))
      (List.forall_mem_cons.mpr ⟨initial.framed, List.forall_mem_cons.mpr ⟨condition.framed,
        List.forall_mem_cons.mpr ⟨update.framed, List.forall_mem_singleton.mpr body.framed⟩⟩⟩)
  | .function _ _ _ _ _ body _ =>
    exact .intro (.of_parts rfl (List.forall_mem_singleton.mpr body.isSequence))
      (List.forall_mem_singleton.mpr body.framed)

theorem SpellsEach.framed {p : Series} {w : List Token} {trees : List Tree}
    (h : SpellsEach p w trees) :
    ∀ tree ∈ trees, tree.isSequence = false ∧ tree.Throughout Framed := by
  match h with
  | .noStatements _ | .noArguments | .noFurtherArguments => exact List.forall_mem_nil _
  | .statement _ _ first others | .argument first others | .furtherArgument _ first others =>
    exact List.forall_mem_cons.mpr ⟨⟨first.isSequence, first.framed⟩, others.framed⟩

end

/-- All nodes of a tree that is spelled keep tokens of the word, each of the kind that it should be,
and have sequences as parts where they have bodies. -/
theorem Spells.shaped {p : Phrase} {w : List Token} {tree : Tree} (h : Spells p w tree) :
    tree.Throughout (Tree.Shaped (· ∈ w)) := by
  refine (h.covers.and h.framed).mono fun node ⟨⟨part, inside, covers⟩, framed⟩ => ?_
  exact ⟨covers.keeps.mono fun t mem => inside.subset mem, framed⟩

/-! ### Parts that are spelled -/

mutual

/-- The parts of a tree that is spelled are spelled themselves. -/
theorem Spells.of_mem_children {p : Phrase} {w : List Token} {tree : Tree} (h : Spells p w tree) :
    ∀ child ∈ tree.children, ∃ p' w', Spells p' w' child := by
  match h with
  | .statements _ first others _ =>
    rw [Tree.children_sequence]
    exact List.forall_mem_cons.mpr ⟨⟨_, _, first⟩, others.of_mem⟩
  | .block _ inside _ | .conditions inside | .relations inside | .operand inside
  | .unsigned inside | .uncalled inside | .parenthesised _ inside _ => exact inside.of_mem_children
  | .assignment _ _ _ part | .negation _ part | .signed _ part | .function _ _ _ _ _ part _ =>
    exact List.forall_mem_singleton.mpr ⟨_, _, part⟩
  | .join left _ right =>
    exact List.forall_mem_cons.mpr ⟨⟨_, _, left⟩, List.forall_mem_singleton.mpr ⟨_, _, right⟩⟩
  | .call callee _ arguments _ =>
    rw [Tree.children_call]
    exact List.forall_mem_cons.mpr ⟨⟨_, _, callee⟩, arguments.of_mem⟩
  | .number _ | .string _ | .reference _ => exact List.forall_mem_nil _
  | .conditional _ _ condition _ body _ | .whileLoop _ _ condition _ body _ =>
    exact List.forall_mem_cons.mpr ⟨⟨_, _, condition⟩, List.forall_mem_singleton.mpr ⟨_, _, body⟩⟩
  | .conditionalElse _ _ condition _ body _ other _ =>
    exact List.forall_mem_cons.mpr ⟨⟨_, _, condition⟩, List.forall_mem_cons.mpr
      ⟨⟨_, _, body⟩, List.forall_mem_singleton.mpr ⟨_, _, other⟩⟩⟩
  | .forLoop _ _ initial _ condition _ update _ body _ =>
    exact List.forall_mem_cons.mpr ⟨⟨_, _, initial⟩, List.forall_mem_cons.mpr ⟨⟨_, _, condition⟩,
      List.forall_mem_cons.mpr ⟨⟨_, _, update⟩, List.forall_mem_singleton.mpr ⟨_, _, body⟩⟩⟩⟩

theorem SpellsEach.of_mem {p : Series} {w : List Token} {trees : List Tree}
    (h : SpellsEach p w trees) : ∀ tree ∈ trees, ∃ p' w', Spells p' w' tree := by
  match h with
  | .noStatements _ | .noArguments | .noFurtherArguments => exact List.forall_mem_nil _
  | .statement _ _ first others | .argument first others | .furtherArgument _ first others =>
    exact List.forall_mem_cons.mpr ⟨⟨_, _, first⟩, others.of_mem⟩

end

/-- What holds of every tree that is spelled holds of all its nodes. -/
theorem Spells.throughout {P : Tree → Prop} (node : ∀ {p w tree}, Spells p w tree → P tree)
    {p : Phrase} {w : List Token} {tree : Tree} (h : Spells p w tree) : tree.Throughout P := by
  refine .intro (node h) fun child mem => ?_
  obtain ⟨p', w', spells⟩ := h.of_mem_children child mem
  exact spells.throughout node
termination_by sizeOf tree
decreasing_by exact Tree.sizeOf_lt_of_mem_children mem

end Scriptlet
