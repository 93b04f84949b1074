import Scriptlet.Tree.Basic

/-!
# Parts of a tree

## Main definitions

* `Role` — what a part is to the tree it belongs to
* `Tree.parts` — the parts of a tree in the order of the source, with their roles
* `Tree.children` — the parts alone
* `Tree.Throughout` — what holds of a tree and of all its parts

## Main results

* `Tree.sizeOf_lt_of_mem_children` — a part is smaller than the tree
-/

namespace Scriptlet

/-- What a part is to the tree it belongs to. -/
inductive Role
  | value | left | right | operand | condition | body | otherwise
  | initial | update | callee | argument | statement
  deriving DecidableEq, Repr

/-- The conditions and bodies of a conditional, in order. -/
def Arms.parts : Arms → List (Role × Tree)
  | none => []
  | otherwise body => [(.otherwise, body)]
  | guarded condition body others => (.condition, condition) :: (.body, body) :: others.parts

namespace Tree

/-- The parts of a tree in the order of the source. The initial part of a `for` loop is an
assignment. -/
def parts : Tree → List (Role × Tree)
  | number _ | string _ | reference _ => []
  | assignment _ _ value => [(.value, value)]
  | binary left _ right => [(.left, left), (.right, right)]
  | unary _ operand => [(.operand, operand)]
  | conditional arms _ _ => arms.parts
  | forLoop letStart name initial condition update body _ _ =>
    [(.initial, assignment letStart name initial), (.condition, condition), (.update, update),
      (.body, body)]
  | whileLoop condition body _ _ => [(.condition, condition), (.body, body)]
  | function _ _ body _ _ => [(.body, body)]
  | call callee arguments _ => (.callee, callee) :: arguments.map (.argument, ·)
  | sequence statements _ _ => statements.map (.statement, ·)

/-- The parts of a tree without their roles. -/
def children (t : Tree) : List Tree := t.parts.map Prod.snd

@[simp] theorem children_call (callee : Tree) (arguments : List Tree) (stop : Position) :
    (call callee arguments stop).children = callee :: arguments := by
  simp [children, parts, Function.comp_def]

@[simp] theorem children_sequence (statements : List Tree) (start stop : Position) :
    (sequence statements start stop).children = statements := by
  simp [children, parts, Function.comp_def]

end Tree

/-- A part of a conditional is smaller than its arms. -/
theorem Arms.sizeOf_lt_of_mem_parts (arms : Arms) {part : Role × Tree}
    (h : part ∈ arms.parts) : sizeOf part.2 < sizeOf arms := by
  match arms with
  | none => simp [parts] at h
  | otherwise body =>
    obtain rfl : part = (.otherwise, body) := by simpa [parts] using h
    simp
  | guarded condition body others =>
    simp only [parts, List.mem_cons] at h
    rcases h with rfl | rfl | h
    · simp only [guarded.sizeOf_spec]
      omega
    · simp only [guarded.sizeOf_spec]
      omega
    · have := sizeOf_lt_of_mem_parts others h
      simp only [guarded.sizeOf_spec]
      omega

/-- A part is smaller than the tree, so that definitions may recurse on parts. -/
theorem Tree.sizeOf_lt_of_mem_children {t child : Tree} (h : child ∈ t.children) :
    sizeOf child < sizeOf t := by
  simp only [children, List.mem_map] at h
  obtain ⟨⟨role, part⟩, h, rfl⟩ := h
  cases t with
  | number | string | reference => simp [parts] at h
  | conditional arms =>
    have smaller : sizeOf part < sizeOf arms := arms.sizeOf_lt_of_mem_parts h
    simp only [conditional.sizeOf_spec]
    omega
  | forLoop letStart name initial condition update body start stop =>
    obtain ⟨source, index, line, column⟩ := start
    simp only [parts, List.mem_cons, Prod.mk.injEq, List.not_mem_nil, or_false] at h
    simp only [forLoop.sizeOf_spec, Position.mk.sizeOf_spec]
    rcases h with ⟨-, rfl⟩ | ⟨-, rfl⟩ | ⟨-, rfl⟩ | ⟨-, rfl⟩
    · simp only [assignment.sizeOf_spec]
      omega
    all_goals omega
  | call callee arguments =>
    simp only [parts, List.mem_cons, List.mem_map] at h
    rcases h with h | ⟨argument, h, heq⟩
    · cases h
      simp only [call.sizeOf_spec]
      omega
    · cases heq
      have := List.sizeOf_lt_of_mem h
      simp only [call.sizeOf_spec]
      omega
  | sequence statements =>
    simp only [parts, List.mem_map] at h
    obtain ⟨statement, h, heq⟩ := h
    cases heq
    have := List.sizeOf_lt_of_mem h
    simp only [sequence.sizeOf_spec]
    omega
  | assignment | binary | unary | whileLoop | function =>
    simp only [parts, List.mem_cons, Prod.mk.injEq, List.not_mem_nil, or_false] at h
    grind [Tree.assignment.sizeOf_spec, Tree.binary.sizeOf_spec, Tree.unary.sizeOf_spec,
      Tree.whileLoop.sizeOf_spec, Tree.function.sizeOf_spec]

/-- What holds of a tree and of all its parts. -/
inductive Tree.Throughout (P : Tree → Prop) : Tree → Prop
  | intro {tree : Tree} :
    P tree → (∀ part ∈ tree.children, Throughout P part) → Throughout P tree

namespace Tree.Throughout

variable {P : Tree → Prop} {tree part : Tree}

theorem self (h : tree.Throughout P) : P tree := by
  cases h
  assumption

/-- What holds throughout a tree holds throughout its children. -/
theorem child (h : tree.Throughout P) (mem : part ∈ tree.children) : part.Throughout P := by
  cases h with
  | intro _ children => exact children part mem

theorem mono {Q : Tree → Prop} (h : tree.Throughout P) (imp : ∀ t, P t → Q t) :
    tree.Throughout Q := by
  induction h with
  | intro self _ ih => exact .intro (imp _ self) ih

/-- What is found out of a node is found out of all parts by going through them. -/
instance decidable [DecidablePred P] (tree : Tree) : Decidable (tree.Throughout P) :=
  have : DecidablePred fun part : {part // part ∈ tree.children} => part.1.Throughout P :=
    fun part => decidable part.1
  decidable_of_iff (P tree ∧ ∀ part ∈ tree.children.attach, part.1.Throughout P)
    ⟨fun h => .intro h.1 fun part mem => h.2 ⟨part, mem⟩ (List.mem_attach _ _),
      fun h => ⟨h.self, fun part _ => h.child part.2⟩⟩
termination_by sizeOf tree
decreasing_by exact sizeOf_lt_of_mem_children part.2

end Tree.Throughout

end Scriptlet
