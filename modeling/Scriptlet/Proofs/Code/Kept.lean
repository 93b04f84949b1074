import Scriptlet.Tree.Parts
import Scriptlet.Compiling
import Scriptlet.Proofs.Code.Numbers

/-!
# Assignments and functions in code

Wherever an assignment or a function stands in a script, as a statement or deep inside of an
expression, it leaves its store, or its entry and its return, in the code. There are two exceptions:
branches for other cases leave no code at all, and a callee that has a name is called by it, so that
nothing is left of an assignment or a function that is called where it stands.

## Main definitions

* `Mark` — what code does under a name of the script
* `Instruction.marks`, `Tree.marksOf` — the marks that code bears, and those that nodes call for
* `Tree.nodes`, `Tree.dropped` — the nodes of a tree, and those that stand in callees with a name

## Main results

* `Tree.count_marks` — code bears the marks of all nodes but those that are dropped
* `Tree.count_code` — the numbers of stores, entries and returns in the code of a script
* `Tree.marksOf_dropped` — nothing is dropped where callees with a name are references
-/

namespace Scriptlet

/-- What code does under a name of the script: it sets a variable, or enters a function; and where
it returns from one. -/
inductive Mark
  | set (name : String)
  | entry (name : String)
  | return
  deriving DecidableEq, Repr

namespace Instruction

/-- The mark that an instruction bears. -/
def mark? : Instruction → Option Mark
  | store name _ => some (.set name)
  | function name => some (.entry name)
  | .return => some .return
  | _ => none

/-- The marks that code bears. -/
def marks (code : List Instruction) : List Mark := code.filterMap mark?

/-- Whether an instruction sets the variable of this name. -/
def setsVariable (name : String) : Instruction → Bool
  | store other _ => other == name
  | _ => false

variable (i : Instruction) (code code' : List Instruction)

@[simp] theorem marks_nil : marks [] = [] := rfl

@[simp] theorem marks_cons : marks (i :: code) = i.mark?.toList ++ marks code := by
  rw [marks, List.filterMap_cons]
  cases i.mark? <;> rfl

@[simp] theorem marks_append : marks (code ++ code') = marks code ++ marks code' :=
  List.filterMap_append

/-- A mark is borne as often as there are instructions of its sort. -/
theorem count_marks_eq_countP {m : Mark} {p : Instruction → Bool}
    (sort : ∀ i, p i ↔ mark? i = some m) : (marks code).count m = code.countP p := by
  rw [marks, List.count, List.countP_filterMap]
  refine List.countP_congr fun i _ => ?_
  rw [sort]
  cases i.mark? <;> simp

end Instruction

namespace Tree

/-- The marks that a node calls for by itself. -/
def marks : Tree → List Mark
  | assignment _ name _ | forLoop _ name _ _ _ _ _ _ => [.set name.textOrEmpty]
  | function name _ _ _ _ => [.entry name.textOrEmpty, .return]
  | _ => []

/-- The marks that nodes call for. -/
def marksOf (nodes : List Tree) : List Mark := nodes.flatMap marks

/-- Whether a node sets the variable of this name: an assignment does, and a `for` loop does
once more at the end of each round. -/
def setsVariable (name : String) : Tree → Bool
  | assignment _ other _ | forLoop _ other _ _ _ _ _ _ => other.textOrEmpty == name
  | _ => false

/-- Whether a node defines the function of this name. -/
def defines (name : String) : Tree → Bool
  | function other _ _ _ _ => other.textOrEmpty == name
  | _ => false

/-- Whether a node defines a function. -/
def isFunction : Tree → Bool
  | function _ _ _ _ _ => true
  | _ => false

variable (t : Tree) (nodes nodes' : List Tree)

@[simp] theorem marksOf_nil : marksOf [] = [] := rfl

@[simp] theorem marksOf_cons : marksOf (t :: nodes) = t.marks ++ marksOf nodes :=
  List.flatMap_cons

@[simp] theorem marksOf_append : marksOf (nodes ++ nodes') = marksOf nodes ++ marksOf nodes' :=
  List.flatMap_append

/-- A mark is called for as often as there are nodes of its sort. -/
theorem count_marksOf_eq_countP {m : Mark} {p : Tree → Bool}
    (sort : ∀ t, t.marks.count m = if p t then 1 else 0) :
    (marksOf nodes).count m = nodes.countP p := by
  induction nodes with
  | nil => rfl
  | cons t nodes ih =>
    rw [marksOf_cons, List.count_append, List.countP_cons, sort, ih, Nat.add_comm]

end Tree

/-! ### The nodes of a tree -/

mutual

/-- The nodes of a tree that stand in no later arm of a conditional, each before its parts. The
first part in the header of a `for` loop is an assignment of its own. -/
def Tree.nodes : Tree → List Tree
  | .number t => [.number t]
  | .string t => [.string t]
  | .reference t => [.reference t]
  | .assignment start name value => .assignment start name value :: value.nodes
  | .binary left operator right => .binary left operator right :: left.nodes ++ right.nodes
  | .unary operator operand => .unary operator operand :: operand.nodes
  | .conditional (.guarded condition body others) start stop =>
    .conditional (.guarded condition body others) start stop :: condition.nodes ++ body.nodes
  | .conditional arms start stop => [.conditional arms start stop]
  | .forLoop letStart name initial condition update body start stop =>
    .forLoop letStart name initial condition update body start stop ::
      .assignment letStart name initial :: initial.nodes ++ condition.nodes ++ update.nodes ++
        body.nodes
  | .whileLoop condition body start stop =>
    .whileLoop condition body start stop :: condition.nodes ++ body.nodes
  | .function name parameters body start stop =>
    .function name parameters body start stop :: body.nodes
  | .call callee arguments stop =>
    .call callee arguments stop :: callee.nodes ++ Tree.nodesEach arguments
  | .sequence statements start stop =>
    .sequence statements start stop :: Tree.nodesEach statements

/-- The nodes of trees in turn. -/
def Tree.nodesEach : List Tree → List Tree
  | [] => []
  | tree :: others => tree.nodes ++ Tree.nodesEach others

end

mutual

/-- Those nodes of a tree that stand in a callee with a name, or are one. -/
def Tree.dropped : Tree → List Tree
  | .number _ | .string _ | .reference _ => []
  | .assignment _ _ value => value.dropped
  | .binary left _ right => left.dropped ++ right.dropped
  | .unary _ operand => operand.dropped
  | .conditional (.guarded condition body _) _ _ | .whileLoop condition body _ _ =>
    condition.dropped ++ body.dropped
  | .conditional _ _ _ => []
  | .forLoop _ _ initial condition update body _ _ =>
    initial.dropped ++ condition.dropped ++ update.dropped ++ body.dropped
  | .function _ _ body _ _ => body.dropped
  | .call callee arguments _ =>
    match callee.name? with
    | some _ => callee.nodes ++ Tree.droppedEach arguments
    | none => callee.dropped ++ Tree.droppedEach arguments
  | .sequence statements _ _ => Tree.droppedEach statements

/-- Those nodes of trees in turn. -/
def Tree.droppedEach : List Tree → List Tree
  | [] => []
  | tree :: others => tree.dropped ++ Tree.droppedEach others

end

/-! ### Marks in code -/

namespace Fragment

variable (condition update : Fragment) (body : Nat → Fragment) (name : String)

@[simp] theorem marks_runIf : Instruction.marks (runIf condition body).code =
    Instruction.marks condition.code ++ Instruction.marks (body (condition.next + 1)).code := by
  simp [runIf, Instruction.mark?]

@[simp] theorem marks_loop : Instruction.marks (loop name condition update body).code =
    Instruction.marks condition.code ++ Instruction.marks (body (update.next + 2)).code ++
      Instruction.marks update.code ++ [.set name] := by
  simp [loop, Instruction.mark?]

end Fragment

mutual

/-- The code of a tree bears the marks that its nodes call for, but for those that are dropped. -/
theorem Tree.count_marks (m : Mark) (tree : Tree) (k : Nat) :
    (Instruction.marks (tree.lower k).code).count m + (marksOf tree.dropped).count m =
      (marksOf tree.nodes).count m := by
  match tree with
  | .number t | .string t | .reference t => rfl
  | .assignment start name value =>
    have inside := value.count_marks m k
    simp [Tree.lower, Tree.dropped, Tree.nodes, marks, Instruction.mark?, List.count_cons]
    omega
  | .binary left operator right =>
    have first := left.count_marks m k
    have second := right.count_marks m (left.lower k).next
    simp [Tree.lower, Tree.dropped, Tree.nodes, marks, Instruction.mark?]
    omega
  | .unary operator operand =>
    have inside := operand.count_marks m k
    have same : Instruction.marks ((Tree.unary operator operand).lower k).code =
        Instruction.marks (operand.lower k).code := by
      rw [Tree.lower]
      split <;> simp [Instruction.mark?]
    rw [same]
    exact inside
  | .conditional (.guarded condition body others) start stop =>
    have first := condition.count_marks m k
    have second := body.count_marks m ((condition.lower k).next + 1)
    simp [Tree.lower, Tree.dropped, Tree.nodes, marks]
    omega
  | .conditional .none start stop | .conditional (.otherwise _) start stop => rfl
  | .forLoop letStart name initial condition update body start stop =>
    have first := initial.count_marks m k
    have second := condition.count_marks m (initial.lower k).next
    have third := update.count_marks m (condition.lower (initial.lower k).next).next
    have fourth := body.count_marks m
      ((update.lower (condition.lower (initial.lower k).next).next).next + 2)
    simp [Tree.lower, Tree.dropped, Tree.nodes, marks, Instruction.mark?, List.count_cons]
    omega
  | .whileLoop condition body start stop =>
    have first := condition.count_marks m k
    have second := body.count_marks m ((condition.lower k).next + 1)
    simp [Tree.lower, Tree.dropped, Tree.nodes, marks]
    omega
  | .function name parameters body start stop =>
    have inside := body.count_marks m k
    simp [Tree.lower, Tree.dropped, Tree.nodes, marks, Instruction.mark?, List.count_cons]
    omega
  | .call callee arguments stop =>
    cases named : callee.name? with
    | some name =>
      -- the callee leaves nothing, and all of its nodes are dropped
      have inside := Tree.count_marks_each m arguments k
      simp [Tree.lower, Tree.dropped, Tree.nodes, named, marks, Instruction.mark?]
      omega
    | none =>
      have first := callee.count_marks m k
      have second := Tree.count_marks_each m arguments (callee.lower k).next
      simp [Tree.lower, Tree.dropped, Tree.nodes, named, marks, Instruction.mark?]
      omega
  | .sequence statements start stop => exact Tree.count_marks_each m statements k

/-- What is kept and what is dropped of trees is all that they have. -/
theorem Tree.count_marks_each (m : Mark) (trees : List Tree) (k : Nat) :
    (Instruction.marks (Tree.lowerEach trees k).2.code).count m +
        (marksOf (Tree.droppedEach trees)).count m =
      (marksOf (Tree.nodesEach trees)).count m := by
  match trees with
  | [] => rfl
  | tree :: others =>
    have first := tree.count_marks m k
    have rest := Tree.count_marks_each m others (tree.lower k).next
    simp only [Tree.lowerEach, Tree.droppedEach, Tree.nodesEach, Instruction.marks_append,
      marksOf_append, List.count_append]
    omega

end

/-! ### Counting -/

/-- The code of a script has an entry for each of its functions, under the name of the function, a
return for each, and a store for each assignment to a variable and each `for` loop over it, where
only those are left out that stand in callees with a name. -/
theorem Tree.count_code (tree : Tree) :
    (∀ name, tree.code.count (.function name) + tree.dropped.countP (defines name) =
      tree.nodes.countP (defines name)) ∧
    tree.code.count .return + tree.dropped.countP isFunction = tree.nodes.countP isFunction ∧
    ∀ name, tree.code.countP (Instruction.setsVariable name) +
      tree.dropped.countP (setsVariable name) = tree.nodes.countP (setsVariable name) := by
  -- each sort of instructions and each sort of nodes is told by a mark
  have counts {m : Mark} {p : Instruction → Bool} {q : Tree → Bool}
      (sort : ∀ i, p i ↔ i.mark? = some m) (sort' : ∀ t, t.marks.count m = if q t then 1 else 0) :
      tree.code.countP p + tree.dropped.countP q = tree.nodes.countP q := by
    rw [← Instruction.count_marks_eq_countP _ sort, ← count_marksOf_eq_countP _ sort',
      ← count_marksOf_eq_countP _ sort']
    rw [tree.code_eq]
    exact tree.count_marks m 0
  refine ⟨fun name => counts (m := .entry name) (fun i => ?_) (fun t => ?_),
    counts (m := .return) (fun i => ?_) (fun t => ?_),
    fun name => counts (m := .set name) (fun i => ?_) (fun t => ?_)⟩
  · cases i <;> simp [Instruction.mark?]
  · cases t <;> simp [marks, defines, List.count_cons]
  · cases i <;> simp [Instruction.mark?]
  · cases t <;> simp [marks, isFunction]
  · cases i <;> simp [Instruction.mark?, Instruction.setsVariable]
  · cases t <;> simp [marks, setsVariable, List.count_cons]

/-- Of a function that is called where it stands no entry is left, nor a return. -/
theorem Tree.count_code_calledFunction :
    ∃ root, (Source.mk "" "func f() \x7b 1 \x7d(2)").tree = .ok root ∧
      root.code = [.load ⟨0⟩ "2", .call "f" [⟨0⟩]] ∧
      root.code.count (.function "f") = 0 ∧ root.nodes.countP (defines "f") = 1 ∧
      root.code.count .return = 0 ∧ root.nodes.countP isFunction = 1 := by
  obtain ⟨root, parsed, computed⟩ := Source.exists_tree
    (s := ⟨"", "func f() \x7b 1 \x7d(2)"⟩)
    (p := fun root => root.code == [.load ⟨0⟩ "2", .call "f" [⟨0⟩]] &&
      root.nodes.countP (defines "f") == 1 && root.nodes.countP isFunction == 1)
    (by decide +kernel)
  simp only [Bool.and_eq_true, beq_iff_eq] at computed
  obtain ⟨⟨code, defined⟩, functions⟩ := computed
  refine ⟨root, parsed, code, ?_, defined, ?_, functions⟩
  · rw [code]
    decide
  · rw [code]
    decide

/-! ### Callees that are references -/

/-- A callee with a name is a reference, as in most scripts. -/
def Tree.CallsReference : Tree → Prop
  | .call callee _ _ => callee.name? ≠ none → ∃ t, callee = .reference t
  | _ => True

mutual

/-- Where callees with a name are references, nothing is dropped that should leave a mark. -/
theorem Tree.marksOf_dropped (tree : Tree) (references : ∀ t ∈ tree.nodes, t.CallsReference) :
    marksOf tree.dropped = [] := by
  match tree with
  | .number t | .string t | .reference t => rfl
  | .assignment start name value =>
    exact value.marksOf_dropped fun t mem => references t (by simp [Tree.nodes, mem])
  | .binary left operator right =>
    have first := left.marksOf_dropped fun t mem => references t (by simp [Tree.nodes, mem])
    have second := right.marksOf_dropped fun t mem => references t (by simp [Tree.nodes, mem])
    simp [Tree.dropped, first, second]
  | .unary operator operand =>
    exact operand.marksOf_dropped fun t mem => references t (by simp [Tree.nodes, mem])
  | .conditional (.guarded condition body _) _ _ | .whileLoop condition body _ _ =>
    have first := condition.marksOf_dropped fun t mem => references t (by simp [Tree.nodes, mem])
    have second := body.marksOf_dropped fun t mem => references t (by simp [Tree.nodes, mem])
    simp [Tree.dropped, first, second]
  | .conditional .none _ _ | .conditional (.otherwise _) _ _ => rfl
  | .forLoop letStart name initial condition update body start stop =>
    have first := initial.marksOf_dropped fun t mem => references t (by simp [Tree.nodes, mem])
    have second := condition.marksOf_dropped fun t mem => references t (by simp [Tree.nodes, mem])
    have third := update.marksOf_dropped fun t mem => references t (by simp [Tree.nodes, mem])
    have fourth := body.marksOf_dropped fun t mem => references t (by simp [Tree.nodes, mem])
    simp [Tree.dropped, first, second, third, fourth]
  | .function name parameters body start stop =>
    exact body.marksOf_dropped fun t mem => references t (by simp [Tree.nodes, mem])
  | .call callee arguments stop =>
    have rest := Tree.marksOf_droppedEach arguments fun t mem =>
      references t (by simp [Tree.nodes, mem])
    cases named : callee.name? with
    | some name =>
      -- what a call with a name drops is its callee, which is a reference here
      obtain ⟨t, rfl⟩ := references _ List.mem_cons_self (by simp [named])
      simp [Tree.dropped, named, Tree.nodes, marks, rest]
    | none =>
      have first := callee.marksOf_dropped fun t mem => references t (by simp [Tree.nodes, mem])
      simp [Tree.dropped, named, first, rest]
  | .sequence statements start stop =>
    exact Tree.marksOf_droppedEach statements fun t mem => references t (by simp [Tree.nodes, mem])

theorem Tree.marksOf_droppedEach (trees : List Tree)
    (references : ∀ t ∈ Tree.nodesEach trees, t.CallsReference) :
    marksOf (Tree.droppedEach trees) = [] := by
  match trees with
  | [] => rfl
  | tree :: others =>
    have first := tree.marksOf_dropped fun t mem => references t (by simp [Tree.nodesEach, mem])
    have rest := Tree.marksOf_droppedEach others fun t mem =>
      references t (by simp [Tree.nodesEach, mem])
    simp [Tree.droppedEach, first, rest]

end

end Scriptlet
