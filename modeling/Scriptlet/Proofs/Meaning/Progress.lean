import Scriptlet.Proofs.Code.ControlFlow
import Scriptlet.Proofs.Meaning.Machine

/-!
# The machine is never stuck

The machine stops at the end of the code and nowhere else, provided that every jump has its
label and no function stands in the code. The code of statements has no functions.

## Main definitions

* `Plain` — code that opens and closes no function

## Main results

* `Tree.plain_lower` — the code of statements is plain
* `Machine.exists_step` — before the end of plain code the machine has a next step
* `Machine.goesOn_iff` — the machine goes on for ever where it does not come to the end
-/

namespace Scriptlet

universe u

variable {V : Type u}

/-! ### Code without functions -/

/-- The code opens and closes no function. -/
def Plain (code : List Instruction) : Prop := ∀ i ∈ code, i.isBracket = false

namespace Plain

variable {code code' : List Instruction} {i : Instruction}

theorem nil : Plain [] := nofun

theorem single (h : i.isBracket = false) : Plain [i] := List.forall_mem_singleton.mpr h

theorem cons (h : i.isBracket = false) (h' : Plain code) : Plain (i :: code) :=
  List.forall_mem_cons.mpr ⟨h, h'⟩

theorem append (h : Plain code) (h' : Plain code') : Plain (code ++ code') :=
  List.forall_mem_append.mpr ⟨h, h'⟩

end Plain

/-- The code of an operand opens and closes no function. -/
theorem Tree.plain_lower_of_isOperand {tree : Tree} (operand : tree.isOperand) (k : Nat) :
    Plain (tree.lower k).code := by
  induction tree using Tree.isOperand.induct generalizing k with
  | case1 | case2 | case3 => exact .single rfl
  | case4 start name value ih => exact (ih operand k).append (.single rfl)
  | case5 left operator right ihLeft ihRight =>
    obtain ⟨first, second⟩ := Bool.and_eq_true_iff.mp operand
    exact ((ihLeft first k).append (ihRight second _)).append (.single rfl)
  | case6 operator inner ih =>
    rw [Tree.lower]
    split
    · exact ih operand k
    · exact (ih operand k).append (.single rfl)
    · exact (ih operand k).append (.single rfl)
  | case7 tree => cases tree <;> simp_all [Tree.isOperand]

theorem Tree.plain_lowerEach_of_isOperand {trees : List Tree}
    (operands : trees.all Tree.isOperand) (k : Nat) : Plain (Tree.lowerEach trees k).2.code := by
  induction trees generalizing k with
  | nil => exact .nil
  | cons tree others ih =>
    simp only [List.all_cons, Bool.and_eq_true] at operands
    exact (tree.plain_lower_of_isOperand operands.1 k).append (ih operands.2 _)

mutual

/-- The code of a statement opens and closes no function. -/
theorem Tree.plain_lower (tree : Tree) (statement : tree.isStatement) (k : Nat) :
    Plain (tree.lower k).code := by
  match tree with
  | .number _ | .string _ | .reference _ | .assignment _ _ _ | .binary _ _ _ | .unary _ _ =>
    exact Tree.plain_lower_of_isOperand statement k
  | .conditional .none _ _ | .conditional (.otherwise _) _ _ | .function _ _ _ _ _ =>
    cases statement
  | .conditional (.guarded condition body _) _ _ | .whileLoop condition body _ _ =>
    obtain ⟨operand, inside⟩ := Bool.and_eq_true_iff.mp statement
    have first := condition.plain_lower_of_isOperand operand k
    exact (first.append (.cons rfl (Tree.plain_lower body inside _))).append (.single rfl)
  | .forLoop _ name initial condition update body _ _ =>
    simp only [Tree.isStatement, Bool.and_eq_true] at statement
    obtain ⟨⟨⟨operand₁, operand₂⟩, operand₃⟩, inside⟩ := statement
    have first := initial.plain_lower_of_isOperand operand₁ k
    have second := condition.plain_lower_of_isOperand operand₂ (initial.lower k).next
    have third := update.plain_lower_of_isOperand operand₃
      (condition.lower (initial.lower k).next).next
    exact first.append (.cons rfl ((((Plain.cons rfl second).append
      (.cons rfl (Tree.plain_lower body inside _))).append third).append
      (.cons rfl (.cons rfl (.single rfl)))))
  | .call callee arguments stop =>
    cases callee with
    | reference t =>
      rw [Tree.lower]
      split
      · exact (Tree.plain_lowerEach_of_isOperand statement k).append (.single rfl)
      · have loads : Plain (Tree.lower (.reference t) k).code := .single rfl
        exact (loads.append (Tree.plain_lowerEach_of_isOperand statement _)).append
          (.single rfl)
    | _ => cases statement
  | .sequence statements _ _ => exact Tree.plain_lowerEach statements statement k

theorem Tree.plain_lowerEach (trees : List Tree) (statements : Tree.areStatements trees)
    (k : Nat) : Plain (Tree.lowerEach trees k).2.code := by
  match trees with
  | [] => exact .nil
  | tree :: others =>
    obtain ⟨statement, further⟩ := Bool.and_eq_true_iff.mp statements
    exact (Tree.plain_lower tree statement k).append (Tree.plain_lowerEach others further _)

end

/-! ### The next step -/

namespace Machine

variable {m : Meaning V} {code : List Instruction}

/-- Every jump finds its label. -/
theorem jump?_of_mem {c : State V} {l : Label} (mem : .label l ∈ code) :
    ∃ c', c.jump? code l = some c' ∧ c'.position ≤ code.length := by
  obtain ⟨p, found⟩ := Option.isSome_iff_exists.mp (List.isSome_idxOf?.mpr mem)
  obtain ⟨lt, -⟩ := List.idxOf?_eq_some_iff.mp found
  exact ⟨{ c with position := p }, by rw [State.jump?, found]; rfl, Nat.le_of_lt lt⟩

/-- Before the end of plain code, where jumps have their labels, the machine has a next step. -/
theorem exists_step (plain : Plain code) (linked : LinkedBetween [] code []) {c : State V}
    (lt : c.position < code.length) :
    ∃ c', step? m code c = some c' ∧ c'.position ≤ code.length := by
  have here : code[c.position]? = some code[c.position] := List.getElem?_eq_getElem lt
  have noBracket := plain _ (List.mem_of_getElem? here)
  rw [step?, here, Option.bind_some]
  generalize code[c.position] = i at here noBracket ⊢
  -- brackets are left out and jumps have labels; everything else goes on
  cases i with
  | function _ | «return» => cases noBracket
  | jumpUnless condition target =>
    obtain ⟨j, label, -⟩ := linked.forwards here
    rw [execute?]
    by_cases truthy : m.truthy (c.temps condition)
    · rw [if_pos truthy]
      exact ⟨c.next, rfl, lt⟩
    · rw [if_neg truthy]
      exact jump?_of_mem (List.mem_of_getElem? label)
  | jump target =>
    obtain ⟨j, label, -⟩ := linked.backwards here
    exact jump?_of_mem (List.mem_of_getElem? label)
  | _ => exact ⟨_, rfl, lt⟩

/-- The machine goes on for ever exactly where it does not come to the end. -/
theorem goesOn_iff (plain : Plain code) (linked : LinkedBetween [] code []) {temps : Temp → V}
    {s : Store V} :
    GoesOn m code temps s ↔ ∀ s' events, ¬ Ends m code temps s s' events := by
  constructor
  · rintro goesOn s' events ⟨n, temps', reaches⟩
    -- at the end of the code there is no next step
    have further := goesOn (n + 1)
    have stopped : step? m code ⟨code.length, temps', s', events⟩ = none :=
      step?_of_length_le (Nat.le_refl _)
    rw [steps_add reaches, steps, stopped] at further
    cases further
  · intro never n
    -- the position never gets beyond the end, and at the end the run would end
    have reaches : ∃ c, steps m code n (start temps s) = some c ∧ c.position ≤ code.length := by
      induction n with
      | zero => exact ⟨_, rfl, Nat.zero_le _⟩
      | succ n ih =>
        obtain ⟨c, steps, le⟩ := ih
        by_cases lt : c.position < code.length
        · obtain ⟨c', step, le'⟩ := exists_step (m := m) plain linked lt
          exact ⟨c', (steps_add steps).trans (steps_one step), le'⟩
        · have eq : c.position = code.length := by omega
          refine absurd ⟨n, c.temps, ?_⟩ (never c.store c.events)
          rw [steps, ← eq]
    obtain ⟨c, steps, -⟩ := reaches
    rw [steps]
    rfl

end Machine

end Scriptlet
