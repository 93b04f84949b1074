import Scriptlet.Proofs.Code.Numbers
import Scriptlet.Proofs.Meaning.Legible
import Scriptlet.Proofs.Meaning.Machine

/-!
# Code that computes

The code of an operand leaves its value in the temporary of the last number taken. It may write
any temporary with a number of its own, but none that was numbered before, and that is why a
left operand is still there when the right one has been computed.

## Main definitions

* `Machine.Computes` — from one position to another the machine computes a value

## Main results

* `Tree.computes_lower`, `Tree.computes_lowerEach` — the code of operands computes them
-/

namespace Scriptlet

universe u

variable {V : Type u}

namespace Machine

variable {m : Meaning V} {code : List Instruction}

theorem step?_eq {c : State V} {i : Instruction} (h : code[c.position]? = some i) :
    step? m code c = execute? m code c i := by
  rw [step?, h, Option.bind_some]

/-- From `p` to `q` the machine computes what `read` finds in the temporaries at the end, and
keeps the temporaries with numbers below `k`. -/
def ComputesAs {α : Type u} (m : Meaning V) (code : List Instruction) (p q k : Nat)
    (read : (Temp → V) → α) (value : Computation V α) : Prop :=
  ∀ s, ∃ a s', value s = some (a, s') ∧
    ∀ temps events, ∃ n temps', steps m code n ⟨p, temps, s, events⟩ =
      some ⟨q, temps', s', events⟩ ∧ read temps' = a ∧ ∀ t, t.number < k → temps' t = temps t

/-- From `p` to `q` the machine computes a value and leaves it in the temporary `t`. -/
abbrev Computes (m : Meaning V) (code : List Instruction) (p q k : Nat) (t : Temp)
    (value : Computation V V) : Prop :=
  ComputesAs m code p q k (· t) value

namespace Computes

variable {p q r k k' : Nat} {t u dest : Temp} {value left right : Computation V V}

/-- A value is loaded where it is what its text is read as. -/
theorem load {text : String} (h : code[p]? = some (.load dest text)) (fresh : k ≤ dest.number)
    (reads : ∀ s, value s = some (m.read text s, s)) : Computes m code p (p + 1) k dest value := by
  intro s
  refine ⟨m.read text s, s, reads s, fun temps events => ?_⟩
  have step := steps_one ((step?_eq (m := m) (c := ⟨p, temps, s, events⟩) h).trans rfl)
  refine ⟨1, _, step, ?_, fun t lt => ?_⟩
  · simp
  · have ne : t ≠ dest := by
      rintro rfl
      omega
    simp [ne]

theorem store {name : String} (h : Computes m code p q k t value)
    (stores : code[q]? = some (.store name t)) :
    Computes m code p (q + 1) k t fun s => do
      let (v, s) ← value s
      return (v, s.set name v) := by
  intro s
  obtain ⟨v, s', eq, runs⟩ := h s
  refine ⟨v, s'.set name v, by simp [eq], fun temps events => ?_⟩
  obtain ⟨n, temps', steps, holds, keeps⟩ := runs temps events
  have step := steps_one ((step?_eq (m := m) (c := ⟨q, temps', s', events⟩) stores).trans rfl)
  refine ⟨n + 1, temps', ?_, holds, keeps⟩
  -- what is stored is what the temporary holds
  rw [steps_add steps, step, ← holds]
  rfl

theorem unary {i : Instruction} {f : V → V} (h : Computes m code p q k t value)
    (here : code[q]? = some i)
    (computes : ∀ c : State V, execute? m code c i = some (c.compute dest (f (c.temps t))))
    (fresh : k ≤ dest.number) :
    Computes m code p (q + 1) k dest fun s => do
      let (v, s) ← value s
      return (f v, s) := by
  intro s
  obtain ⟨v, s', eq, runs⟩ := h s
  refine ⟨f v, s', by simp [eq], fun temps events => ?_⟩
  obtain ⟨n, temps', steps, holds, keeps⟩ := runs temps events
  have step := steps_one
    ((step?_eq (m := m) (c := ⟨q, temps', s', events⟩) here).trans (computes _))
  refine ⟨n + 1, _, (steps_add steps).trans step, ?_, fun u lt => ?_⟩
  · simp [holds]
  · have ne : u ≠ dest := by
      rintro rfl
      omega
    simp [ne, keeps u lt]

theorem binary {operator : String} (h : Computes m code p q k t left)
    (h' : Computes m code q r k' u right) (le : k ≤ k') (lt : t.number < k')
    (here : code[r]? = some (.binary dest t operator u)) (fresh : k ≤ dest.number) :
    Computes m code p (r + 1) k dest fun s => do
      let (v, s) ← left s
      let (w, s) ← right s
      return (m.binary operator v w, s) := by
  intro s
  obtain ⟨v, s₁, eq, runs⟩ := h s
  obtain ⟨w, s₂, eq', runs'⟩ := h' s₁
  refine ⟨m.binary operator v w, s₂, by simp [eq, eq'], fun temps events => ?_⟩
  obtain ⟨n, temps₁, steps, holds, keeps⟩ := runs temps events
  obtain ⟨n', temps₂, steps', holds', keeps'⟩ := runs' temps₁ events
  have step := steps_one ((step?_eq (m := m) (c := ⟨r, temps₂, s₂, events⟩) here).trans rfl)
  refine ⟨n + (n' + 1), _, (steps_add steps).trans ((steps_add steps').trans step), ?_,
    fun u lt => ?_⟩
  -- the right operand has kept the temporary of the left one
  · simp [keeps' t lt, holds, holds']
  · have ne : u ≠ dest := by
      rintro rfl
      omega
    simp [ne, keeps' u (by omega), keeps u lt]

/-- A value stays where it is while others are computed. -/
theorem cons {ts : List Temp} {others : Computation V (List V)}
    (h : Computes m code p q k t value)
    (h' : ComputesAs m code q r k' (fun temps => ts.map temps) others) (le : k ≤ k')
    (lt : t.number < k') :
    ComputesAs m code p r k (fun temps => (t :: ts).map temps) fun s => do
      let (v, s) ← value s
      let (vs, s) ← others s
      return (v :: vs, s) := by
  intro s
  obtain ⟨v, s₁, eq, runs⟩ := h s
  obtain ⟨vs, s₂, eq', runs'⟩ := h' s₁
  refine ⟨v :: vs, s₂, by simp [eq, eq'], fun temps events => ?_⟩
  obtain ⟨n, temps₁, steps, holds, keeps⟩ := runs temps events
  obtain ⟨n', temps₂, steps', holds', keeps'⟩ := runs' temps₁ events
  refine ⟨n + n', temps₂, (steps_add steps).trans steps', ?_, fun u less => ?_⟩
  -- the others have kept the temporary of the first
  · dsimp only at holds holds' ⊢
    rw [List.map_cons, holds', keeps' t lt, holds]
  · rw [keeps' u (Nat.lt_of_lt_of_le less le), keeps u less]

end Computes

end Machine

/-- Every operand takes a number, and the last is that of its value. -/
theorem Tree.lt_next_of_isOperand {tree : Tree} (operand : tree.isOperand) (k : Nat) :
    k < (tree.lower k).next := by
  induction tree using Tree.isOperand.induct generalizing k with
  | case1 | case2 | case3 => exact Nat.lt_succ_self k
  | case4 _ _ value ih => exact ih operand k
  | case5 left operator right ihLeft ihRight =>
    simp only [isOperand, Bool.and_eq_true] at operand
    have first := ihLeft operand.1 k
    have second := ihRight operand.2 (left.lower k).next
    simp only [lower]
    omega
  | case6 operator inner ih =>
    have first := ih operand k
    rw [lower]
    split
    · exact first
    · exact Nat.lt_succ_of_lt first
    · exact Nat.lt_succ_of_lt first
  | case7 tree => cases tree <;> simp_all [isOperand]

namespace Tree

open Machine

variable {m : Meaning V} {code : List Instruction}

/-- The code of an operand computes it. -/
theorem computes_lower {tree : Tree} (operand : tree.isOperand) (legible : tree.Throughout Legible)
    {k p : Nat} (placed : Placed code p (tree.lower k).code) :
    Computes m code p (p + (tree.lower k).code.length) k (tree.lower k).last (tree.eval m) := by
  induction tree using Tree.isOperand.induct generalizing k p with
  | case1 t =>
    -- the text of an integer is no name, so that the literal is loaded
    have literal : Instruction.isName t.numberText = false :=
      legible.self (beq_iff_eq.mp operand)
    have here : code[p]? = some (.load ⟨k⟩ t.numberText) := placed.head
    exact .load here (Nat.le_refl k) fun s => by simp [eval, Meaning.read, literal]
  | case2 t =>
    -- nor is a text between quotes
    exact .load placed.head (Nat.le_refl k) fun s => by
      simp [eval, Meaning.read, Instruction.isName_quoted]
  | case3 t =>
    -- but the text of a reference is one, so that the variable is loaded
    obtain ⟨name, text, isName⟩ := legible.self
    have textOrEmpty : t.textOrEmpty = name := by simp [Token.textOrEmpty, text]
    exact .load placed.head (Nat.le_refl k) fun s => by
      rw [eval, Meaning.read, textOrEmpty, if_pos isName]
  | case4 start name value ih =>
    have computes := ih operand (legible.child (by simp [children, parts])) placed.left
    have stores := computes.store placed.right.head
    have eq : (assignment start name value).eval m = fun s => do
        let (v, s) ← value.eval m s
        return (v, s.set name.textOrEmpty v) := by
      funext s
      rw [eval]
    rw [eq]
    simpa [lower, Fragment.last, Nat.add_assoc] using stores
  | case5 left operator right ihLeft ihRight =>
    simp only [isOperand, Bool.and_eq_true] at operand
    have lt := left.lt_next_of_isOperand operand.1 k
    -- the last numbers taken for the two operands are apart
    have lt' := right.lt_next_of_isOperand operand.2 (left.lower k).next
    have first := ihLeft operand.1 (legible.child (by simp [children, parts])) placed.left.left
    have second := ihRight operand.2 (legible.child (by simp [children, parts])) placed.left.right
    have here := placed.right.head
    rw [List.length_append, ← Nat.add_assoc] at here
    have joins := first.binary second (Nat.le_of_lt lt) (by simp only [Fragment.last]; omega) here
      (by simp only; omega)
    have eq : (binary left operator right).eval m = fun s => do
        let (v, s) ← left.eval m s
        let (w, s) ← right.eval m s
        return (m.binary operator.kind.operatorText v w, s) := by
      funext s
      rw [eval]
    rw [eq]
    simpa [lower, Fragment.last, Nat.add_assoc] using joins
  | case6 operator inner ih =>
    have lt := inner.lt_next_of_isOperand operand k
    have part : inner.Throughout Legible := legible.child (by simp [children, parts])
    have eq : (unary operator inner).eval m = fun s => do
        let (v, s) ← inner.eval m s
        return (m.unary operator.kind v, s) := by
      funext s
      rw [eval]
    rw [eq]
    rw [lower] at placed ⊢
    split at placed
    case h_1 plus =>
      -- a plus sign leaves no code of its own, and means nothing
      have same : (fun s => do
          let (v, s) ← inner.eval m s
          return (m.unary operator.kind v, s)) = inner.eval m := by
        funext s
        cases inner.eval m s <;> simp [plus, Meaning.unary]
      rw [same]
      simpa only [plus] using ih operand part placed
    case h_2 isNot =>
      have computes := (ih operand part placed.left).unary (f := m.not) placed.right.head
        (fun _ => rfl) (Nat.le_of_lt lt)
      simpa [isNot, Meaning.unary, Fragment.last, Nat.add_assoc] using computes
    case h_3 notPlus notNot =>
      have computes := (ih operand part placed.left).unary (f := m.negate) placed.right.head
        (fun _ => rfl) (Nat.le_of_lt lt)
      have negates (v : V) : m.unary operator.kind v = m.negate v := by
        rw [Meaning.unary]
        · exact notPlus
        · exact notNot
      simpa [negates, Fragment.last, Nat.add_assoc] using computes
  | case7 tree => cases tree <;> simp_all [isOperand]

/-- The code of operands in turn computes them all, and keeps each value where it is. -/
theorem computes_lowerEach {trees : List Tree} (operands : trees.all Tree.isOperand)
    (legible : ∀ tree ∈ trees, tree.Throughout Legible) {k p : Nat}
    (placed : Placed code p (Tree.lowerEach trees k).2.code) :
    ComputesAs m code p (p + (Tree.lowerEach trees k).2.code.length) k
      (fun temps => (Tree.lowerEach trees k).1.map temps) (Tree.evalEach m trees) := by
  induction trees generalizing k p with
  | nil =>
    intro s
    exact ⟨[], s, rfl, fun temps events => ⟨0, temps, rfl, rfl, fun _ _ => rfl⟩⟩
  | cons tree others ih =>
    simp only [List.all_cons, Bool.and_eq_true] at operands
    have lt := tree.lt_next_of_isOperand operands.1 k
    have first := computes_lower (m := m) operands.1 (legible tree List.mem_cons_self) placed.left
    have further := ih operands.2 (fun u mem => legible u (List.mem_cons_of_mem _ mem)) placed.right
    have both := first.cons further (Nat.le_of_lt lt) (by simp only [Fragment.last]; omega)
    have eq : Tree.evalEach m (tree :: others) = fun s => do
        let (v, s) ← tree.eval m s
        let (vs, s) ← Tree.evalEach m others s
        return (v :: vs, s) := by
      funext s
      rw [evalEach]
    rw [eq]
    simpa [lowerEach, Nat.add_assoc] using both

end Tree

end Scriptlet
