import Scriptlet.Proofs.Meaning.Progress
import Scriptlet.Proofs.Meaning.Running

/-!
# Code does what scripts mean

The code of a script is followed through the machine: operands, conditions, rounds and
statements in turn, each where it is placed in the code. Jumps find their labels because no
number is taken twice.

## Main results

* `Tree.agrees_lower` — the code of a statement does what the statement means, wherever it is
  placed
* `Source.code_refines_meaning` — the code of a source ends where its tree does, with the same
  store and the same calls, and goes on for ever where the tree does not end
-/

namespace Scriptlet

universe u

variable {V : Type u}

open Machine

section

variable {m : Meaning V} {code : List Instruction} {p k : Nat}

/-- A part that runs where a condition holds, in code that takes no number twice. -/
theorem Fragment.agrees_runIf {condition : Fragment} {body : Nat → Fragment}
    {value : Computation V V} {run : Run V} (unique : (Instruction.numbers code).Nodup)
    (placed : Placed code p (Fragment.runIf condition body).code)
    (computes : Computes m code p (p + condition.code.length) k condition.last value)
    (agrees : ∀ {q}, Placed code q (body (condition.next + 1)).code →
      Agrees m code q (q + (body (condition.next + 1)).code.length) run) :
    Agrees m code p (p + (Fragment.runIf condition body).code.length) (.onlyIf m value run) := by
  -- `q` is the place of the jump, and `r` that of the label behind the body
  let q := p + condition.code.length
  let r := q + 1 + (body (condition.next + 1)).code.length
  have rest : Placed code q _ := placed.left.right
  have label : code[r]? = some (.label ⟨condition.next⟩) := by
    have last := placed.right.head
    rw [List.length_append, List.length_cons, ← Nat.add_assoc] at last
    rwa [show r = q + ((body (condition.next + 1)).code.length + 1) by omega]
  have stop : p + (Fragment.runIf condition body).code.length = r + 1 := by
    simp only [Fragment.runIf, List.length_append, List.length_cons, List.length_nil]
    omega
  rw [stop]
  exact .onlyIf (computes.decides rest.head (Instruction.idxOf?_label unique label) label)
    ((agrees rest.tail).thenPass (passes_label label))

/-- A part that repeats while a condition holds, in code that takes no number twice. -/
theorem Fragment.agrees_loop {name : String} {condition update : Fragment} {body : Nat → Fragment}
    {value value' : Computation V V} {run : Run V} (unique : (Instruction.numbers code).Nodup)
    (placed : Placed code p (Fragment.loop name condition update body).code)
    (computes : ∀ {q}, Placed code q condition.code →
      Computes m code q (q + condition.code.length) k condition.last value)
    (updates : ∀ {q}, Placed code q update.code →
      Computes m code q (q + update.code.length) condition.next update.last value')
    (agrees : ∀ {q}, Placed code q (body (update.next + 2)).code →
      Agrees m code q (q + (body (update.next + 2)).code.length) run) :
    Agrees m code p (p + (Fragment.loop name condition update body).code.length)
      (.Repeats m value (.andThen run (.assign name value'))) := by
  simp only [Fragment.loop, List.append_assoc, List.cons_append] at placed
  -- `q` is the place of the conditional jump, `r` that of the update, `r'` that of its store
  let q := p + 1 + condition.code.length
  let r := q + 1 + (body (update.next + 2)).code.length
  let r' := r + update.code.length
  have top := placed.head
  have atCondition := placed.tail
  have atJump : Placed code q _ := atCondition.right
  have atBody := atJump.tail
  have atUpdate : Placed code r _ := atBody.right
  have atStore : Placed code r' _ := atUpdate.right
  have exit := atStore.tail.tail.head
  have stop : p + (Fragment.loop name condition update body).code.length = r' + 3 := by
    simp only [Fragment.loop, List.length_append, List.length_cons, List.length_nil]
    omega
  have decides : Decides m code (p + 1) (q + 1) (r' + 1 + 1 + 1) value :=
    (computes atCondition.left).decides atJump.head (Instruction.idxOf?_label unique exit) exit
  -- a round ends behind the jump back, which leads to the first label
  have round := (agrees atBody.left).andThen (.assign (updates atUpdate.left) atStore.head)
  have back := passes_jump (m := m) atStore.tail.head (Instruction.idxOf?_label unique top)
  rw [stop]
  exact .repeats (decides.behind (passes_label top)) (round.thenPass back)

mutual

/-- The code of a statement does what the statement means. -/
theorem Tree.agrees_lower (unique : (Instruction.numbers code).Nodup) (tree : Tree)
    (statement : tree.isStatement) (legible : tree.Throughout Tree.Legible) (k p : Nat)
    (placed : Placed code p (tree.lower k).code) :
    Agrees m code p (p + (tree.lower k).code.length) (tree.Runs m) := by
  match tree with
  | .number _ | .string _ | .reference _ | .assignment _ _ _ | .binary _ _ _ | .unary _ _ =>
    exact .compute (Tree.computes_lower statement legible placed)
  | .conditional .none _ _ | .conditional (.otherwise _) _ _ | .function _ _ _ _ _ =>
    cases statement
  | .conditional (.guarded condition body _) _ _ =>
    obtain ⟨operand, inside⟩ := Bool.and_eq_true_iff.mp statement
    refine Fragment.agrees_runIf (k := k) unique placed ?_ fun {q} placed' => ?_
    · exact Tree.computes_lower operand
        (legible.child (by simp [Tree.children, Tree.parts, Arms.parts])) placed.left.left
    · exact Tree.agrees_lower unique body inside
        (legible.child (by simp [Tree.children, Tree.parts, Arms.parts])) _ q placed'
  | .whileLoop condition body _ _ =>
    obtain ⟨operand, inside⟩ := Bool.and_eq_true_iff.mp statement
    refine Fragment.agrees_runIf (k := k) unique placed ?_ fun {q} placed' => ?_
    · exact Tree.computes_lower operand
        (legible.child (by simp [Tree.children, Tree.parts])) placed.left.left
    · exact Tree.agrees_lower unique body inside
        (legible.child (by simp [Tree.children, Tree.parts])) _ q placed'
  | .forLoop letStart name initial condition update body _ _ =>
    simp only [Tree.isStatement, Bool.and_eq_true] at statement
    obtain ⟨⟨⟨operand₁, operand₂⟩, operand₃⟩, inside⟩ := statement
    have first : (Tree.assignment letStart name initial).Throughout Tree.Legible :=
      legible.child (by simp [Tree.children, Tree.parts])
    have assigns := Agrees.assign (Tree.computes_lower (m := m) operand₁
      (first.child (by simp [Tree.children, Tree.parts])) placed.left) placed.right.head
    have repeats := Fragment.agrees_loop (m := m) (k := (initial.lower k).next) unique
      placed.right.tail
      (fun placed' => Tree.computes_lower operand₂
        (legible.child (by simp [Tree.children, Tree.parts])) placed')
      (fun placed' => Tree.computes_lower operand₃
        (legible.child (by simp [Tree.children, Tree.parts])) placed')
      (fun {q} placed' => Tree.agrees_lower unique body inside
        (legible.child (by simp [Tree.children, Tree.parts])) _ q placed')
    have both := assigns.andThen repeats
    simpa [Tree.lower, Tree.Runs, Nat.add_assoc, Nat.add_comm 1] using both
  | .call callee arguments stop =>
    cases callee with
    | reference t =>
      have callee : (Tree.reference t).Throughout Tree.Legible :=
        legible.child (by simp [Tree.children, Tree.parts])
      obtain ⟨name, text, -⟩ := callee.self
      have name? : (Tree.reference t).name? = some name := text
      have textOrEmpty : t.textOrEmpty = name := by simp [Token.textOrEmpty, text]
      -- a callee that is a name is called by it and leaves no code
      have lower : Tree.lower (.call (.reference t) arguments stop) k =
          ⟨(Tree.lowerEach arguments k).2.code ++ [.call name (Tree.lowerEach arguments k).1],
            (Tree.lowerEach arguments k).2.next⟩ := by
        simp only [Tree.lower, name?]
      rw [lower] at placed ⊢
      have computes := Tree.computes_lowerEach (m := m) statement
        (fun tree mem => legible.child (by simp [Tree.children, Tree.parts, mem])) placed.left
      have calls := Agrees.call computes placed.right.head
      simpa [Tree.Runs, textOrEmpty, Nat.add_assoc] using calls
    | _ => cases statement
  | .sequence statements _ _ =>
    exact Tree.agrees_lowerEach unique statements statement
      (fun tree mem => legible.child (by simpa [Tree.children, Tree.parts] using mem)) k p placed

/-- The code of statements in turn does what they mean in turn. -/
theorem Tree.agrees_lowerEach (unique : (Instruction.numbers code).Nodup) (trees : List Tree)
    (statements : Tree.areStatements trees)
    (legible : ∀ tree ∈ trees, tree.Throughout Tree.Legible) (k p : Nat)
    (placed : Placed code p (Tree.lowerEach trees k).2.code) :
    Agrees m code p (p + (Tree.lowerEach trees k).2.code.length) (Tree.RunsEach m trees) := by
  match trees with
  | [] => exact .nothing
  | tree :: others =>
    obtain ⟨statement, further⟩ := Bool.and_eq_true_iff.mp statements
    have first := Tree.agrees_lower unique tree statement (legible tree List.mem_cons_self)
      k p placed.left
    have rest := Tree.agrees_lowerEach unique others further
      (fun u mem => legible u (List.mem_cons_of_mem _ mem)) _ _ placed.right
    simpa [Tree.lowerEach, Tree.RunsEach, Nat.add_assoc] using first.andThen rest

end

/-- What the code of a legible statement comes to is what the statement may do. -/
theorem Tree.runs_iff_ends {root : Tree} (statement : root.isStatement)
    (legible : root.Throughout Tree.Legible) (temps : Temp → V) (s s' : Store V)
    (events : List (Event V)) :
    root.Runs m s s' events ↔ Machine.Ends m root.code temps s s' events := by
  have agrees : Agrees m root.code 0 root.code.length (root.Runs m) := by
    have whole := root.agrees_lower (m := m) root.nodup_numbers_code statement legible 0 0
      (root.code_eq ▸ .refl root.code)
    rwa [Nat.zero_add, ← root.code_eq] at whole
  constructor
  · intro runs
    exact agrees.forwards runs temps []
  · rintro ⟨n, temps', reaches⟩
    have stopped : step? m root.code ⟨root.code.length, temps', s', events⟩ = none :=
      step?_of_length_le (Nat.le_refl _)
    obtain ⟨s₁, events₁, temps₁, n', runs, -, rest⟩ := agrees.backwards stopped reaches
    -- at the end of the code a run takes no more steps
    cases n' with
    | zero =>
      cases rest
      exact runs
    | succ n' =>
      rw [steps, step?_of_length_le (Nat.le_refl _)] at rest
      cases rest

/-- The code of a source does what its tree means, whatever values there are and whatever
literals and operators mean. The machine ends with a store and calls exactly where the tree may
lead to them, and it goes on for ever exactly where the tree leads nowhere; in particular it is
never stuck. -/
theorem Source.code_refines_meaning {source : Source} {root : Tree}
    (parsed : source.tree = .ok root) (statement : root.isStatement) (m : Meaning V)
    (temps : Temp → V) (s : Store V) :
    (∀ s' events, root.Runs m s s' events ↔ Machine.Ends m root.code temps s s' events) ∧
    ((∀ s' events, ¬ root.Runs m s s' events) ↔ Machine.GoesOn m root.code temps s) := by
  have legible := Source.legible_tree parsed
  have runs_iff (s' : Store V) (events : List (Event V)) :=
    Tree.runs_iff_ends (m := m) statement legible temps s s' events
  have plain : Plain root.code := root.code_eq ▸ root.plain_lower statement 0
  refine ⟨runs_iff, ?_⟩
  rw [Machine.goesOn_iff plain root.linked_code]
  simp only [runs_iff]

end

/-- Natural numbers, with sums and comparisons. -/
def Meaning.naturals : Meaning Nat where
  literal text := Text.digitsValue text.toList
  binary operator a b :=
    if operator = "+" then a + b
    else if operator = "<" ∧ a < b then 1 else 0
  not a := if a = 0 then 1 else 0
  negate _ := 0
  truthy a := a != 0

/-- A loop with a call in each of its two rounds. -/
def Source.counting : Source := ⟨"", "for (let i = 0, i < 2, i + 1) \x7b print(i) \x7d"⟩

/-- What the machine does with the code of a loop is what the loop means. -/
theorem Source.code_refines_meaning_counting :
    ∃ root s', Source.counting.tree = .ok root ∧ root.isStatement ∧
      root.Runs Meaning.naturals (fun _ => 0) s' [⟨"print", [0]⟩, ⟨"print", [1]⟩] := by
  -- the code runs to its end in thirty-two steps
  have computed : Source.counting.tree.toOption.any (fun root => root.isStatement &&
      (Machine.steps Meaning.naturals root.code 32 (Machine.start (fun _ => 0) fun _ => 0)).any
        fun c => c.position == root.code.length &&
          c.events == [⟨"print", [0]⟩, ⟨"print", [1]⟩]) := by
    decide +kernel
  cases parsed : Source.counting.tree with
  | error e =>
    rw [parsed] at computed
    cases computed
  | ok root =>
    simp only [parsed, Except.toOption, Option.any_some, Bool.and_eq_true] at computed
    obtain ⟨statement, final⟩ := computed
    obtain ⟨c, reaches, atEnd⟩ := (Option.any_eq_true _ _).mp final
    simp only [Bool.and_eq_true, beq_iff_eq] at atEnd
    have ends : Machine.Ends Meaning.naturals root.code (fun _ => 0) (fun _ => 0) c.store
        [⟨"print", [0]⟩, ⟨"print", [1]⟩] := by
      refine ⟨32, c.temps, ?_⟩
      rw [reaches, ← atEnd.1, ← atEnd.2]
    have refines := Source.code_refines_meaning parsed statement Meaning.naturals (fun _ => 0)
      fun _ => 0
    exact ⟨root, c.store, rfl, statement, (refines.1 c.store _).mpr ends⟩

end Scriptlet
