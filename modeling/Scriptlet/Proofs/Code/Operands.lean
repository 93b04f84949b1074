import Scriptlet.Tree.Parts
import Scriptlet.Compiling
import Scriptlet.Proofs.Code.Numbers

/-!
# What instructions read

Code does not say where a part has left its value: whatever goes on with the value reads the
temporary of the last number that the part took. Most parts take their last number for what they
compute. A call takes none of its own, and where the body of a conditional or a loop computes
nothing, the last number is that of a label. Only then does an instruction read what its operand
has not written.

## Main definitions

* `Instruction.reads` — the temporaries that an instruction reads
* `Operand`, `Tree.uses` — the parts whose values the instructions of a tree's code go on with

## Main results

* `Tree.fed_uses` — each instruction reads the last temporaries of its operands, whose code
  stands before it
-/

namespace Scriptlet

/-- The temporaries that an instruction reads, in the order in which it names them. -/
def Instruction.reads : Instruction → List Temp
  | store _ source => [source]
  | binary _ left _ right => [left, right]
  | not _ operand | negate _ operand => [operand]
  | jumpUnless condition _ => [condition]
  | call _ arguments => arguments
  | _ => []

/-- A part of a tree whose value is needed, and the counter from which its code is numbered. -/
structure Operand where
  role : Role
  tree : Tree
  start : Nat

namespace Operand

/-- The code of an operand. -/
def code (o : Operand) : List Instruction := (o.tree.lower o.start).code

/-- The temporary that stands for the value of an operand. -/
def last (o : Operand) : Temp := (o.tree.lower o.start).last

/-- The arguments of a call as operands, where the first is numbered from `k` on. -/
def ofArguments : List Tree → Nat → List Operand
  | [], _ => []
  | tree :: others, k => ⟨.argument, tree, k⟩ :: ofArguments others (tree.lower k).next

end Operand

mutual

/-- For each instruction in the code of a tree, in turn, the parts whose values it goes on
with. -/
def Tree.uses (tree : Tree) (k : Nat) : List (List Operand) :=
  match tree with
  | .number _ | .string _ | .reference _ => [[]]
  | .assignment _ _ value => value.uses k ++ [[⟨.value, value, k⟩]]
  | .binary left _ right =>
    let middle := (left.lower k).next
    left.uses k ++ right.uses middle ++ [[⟨.left, left, k⟩, ⟨.right, right, middle⟩]]
  | .unary operator operand =>
    if operator.kind = .plus then operand.uses k
    else operand.uses k ++ [[⟨.operand, operand, k⟩]]
  | .conditional (.guarded condition body _) _ _ | .whileLoop condition body _ _ =>
    condition.uses k ++
      [⟨.condition, condition, k⟩] :: body.uses ((condition.lower k).next + 1) ++ [[]]
  | .conditional _ _ _ => []
  | .forLoop _ _ initial condition update body _ _ =>
    let k₁ := (initial.lower k).next
    let k₂ := (condition.lower k₁).next
    let k₃ := (update.lower k₂).next
    initial.uses k ++ [⟨.initial, initial, k⟩] ::
      ([] :: condition.uses k₁ ++ [⟨.condition, condition, k₁⟩] :: body.uses (k₃ + 2) ++
        update.uses k₂ ++ [[⟨.update, update, k₂⟩], [], []])
  | .function _ _ body _ _ => [] :: body.uses k ++ [[]]
  | .call callee arguments _ =>
    match callee.name? with
    | some _ => Tree.usesEach arguments k ++ [Operand.ofArguments arguments k]
    | none =>
      let middle := (callee.lower k).next
      callee.uses k ++ Tree.usesEach arguments middle ++
        [⟨.callee, callee, k⟩ :: Operand.ofArguments arguments middle]
  | .sequence statements _ _ => Tree.usesEach statements k

/-- What the instructions go on with in the code of trees in turn. -/
def Tree.usesEach (trees : List Tree) (k : Nat) : List (List Operand) :=
  match trees with
  | [] => []
  | tree :: others => tree.uses k ++ Tree.usesEach others (tree.lower k).next

end

/-- An instruction reads the temporaries of these operands. One that is called stands in the
instruction as text. -/
structure Instruction.Takes (i : Instruction) (operands : List Operand) : Prop where
  reads_eq : i.reads = (operands.filter (·.role != .callee)).map Operand.last
  callee : ∀ o ∈ operands, o.role = .callee → ∃ temps, i = .call o.last.toText temps

/-- Each instruction takes its operands, whose code stands before it; `before` is what stands
before the first. -/
def Fed (before : List Instruction) : List Instruction → List (List Operand) → Prop
  | [], [] => True
  | i :: code, operands :: uses =>
    (i.Takes operands ∧ ∀ o ∈ operands, o.code <:+: before) ∧ Fed (before ++ [i]) code uses
  | _, _ => False

namespace Fed

variable {before code code' : List Instruction} {uses uses' : List (List Operand)}
  {i : Instruction} {operands : List Operand}

theorem append (h : Fed before code uses) (h' : Fed (before ++ code) code' uses') :
    Fed before (code ++ code') (uses ++ uses') := by
  induction code generalizing before uses with
  | nil =>
    cases uses with
    | nil => simpa using h'
    | cons => cases h
  | cons i code ih =>
    cases uses with
    | nil => cases h
    | cons operands uses => exact ⟨h.1, ih h.2 (by simpa using h')⟩

theorem single (takes : i.Takes operands) (stands : ∀ o ∈ operands, o.code <:+: before) :
    Fed before [i] [operands] :=
  ⟨⟨takes, stands⟩, trivial⟩

/-- An instruction with no operands may stand anywhere. -/
theorem alone (reads : i.reads = []) : Fed before [i] [[]] :=
  single ⟨by simpa using reads, by simp⟩ (by simp)

/-- What is said of all instructions holds of each. -/
theorem get (h : Fed before code uses) {n : Nat} (here : code[n]? = some i) :
    ∃ operands, uses[n]? = some operands ∧ i.Takes operands ∧
      ∀ o ∈ operands, o.code <:+: before ++ code.take n := by
  induction code generalizing before uses n with
  | nil => simp at here
  | cons j code ih =>
    cases uses with
    | nil => cases h
    | cons operands uses =>
      obtain ⟨⟨takes, stands⟩, rest⟩ := h
      cases n with
      | zero =>
        obtain rfl : j = i := by simpa using here
        exact ⟨operands, rfl, takes, by simpa using stands⟩
      | succ n => simpa using ih rest (by simpa using here)

end Fed

/-! ### Operands of a tree -/

/-- The last temporaries of arguments are those that a call names. -/
theorem Operand.map_last_ofArguments (arguments : List Tree) (k : Nat) :
    (Operand.ofArguments arguments k).map Operand.last = (Tree.lowerEach arguments k).1 := by
  induction arguments generalizing k with
  | nil => rfl
  | cons tree others ih => simp [ofArguments, Tree.lowerEach, ih, last]

theorem Operand.role_of_mem_ofArguments {arguments : List Tree} {k : Nat} {o : Operand}
    (mem : o ∈ Operand.ofArguments arguments k) : o.role = .argument := by
  induction arguments generalizing k with
  | nil => cases mem
  | cons tree others ih =>
    rcases List.mem_cons.mp mem with rfl | mem
    · rfl
    · exact ih mem

/-- The code of each argument is part of the code of all. -/
theorem Operand.code_isInfix_of_mem_ofArguments {arguments : List Tree} {k : Nat} {o : Operand}
    (mem : o ∈ Operand.ofArguments arguments k) :
    o.code <:+: (Tree.lowerEach arguments k).2.code := by
  induction arguments generalizing k with
  | nil => cases mem
  | cons tree others ih =>
    rcases List.mem_cons.mp mem with rfl | mem
    · exact (List.prefix_append _ _).isInfix
    · exact (ih mem).trans (List.suffix_append _ _).isInfix

/-- A call by name reads the temporaries of its arguments. -/
theorem Operand.takes_ofArguments (name : String) (arguments : List Tree) (k : Nat) :
    (Instruction.call name (Tree.lowerEach arguments k).1).Takes
      (Operand.ofArguments arguments k) := by
  have role (o : Operand) (mem : o ∈ Operand.ofArguments arguments k) := role_of_mem_ofArguments mem
  refine ⟨?_, fun o mem callee => ?_⟩
  · rw [List.filter_eq_self.mpr fun o mem => by simp [role o mem], map_last_ofArguments]
    rfl
  · rw [role o mem] at callee
    cases callee

/-- A sign `+` leaves no instruction of its own; another leaves one, which reads the value of the
operand. -/
theorem Tree.lower_unary (operator : Token) (operand : Tree) (k : Nat) :
    (operator.kind = .plus ∧ (Tree.unary operator operand).lower k = operand.lower k) ∨
    (operator.kind ≠ .plus ∧ ∃ i : Instruction, i.dest? = some ⟨(operand.lower k).next⟩ ∧
      i.reads = [(operand.lower k).last] ∧ (Tree.unary operator operand).lower k =
        ⟨(operand.lower k).code ++ [i], (operand.lower k).next + 1⟩) := by
  rw [Tree.lower]
  split
  · next isPlus => exact .inl ⟨isPlus, rfl⟩
  · next isNot => exact .inr ⟨by rw [isNot]; decide, _, rfl, rfl, rfl⟩
  · next notPlus _ => exact .inr ⟨notPlus, _, rfl, rfl, rfl⟩

namespace Fed

variable {before code : List Instruction} {uses : List (List Operand)} {i : Instruction}

/-- An instruction with one operand, whose code is the last that stands before it. -/
theorem andTake (h : Fed before code uses) (role : Role) (called : role ≠ .callee)
    {tree : Tree} {k : Nat} (reads : i.reads = [(tree.lower k).last])
    (stands : (tree.lower k).code <:+ code) :
    Fed before (code ++ [i]) (uses ++ [[⟨role, tree, k⟩]]) := by
  refine h.append (.single ⟨by simp [called, reads, Operand.last], by simp [called]⟩ ?_)
  exact List.forall_mem_singleton.mpr (stands.trans (List.suffix_append _ _)).isInfix

theorem andAlone (h : Fed before code uses) (reads : i.reads = []) :
    Fed before (code ++ [i]) (uses ++ [[]]) :=
  h.append (.alone reads)

end Fed

mutual

/-- Each instruction in the code of a tree takes its operands. -/
theorem Tree.fed_uses (tree : Tree) (k : Nat) (before : List Instruction) :
    Fed before (tree.lower k).code (tree.uses k) := by
  match tree with
  | .number _ | .string _ | .reference _ => exact .alone rfl
  | .assignment _ _ value =>
    exact (Tree.fed_uses value k before).andTake .value (by decide) rfl List.suffix_rfl
  | .binary left _ right =>
    have operands := (Tree.fed_uses left k before).append
      (Tree.fed_uses right (left.lower k).next _)
    refine operands.append (.single ⟨rfl, by simp⟩ (List.forall_mem_cons.mpr ⟨?_, ?_⟩))
    · exact ⟨before, (right.lower (left.lower k).next).code, by simp [Operand.code]⟩
    · refine List.forall_mem_singleton.mpr ⟨before ++ (left.lower k).code, [], ?_⟩
      simp [Operand.code]
  | .unary operator operand =>
    have inside := Tree.fed_uses operand k before
    rcases Tree.lower_unary operator operand k with ⟨isPlus, eq⟩ | ⟨notPlus, i, -, reads, eq⟩
    · rw [eq, Tree.uses, if_pos isPlus]
      exact inside
    · rw [eq, Tree.uses, if_neg notPlus]
      exact inside.andTake .operand (by decide) reads List.suffix_rfl
  | .conditional .none _ _ | .conditional (.otherwise _) _ _ => trivial
  | .conditional (.guarded condition body _) _ _ | .whileLoop condition body _ _ =>
    have jump := (Tree.fed_uses condition k before).andTake .condition (by decide)
      (i := .jumpUnless (condition.lower k).last ⟨(condition.lower k).next⟩) rfl List.suffix_rfl
    have whole := (jump.append (Tree.fed_uses body ((condition.lower k).next + 1) _)).andAlone
      (i := .label ⟨(condition.lower k).next⟩) rfl
    simpa [Tree.lower, Tree.uses, Fragment.runIf] using whole
  | .forLoop _ name initial condition update body _ _ =>
    -- numbered as initial value, condition, update and body, but written with the update last
    let k₁ := (initial.lower k).next
    let k₂ := (condition.lower k₁).next
    let k₃ := (update.lower k₂).next
    have first := (Tree.fed_uses initial k before).andTake .initial (by decide)
      (i := .store name.textOrEmpty (initial.lower k).last) rfl List.suffix_rfl
    have top := first.andAlone (i := .label ⟨k₃⟩) rfl
    have jump := (top.append (Tree.fed_uses condition k₁ _)).andTake .condition (by decide)
      (i := .jumpUnless (condition.lower k₁).last ⟨k₃ + 1⟩) rfl (List.suffix_append _ _)
    have round := jump.append (Tree.fed_uses body (k₃ + 2) _)
    have store := (round.append (Tree.fed_uses update k₂ _)).andTake .update (by decide)
      (i := .store name.textOrEmpty (update.lower k₂).last) rfl (List.suffix_append _ _)
    have whole := (store.andAlone (i := .jump ⟨k₃⟩) rfl).andAlone (i := .label ⟨k₃ + 1⟩) rfl
    simpa [Tree.lower, Tree.uses, Fragment.loop, k₁, k₂, k₃] using whole
  | .function name _ body _ _ =>
    have opening : Fed before [.function name.textOrEmpty] [[]] := .alone rfl
    exact (opening.append (Tree.fed_uses body k _)).andAlone (i := .return) rfl
  | .call callee arguments _ =>
    cases named : callee.name? with
    | some name =>
      simp only [Tree.lower, Tree.uses, named]
      refine (Tree.fed_usesEach arguments k before).append
        (.single (Operand.takes_ofArguments name arguments k) fun o mem => ?_)
      exact (Operand.code_isInfix_of_mem_ofArguments mem).trans (List.suffix_append _ _).isInfix
    | none =>
      simp only [Tree.lower, Tree.uses, named]
      -- the callee stands before the arguments and is one of the operands
      let middle := (callee.lower k).next
      have parts := (Tree.fed_uses callee k before).append
        (Tree.fed_usesEach arguments middle _)
      have takes := Operand.takes_ofArguments (callee.lower k).last.toText arguments middle
      have called : (Instruction.call (callee.lower k).last.toText
          (Tree.lowerEach arguments middle).1).Takes
          (⟨.callee, callee, k⟩ :: Operand.ofArguments arguments middle) := by
        refine ⟨by simpa using takes.reads_eq, List.forall_mem_cons.mpr ⟨fun _ => ⟨_, rfl⟩, ?_⟩⟩
        exact takes.callee
      refine parts.append (.single called (List.forall_mem_cons.mpr ⟨?_, fun o mem => ?_⟩))
      · exact ⟨before, (Tree.lowerEach arguments middle).2.code, by simp [Operand.code]⟩
      · have inside := Operand.code_isInfix_of_mem_ofArguments mem
        exact inside.trans ((List.suffix_append _ _).trans (List.suffix_append _ _)).isInfix
  | .sequence statements _ _ => exact Tree.fed_usesEach statements k before

theorem Tree.fed_usesEach (trees : List Tree) (k : Nat) (before : List Instruction) :
    Fed before (Tree.lowerEach trees k).2.code (Tree.usesEach trees k) := by
  match trees with
  | [] => trivial
  | tree :: others => exact (Tree.fed_uses tree k before).append (Tree.fed_usesEach others _ _)

end

theorem Tree.fed_code (root : Tree) : Fed [] root.code (root.uses 0) := by
  rw [root.code_eq]
  exact root.fed_uses 0 []

end Scriptlet
