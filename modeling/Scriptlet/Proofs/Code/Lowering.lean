import Scriptlet.Code.Generator

/-!
# The code of a part by itself

A generator adds to the code that it holds. What it adds does not depend on that code, only
on the number that is free, and so it can be told of a tree by itself: walking the tree puts
this code behind the code that is there, whatever that is.

## Main definitions

* `Fragment` — the code of a part, and the number that is free after it
* `Tree.lower` — the code of a tree with numbers from a given one on
* `Generator.Adds` — steps that only add a part

## Main results

* `Tree.adds_generate` — walking a tree only adds its code and takes its numbers
* `Generator.add_eq`, `Tree.code_eq` — so for a script behind others, and for one by itself
-/

namespace Scriptlet

/-- The code of a part, and the next number free after it. -/
structure Fragment where
  code : List Instruction
  next : Nat
  deriving DecidableEq, Repr

namespace Fragment

/-- The temporary of the last number taken. -/
def last (f : Fragment) : Temp := ⟨f.next - 1⟩

/-- Loads a value into a temporary. -/
def load (value : String) (k : Nat) : Fragment := ⟨[.load ⟨k⟩ value], k + 1⟩

/-- Runs a body where a condition holds and goes on after it. -/
def runIf (condition : Fragment) (body : Nat → Fragment) : Fragment :=
  let skip : Label := ⟨condition.next⟩
  let body := body (condition.next + 1)
  ⟨condition.code ++ .jumpUnless condition.last skip :: body.code ++ [.label skip], body.next⟩

/-- Runs a body and an update, which becomes the variable's value, as long as a condition
holds. -/
def loop (name : String) (condition update : Fragment) (body : Nat → Fragment) : Fragment :=
  let top : Label := ⟨update.next⟩
  let exit : Label := ⟨update.next + 1⟩
  let body := body (update.next + 2)
  ⟨.label top :: condition.code ++ .jumpUnless condition.last exit :: body.code ++
    update.code ++ [.store name update.last, .jump top, .label exit], body.next⟩

end Fragment

mutual

/-- The code of a tree, with numbers from `k` on. -/
def Tree.lower (tree : Tree) (k : Nat) : Fragment :=
  match tree with
  | .number t => .load ((t.value.map Token.Value.toText).getD "") k
  | .string t => .load ("\"" ++ t.textOrEmpty ++ "\"") k
  | .reference t => .load t.textOrEmpty k
  | .assignment _ name value =>
    let value := value.lower k
    ⟨value.code ++ [.store name.textOrEmpty value.last], value.next⟩
  | .binary left operator right =>
    let left := left.lower k
    let right := right.lower left.next
    ⟨left.code ++ right.code ++
      [.binary ⟨right.next⟩ left.last operator.kind.operatorText right.last], right.next + 1⟩
  | .unary operator operand =>
    let operand := operand.lower k
    match operator.kind with
    | .plus => operand
    | .not => ⟨operand.code ++ [.not ⟨operand.next⟩ operand.last], operand.next + 1⟩
    | _ => ⟨operand.code ++ [.negate ⟨operand.next⟩ operand.last], operand.next + 1⟩
  | .conditional (.guarded condition body _) _ _ => .runIf (condition.lower k) body.lower
  | .conditional _ _ _ => ⟨[], k⟩
  | .forLoop _ name initial condition update body _ _ =>
    let initial := initial.lower k
    let condition := condition.lower initial.next
    let repeated := Fragment.loop name.textOrEmpty condition (update.lower condition.next)
      body.lower
    ⟨initial.code ++ .store name.textOrEmpty initial.last :: repeated.code, repeated.next⟩
  | .whileLoop condition body _ _ => .runIf (condition.lower k) body.lower
  | .function name _ body _ _ =>
    let body := body.lower k
    ⟨.function name.textOrEmpty :: body.code ++ [.return], body.next⟩
  | .call callee arguments _ =>
    match callee.name? with
    | some name =>
      let (temps, arguments) := Tree.lowerEach arguments k
      ⟨arguments.code ++ [.call name temps], arguments.next⟩
    | none =>
      let callee := callee.lower k
      let (temps, arguments) := Tree.lowerEach arguments callee.next
      ⟨callee.code ++ arguments.code ++ [.call callee.last.toText temps], arguments.next⟩
  | .sequence statements _ _ => (Tree.lowerEach statements k).2

/-- The code of trees in turn, with the temporary that is last after each. -/
def Tree.lowerEach (trees : List Tree) (k : Nat) : List Temp × Fragment :=
  match trees with
  | [] => ([], ⟨[], k⟩)
  | tree :: others =>
    let first := tree.lower k
    let (temps, rest) := Tree.lowerEach others first.next
    (first.last :: temps, ⟨first.code ++ rest.code, rest.next⟩)

end

namespace Generator

variable {α β : Type} (g : Generator)

/-- The generator with the code of a part behind its own. -/
def append (f : Fragment) : Generator := ⟨f.next, g.code ++ f.code⟩

@[simp] theorem append_next (f : Fragment) : (g.append f).next = f.next := rfl

@[simp] theorem append_code (f : Fragment) : (g.append f).code = g.code ++ f.code := rfl

/-! ### What the steps do -/

@[simp] theorem pure_apply (a : α) : (pure a : StateM Generator α) g = (a, g) := rfl

@[simp] theorem bind_apply (step : StateM Generator α) (further : α → StateM Generator β) :
    (step >>= further) g = further (step g).1 (step g).2 := rfl

@[simp] theorem map_apply (f : α → β) (step : StateM Generator α) :
    (f <$> step) g = (f (step g).1, (step g).2) := rfl

@[simp] theorem discard_apply (step : StateM Generator α) :
    (discard step) g = ((), (step g).2) := rfl

@[simp] theorem takeNumber_apply : takeNumber g = (g.next, ⟨g.next + 1, g.code⟩) := rfl

@[simp] theorem last_apply : last g = (⟨g.next - 1⟩, g) := rfl

@[simp] theorem emit_apply (i : Instruction) : emit i g = ((), ⟨g.next, g.code ++ [i]⟩) := rfl

@[simp] theorem emitAll_apply (code : List Instruction) :
    emitAll code g = ((), ⟨g.next, g.code ++ code⟩) := rfl

/-- Loading a value takes the number that is free. -/
theorem load_apply (value : String) : load value g = ((), g.append (.load value g.next)) := rfl

/-! ### Steps that only add a part -/

/-- A step adds a part behind the code that is there, and takes its numbers. -/
def Adds (step : StateM Generator Unit) (part : Nat → Fragment) : Prop :=
  ∀ g : Generator, step g = ((), g.append (part g.next))

namespace Adds

variable {step condition update body : StateM Generator Unit}
  {part conditionPart updatePart bodyPart : Nat → Fragment}

theorem apply (h : Adds step part) : step g = ((), g.append (part g.next)) := h g

/-- On the side, a step hands over its part and leaves the code as it was. -/
theorem detached_apply (h : Adds step part) :
    detached step g = ((part g.next).code, ⟨(part g.next).next, g.code⟩) := by
  -- with an empty code in front, what is added is all there is
  have aside : step ⟨g.next, []⟩ = ((), ⟨(part g.next).next, (part g.next).code⟩) := h.apply _
  have unfolded : detached step g =
      ((step ⟨g.next, []⟩).2.code, ⟨(step ⟨g.next, []⟩).2.next, g.code⟩) := rfl
  rw [unfolded, aside]

/-- The label behind a condition takes the number after those of the condition. -/
theorem runIf (first : Adds condition conditionPart) (second : Adds body bodyPart) :
    Adds (Generator.runIf condition body) fun k => .runIf (conditionPart k) bodyPart := by
  intro g
  simp [Generator.runIf, first.apply, second.apply, append, Fragment.runIf, Fragment.last]

/-- A condition and an update that are walked on the side take their numbers before the labels and
the body, wherever their code ends up. -/
theorem loop (name : String) (first : Adds condition conditionPart)
    (second : Adds update updatePart) (third : Adds body bodyPart) :
    Adds (Generator.loop name condition update body) fun k =>
      .loop name (conditionPart k) (updatePart (conditionPart k).next) bodyPart := by
  intro g
  simp [Generator.loop, first.detached_apply, second.detached_apply, third.apply, append,
    Fragment.loop, Fragment.last]

end Adds

end Generator

open Generator in
mutual

/-- Walking a tree only adds its code and takes its numbers. -/
theorem Tree.adds_generate : (tree : Tree) → Adds tree.generate tree.lower
  | .number _ | .string _ | .reference _ => fun g => by
    rw [Tree.generate, Tree.lower, load_apply]
  | .assignment _ name value => fun g => by
    simp [Tree.generate, Tree.lower, value.adds_generate.apply, append, Fragment.last]
  | .binary left operator right => fun g => by
    simp [Tree.generate, Tree.lower, left.adds_generate.apply, right.adds_generate.apply, append,
      Fragment.last]
  | .unary operator operand => fun g => by
    simp only [Tree.generate, Tree.lower, bind_apply, operand.adds_generate.apply, last_apply]
    split <;> simp [*, append, Fragment.last]
  | .conditional (.guarded condition body _) _ _ =>
    condition.adds_generate.runIf body.adds_generate
  | .conditional .none _ _ | .conditional (.otherwise _) _ _ => fun g => by
    simp [Tree.generate, Tree.lower, append]
  | .forLoop _ name initial condition update body _ _ => fun g => by
    -- the loop stands behind its initial value, with the numbers from there on
    have repeated := condition.adds_generate.loop name.textOrEmpty update.adds_generate
      body.adds_generate
    simp [Tree.generate, Tree.lower, initial.adds_generate.apply, repeated.apply, append,
      Fragment.last]
  | .whileLoop condition body _ _ => condition.adds_generate.runIf body.adds_generate
  | .function name _ body _ _ => fun g => by
    simp [Tree.generate, Tree.lower, body.adds_generate.apply, append]
  | .call callee arguments _ => fun g => by
    cases named : callee.name? with
    | some name =>
      simp [Tree.generate, Tree.lower, named, Tree.generateEach_apply arguments, append]
    | none =>
      simp [Tree.generate, Tree.lower, named, callee.adds_generate.apply,
        Tree.generateEach_apply arguments, append, Fragment.last]
  | .sequence statements _ _ => fun g => by
    simp [Tree.generate, Tree.lower, Tree.generateEach_apply statements]

/-- Walking trees in turn adds their code and gives the temporary that is last after each. -/
theorem Tree.generateEach_apply : (trees : List Tree) → (g : Generator) →
    Tree.generateEach trees g =
      ((Tree.lowerEach trees g.next).1, g.append (Tree.lowerEach trees g.next).2)
  | [], g => by simp [Tree.generateEach, Tree.lowerEach, append]
  | tree :: others, g => by
    simp [Tree.generateEach, Tree.lowerEach, tree.adds_generate.apply,
      Tree.generateEach_apply others, append, Fragment.last]

end

/-- A script goes behind the code that is there, with numbers on from those taken. -/
theorem Generator.add_eq (g : Generator) (tree : Tree) :
    g.add tree = g.append (tree.lower g.next) :=
  congrArg Prod.snd (tree.adds_generate.apply g)

/-- The code of a script by itself has numbers from zero on. -/
theorem Tree.code_eq (tree : Tree) : tree.code = (tree.lower 0).code := by
  rw [Tree.code, Generator.add_eq]
  rfl

end Scriptlet
