import Scriptlet.Proofs.Code.Lowering

/-!
# What scripts mean

The meaning of scripts that only compute, loop and call, over any values: what a literal
denotes, what the operators do to values and which values count as true are left open. As in
the code of a script, a conditional has one arm, and a `while` loop runs once or not at all.

## Main definitions

* `Meaning`, `Store`, `Event` — what literals and operators mean, the values of variables, and
  a call as it is seen from outside
* `Tree.eval` — what a tree computes
* `Tree.Runs` — what a tree does, from one store to another
* `Tree.isOperand`, `Tree.isStatement` — the trees that have such a meaning
-/

namespace Scriptlet

universe u

/-- What literals and operators mean. A literal is known by its text, and an operator by the
way it is written in code. -/
structure Meaning (V : Type u) where
  literal : String → V
  binary : String → V → V → V
  not : V → V
  negate : V → V
  truthy : V → Bool

/-- The values of variables. -/
abbrev Store (V : Type u) : Type u := String → V

/-- A call, by the name of what is called and the values of the arguments. -/
structure Event (V : Type u) where
  callee : String
  arguments : List V
  deriving DecidableEq, Repr

/-- From a store a value and the store afterwards, where there is a value. -/
abbrev Computation (V : Type u) (α : Type u) : Type u := Store V → Option (α × Store V)

/-- What may happen between two stores, with the calls in their order. -/
abbrev Run (V : Type u) : Type u := Store V → Store V → List (Event V) → Prop

variable {V : Type u}

/-- The store with another value for one variable. -/
def Store.set (s : Store V) (name : String) (v : V) : Store V :=
  fun other => if other = name then v else s other

/-- What an operator in front of its operand means. -/
def Meaning.unary (m : Meaning V) (kind : Token.Kind) (v : V) : V :=
  match kind with
  | .plus => v
  | .not => m.not v
  | _ => m.negate v

/-! ### Computing -/

/-- The text by which the meaning of a number is known. -/
def Token.numberText (t : Token) : String := (t.value.map Token.Value.toText).getD ""

/-- What a tree computes: operands from the left to the right, all of them, and an assignment
has the value that it assigns. Trees that do more than compute have no value. -/
def Tree.eval (m : Meaning V) (tree : Tree) (s : Store V) : Option (V × Store V) :=
  match tree with
  | .number t => some (m.literal t.numberText, s)
  | .string t => some (m.literal ("\"" ++ t.textOrEmpty ++ "\""), s)
  | .reference t => some (s t.textOrEmpty, s)
  | .assignment _ name value => do
    let (v, s) ← value.eval m s
    return (v, s.set name.textOrEmpty v)
  | .binary left operator right => do
    let (v, s) ← left.eval m s
    let (w, s) ← right.eval m s
    return (m.binary operator.kind.operatorText v w, s)
  | .unary operator operand => do
    let (v, s) ← operand.eval m s
    return (m.unary operator.kind v, s)
  -- conditionals, loops, functions, calls and sequences have no value
  | _ => none

/-- What trees compute in turn. -/
def Tree.evalEach (m : Meaning V) : List Tree → Computation V (List V)
  | [], s => some ([], s)
  | tree :: others, s => do
    let (v, s) ← tree.eval m s
    let (vs, s) ← Tree.evalEach m others s
    return (v :: vs, s)

/-! ### Running -/

namespace Run

/-- Nothing happens. -/
def nothing : Run V := fun s s' events => s' = s ∧ events = []

/-- One run after another. -/
def andThen (first second : Run V) : Run V := fun s s' events =>
  ∃ s₁ events₁ events₂, first s s₁ events₁ ∧ second s₁ s' events₂ ∧ events = events₁ ++ events₂

/-- A value is computed and not used. -/
def compute (value : Computation V V) : Run V := fun s s' events =>
  ∃ v, value s = some (v, s') ∧ events = []

/-- A value is computed and becomes that of a variable. -/
def assign (name : String) (value : Computation V V) : Run V := fun s s' events =>
  ∃ v s₁, value s = some (v, s₁) ∧ s' = s₁.set name v ∧ events = []

/-- Arguments are computed, and something is called with them. -/
def call (callee : String) (arguments : Computation V (List V)) : Run V := fun s s' events =>
  ∃ vs, arguments s = some (vs, s') ∧ events = [⟨callee, vs⟩]

/-- The body runs once if the condition holds. -/
def onlyIf (m : Meaning V) (condition : Computation V V) (body : Run V) : Run V :=
  fun s s' events => ∃ v s₁, condition s = some (v, s₁) ∧
    if m.truthy v then body s₁ s' events else s' = s₁ ∧ events = []

/-- Rounds follow one another until the condition fails before one of them. -/
inductive Repeats (m : Meaning V) (condition : Computation V V) (round : Run V) : Run V
  | done {s s' : Store V} {v : V} :
    condition s = some (v, s') → m.truthy v = false → Repeats m condition round s s' []
  | again {s s₁ s₂ s' : Store V} {v : V} {events events' : List (Event V)} :
    condition s = some (v, s₁) → m.truthy v = true → round s₁ s₂ events →
      Repeats m condition round s₂ s' events' →
      Repeats m condition round s s' (events ++ events')

end Run

mutual

/-- What a tree does. A `for` loop assigns to its variable once before the rounds and once at
the end of each. -/
def Tree.Runs (m : Meaning V) (tree : Tree) : Run V :=
  match tree with
  -- later arms are ignored
  | .conditional (.guarded condition body _) _ _ => .onlyIf m (condition.eval m) (body.Runs m)
  | .whileLoop condition body _ _ => .onlyIf m (condition.eval m) (body.Runs m)
  | .forLoop _ name initial condition update body _ _ =>
    .andThen (.assign name.textOrEmpty (initial.eval m))
      (.Repeats m (condition.eval m)
        (.andThen (body.Runs m) (.assign name.textOrEmpty (update.eval m))))
  | .call (.reference t) arguments _ => .call t.textOrEmpty (Tree.evalEach m arguments)
  | .sequence statements _ _ => Tree.RunsEach m statements
  | tree => .compute (tree.eval m)

/-- What trees do in turn. -/
def Tree.RunsEach (m : Meaning V) (trees : List Tree) : Run V :=
  match trees with
  | [] => .nothing
  | tree :: others => .andThen (tree.Runs m) (Tree.RunsEach m others)

end

/-! ### The trees with a meaning -/

/-- Whether a tree only computes, with no numbers but integers. -/
def Tree.isOperand : Tree → Bool
  | .number t => t.kind == .int
  | .string _ | .reference _ => true
  | .assignment _ _ value => value.isOperand
  | .binary left _ right => left.isOperand && right.isOperand
  | .unary _ operand => operand.isOperand
  | _ => false

mutual

/-- Whether a tree computes, loops, calls something by its name with computed arguments, or
does such things in turn. Later arms of a conditional may be anything. -/
def Tree.isStatement : Tree → Bool
  | .conditional (.guarded condition body _) _ _ => condition.isOperand && body.isStatement
  | .whileLoop condition body _ _ => condition.isOperand && body.isStatement
  | .forLoop _ _ initial condition update body _ _ =>
    initial.isOperand && condition.isOperand && update.isOperand && body.isStatement
  | .call (.reference _) arguments _ => arguments.all Tree.isOperand
  | .sequence statements _ _ => Tree.areStatements statements
  | tree => tree.isOperand

/-- Whether all trees are statements. -/
def Tree.areStatements : List Tree → Bool
  | [] => true
  | tree :: others => tree.isStatement && Tree.areStatements others

end

end Scriptlet
