import Scriptlet.Tree.Basic
import Scriptlet.Code.Instruction

/-!
# From trees to code

A generator holds the code so far and a counter. It walks a tree and adds one instruction
after another. Temporaries and labels take their numbers from the one counter, in the order
in which the tree is walked; a value that code has computed is in the temporary of the last
number taken.

A conditional runs the body of its first arm or nothing, and a `while` loop runs its body
once or not at all. Only a `for` loop repeats: its condition and its update are numbered
before its body, and the code of the update stands after the body.

## Main definitions

* `Generator` — the code so far, and the next number that is free
* `Generator.takeNumber`, `Generator.emit`, `Generator.detached` — the steps that walking a
  tree is made of
* `Tree.generate` — walks a tree
* `Generator.add` — adds the code of a script to that of others
* `Tree.code` — the code of a whole script
-/

namespace Scriptlet

/-- How a binary operator is written in code. Kinds that join no operands become `%`. -/
def Token.Kind.operatorText : Token.Kind → String
  | .minus => "-"
  | .plus => "+"
  | .divide => "/"
  | .times => "*"
  | .equal => "=="
  | .greater => ">"
  | .greaterEqual => ">="
  | .less => "<"
  | .lessEqual => "<="
  | .notEqual => "!="
  | .and => "&&"
  | .or => "||"
  | _ => "%"

/-- The code so far, and the next number that is free. -/
structure Generator where
  next : Nat
  code : List Instruction
  deriving DecidableEq, Repr

namespace Generator

/-- No code yet. -/
def empty : Generator := ⟨0, []⟩

/-! ### Steps -/

/-- Takes the next number. -/
def takeNumber : StateM Generator Nat :=
  modifyGet fun g => (g.next, { g with next := g.next + 1 })

/-- The temporary of the last number taken. -/
def last : StateM Generator Temp := return ⟨(← get).next - 1⟩

/-- Adds an instruction. -/
def emit (i : Instruction) : StateM Generator Unit :=
  modify fun g => { g with code := g.code ++ [i] }

/-- Adds code that was made on the side. -/
def emitAll (code : List Instruction) : StateM Generator Unit :=
  modify fun g => { g with code := g.code ++ code }

/-- Takes a step on the side. Its code is handed over and not added; the counter is the one
counter all the same. -/
def detached (step : StateM Generator Unit) : StateM Generator (List Instruction) := do
  let outer := (← get).code
  modify fun g => { g with code := [] }
  step
  let inner := (← get).code
  modify fun g => { g with code := outer }
  return inner

/-- Loads a value into the next temporary. -/
def load (value : String) : StateM Generator Unit := do
  emit (.load ⟨← takeNumber⟩ value)

/-- A condition, a body, and a jump over the body where the condition does not hold. -/
def runIf (condition body : StateM Generator Unit) : StateM Generator Unit := do
  condition
  let value ← last
  let skip : Label := ⟨← takeNumber⟩
  emit (.jumpUnless value skip)
  body
  emit (.label skip)

/-- A body and an update, which becomes the variable's value, as long as a condition holds. -/
def loop (name : String) (condition update body : StateM Generator Unit) :
    StateM Generator Unit := do
  -- the update is numbered before the labels and the body, but stands after the body
  let conditionCode ← detached condition
  let value ← last
  let updateCode ← detached update
  let updated ← last
  let top : Label := ⟨← takeNumber⟩
  let exit : Label := ⟨← takeNumber⟩
  emit (.label top)
  emitAll conditionCode
  emit (.jumpUnless value exit)
  body
  emitAll updateCode
  emit (.store name updated)
  emit (.jump top)
  emit (.label exit)

end Generator

/-! ### Trees -/

open Generator in
mutual

/-- Adds the code of a tree. -/
def Tree.generate (tree : Tree) : StateM Generator Unit :=
  match tree with
  | .number t => load ((t.value.map Token.Value.toText).getD "")
  | .string t => load ("\"" ++ t.textOrEmpty ++ "\"")
  | .reference t => load t.textOrEmpty
  | .assignment _ name value => do
    value.generate
    emit (.store name.textOrEmpty (← last))
  | .binary left operator right => do
    left.generate
    let first ← last
    right.generate
    let second ← last
    emit (.binary ⟨← takeNumber⟩ first operator.kind.operatorText second)
  | .unary operator operand => do
    operand.generate
    let value ← last
    match operator.kind with
    | .plus => return
    | .not => emit (.not ⟨← takeNumber⟩ value)
    | _ => emit (.negate ⟨← takeNumber⟩ value)
  -- later arms leave no code
  | .conditional (.guarded condition body _) _ _ => runIf condition.generate body.generate
  | .conditional _ _ _ => return
  | .forLoop _ name initial condition update body _ _ => do
    initial.generate
    emit (.store name.textOrEmpty (← last))
    loop name.textOrEmpty condition.generate update.generate body.generate
  -- without a jump back, the body runs at most once
  | .whileLoop condition body _ _ => runIf condition.generate body.generate
  | .function name _ body _ _ => do
    emit (.function name.textOrEmpty)
    body.generate
    emit .return
  | .call callee arguments _ =>
    match callee.name? with
    -- a callee with a name is called by it and not computed
    | some name => do
      let temps ← Tree.generateEach arguments
      emit (.call name temps)
    | none => do
      callee.generate
      let called ← last
      let temps ← Tree.generateEach arguments
      emit (.call called.toText temps)
  | .sequence statements _ _ => discard (Tree.generateEach statements)

/-- Adds the code of trees in turn, and hands over the temporary that is last after each. -/
def Tree.generateEach (trees : List Tree) : StateM Generator (List Temp) :=
  match trees with
  | [] => return []
  | tree :: others => do
    tree.generate
    let first ← last
    let temps ← Tree.generateEach others
    return first :: temps

end

/-- Adds the code of a script; the numbers go on. -/
def Generator.add (g : Generator) (tree : Tree) : Generator := (tree.generate.run g).2

/-- The code of a whole script. -/
def Tree.code (tree : Tree) : List Instruction := (Generator.empty.add tree).code

end Scriptlet
