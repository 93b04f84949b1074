import Mathlib.Data.List.Forall2
import Scriptlet.Proofs.Code.Numbers
import Scriptlet.Proofs.Meaning.Legible

/-!
# Names in code

Variables and functions keep their names in code, where they stand beside the texts of temporaries
and labels. Both are words: a script may well call a variable `t0`. Which of its names are taken for
a temporary or a label is settled by the numbers that code takes, since each of them is that of just
one temporary or just one label.

## Main definitions

* `Instruction.generated` — the texts of the temporaries and labels that code defines
* `Instruction.printed` — how a number that code takes is printed in it
* `Tree.identifiers` — the name from the script in each instruction of the code of a tree
* `Instruction.Carries` — an instruction has a name from the script in it

## Main results

* `TakesNumbers.generated_perm` — each number is printed once, as a temporary or as a label
* `Tree.carries_lower` — where names from the script stand in code
* `Source.name_generated_iff` — which names of a script are those of temporaries or labels
-/

namespace Scriptlet

namespace Instruction

/-- The text of the temporary or the label that an instruction defines. -/
def generated? : Instruction → Option String
  | label l => some l.toText
  | i => i.dest?.map Temp.toText

/-- The texts of the temporaries and labels that code defines. -/
def generated (code : List Instruction) : List String := code.filterMap generated?

/-- How a number that code takes is printed: as a label if there is one of this number, or else as
a temporary. -/
def printed (code : List Instruction) (n : Nat) : String :=
  if .label ⟨n⟩ ∈ code then Label.toText ⟨n⟩ else Temp.toText ⟨n⟩

end Instruction

/-! ### Texts of numbers -/

/-- Each number that code takes is printed once, as a temporary or as a label. -/
theorem TakesNumbers.generated_perm {code : List Instruction} {k k' : Nat}
    (h : TakesNumbers code k k') :
    (Instruction.generated code).Perm
      ((List.range' k (k' - k)).map (Instruction.printed code)) := by
  suffices Instruction.generated code =
      (Instruction.numbers code).map (Instruction.printed code) by
    rw [this]
    exact h.perm.map _
  rw [Instruction.generated, Instruction.numbers, List.map_filterMap]
  refine List.filterMap_congr fun i mem => ?_
  cases dest : i.dest? with
  | some t =>
    -- no label has the number of the temporary, as that is taken once
    have absent : .label ⟨t.number⟩ ∉ code := fun there => by
      obtain rfl := Instruction.eq_of_number? h.nodup mem there
        (Instruction.number?_of_dest? dest) rfl
      cases dest
    rw [Instruction.number?_of_dest? dest]
    simp only [Option.map_some, Instruction.printed, if_neg absent]
    cases i <;> simp_all [Instruction.generated?, Instruction.dest?]
  | none =>
    cases i with
    | label l => simp [Instruction.generated?, Instruction.number?, Instruction.printed, mem]
    | _ => simp_all [Instruction.generated?, Instruction.number?]

/-! ### Names from the script -/

mutual

/-- For each instruction in the code of a tree, in turn, the name from the script in it. -/
def Tree.identifiers : Tree → List (Option String)
  | .number _ | .string _ => [none]
  | .reference t => [some t.textOrEmpty]
  | .assignment _ name value => value.identifiers ++ [some name.textOrEmpty]
  | .binary left _ right => left.identifiers ++ right.identifiers ++ [none]
  | .unary operator operand =>
    if operator.kind = .plus then operand.identifiers else operand.identifiers ++ [none]
  | .conditional (.guarded condition body _) _ _ | .whileLoop condition body _ _ =>
    condition.identifiers ++ none :: body.identifiers ++ [none]
  | .conditional _ _ _ => []
  | .forLoop _ name initial condition update body _ _ =>
    initial.identifiers ++ some name.textOrEmpty ::
      (none :: condition.identifiers ++ none :: body.identifiers ++ update.identifiers ++
        [some name.textOrEmpty, none, none])
  | .function name _ body _ _ => some name.textOrEmpty :: body.identifiers ++ [none]
  | .call callee arguments _ =>
    match callee.name? with
    | some name => Tree.identifiersEach arguments ++ [some name]
    | none => callee.identifiers ++ Tree.identifiersEach arguments ++ [none]
  | .sequence statements _ _ => Tree.identifiersEach statements

/-- The names in the code of trees in turn. -/
def Tree.identifiersEach : List Tree → List (Option String)
  | [] => []
  | tree :: others => tree.identifiers ++ Tree.identifiersEach others

end

/-- An instruction carries a name from the script: the name is what it loads, stores, enters or
calls. What is loaded may be a literal and what is called a temporary instead. -/
def Instruction.Carries : Instruction → Option String → Prop
  | load _ value, name => ∀ n, name = some n → value = n
  | call callee _, name => ∀ n, name = some n → callee = n
  | store name _, name' | function name, name' => name' = some name
  | _, name => name = none

/-- Each instruction of the code carries the name in the same place. -/
def Instruction.CarryEach (code : List Instruction) (names : List (Option String)) : Prop :=
  List.Forall₂ Carries code names

namespace Instruction.CarryEach

variable {code code' : List Instruction} {names names' names'' : List (Option String)}
  {i : Instruction} {name : Option String} {condition update : Fragment} {body : Nat → Fragment}

theorem nil : CarryEach [] [] := List.Forall₂.nil

theorem cons (first : i.Carries name) (rest : CarryEach code names) :
    CarryEach (i :: code) (name :: names) :=
  List.Forall₂.cons first rest

theorem append (first : CarryEach code names) (second : CarryEach code' names') :
    CarryEach (code ++ code') (names ++ names') :=
  List.rel_append first second

theorem singleton (carries : i.Carries name) : CarryEach [i] [name] := cons carries nil

theorem runIf (first : CarryEach condition.code names)
    (second : CarryEach (body (condition.next + 1)).code names') :
    CarryEach (Fragment.runIf condition body).code (names ++ none :: names' ++ [none]) :=
  .append (.append first (.cons rfl second)) (.singleton rfl)

theorem loop (name : String) (first : CarryEach condition.code names)
    (second : CarryEach (body (update.next + 2)).code names')
    (third : CarryEach update.code names'') :
    CarryEach (Fragment.loop name condition update body).code
      (none :: names ++ none :: names' ++ names'' ++ [some name, none, none]) :=
  .append (.append (.append (.cons rfl first) (.cons rfl second)) third)
    (.cons rfl (.cons rfl (.singleton rfl)))

end Instruction.CarryEach

mutual

/-- Where names from the script stand in the code of a tree. -/
theorem Tree.carries_lower (tree : Tree) (k : Nat) :
    Instruction.CarryEach (tree.lower k).code tree.identifiers := by
  match tree with
  | .number t | .string t => exact .singleton nofun
  | .reference t => exact .singleton fun n eq => Option.some.inj eq
  | .assignment start name value => exact (value.carries_lower k).append (.singleton rfl)
  | .binary left operator right =>
    exact ((left.carries_lower k).append (right.carries_lower _)).append (.singleton rfl)
  | .unary operator operand =>
    have inside := operand.carries_lower k
    rw [Tree.lower, Tree.identifiers]
    split
    · next plus => rwa [if_pos plus]
    · next negation =>
      rw [if_neg (by simp [negation])]
      exact inside.append (.singleton rfl)
    · next notPlus _ =>
      rw [if_neg notPlus]
      exact inside.append (.singleton rfl)
  | .conditional (.guarded condition body _) _ _ | .whileLoop condition body _ _ =>
    exact .runIf (condition.carries_lower k) (body.carries_lower _)
  | .conditional .none _ _ | .conditional (.otherwise _) _ _ => exact .nil
  | .forLoop _ name initial condition update body _ _ =>
    exact (initial.carries_lower k).append (.cons rfl (.loop _ (condition.carries_lower _)
      (body.carries_lower _) (update.carries_lower _)))
  | .function name _ body _ _ =>
    exact .append (.cons rfl (body.carries_lower k)) (.singleton rfl)
  | .call callee arguments _ =>
    cases named : callee.name? with
    | some name =>
      simp only [Tree.lower, Tree.identifiers, named]
      exact (Tree.carries_lowerEach arguments k).append
        (.singleton fun n eq => Option.some.inj eq)
    | none =>
      simp only [Tree.lower, Tree.identifiers, named]
      exact ((callee.carries_lower k).append (Tree.carries_lowerEach arguments _)).append
        (.singleton nofun)
  | .sequence statements _ _ => exact Tree.carries_lowerEach statements k

theorem Tree.carries_lowerEach (trees : List Tree) (k : Nat) :
    Instruction.CarryEach (Tree.lowerEach trees k).2.code (Tree.identifiersEach trees) := by
  match trees with
  | [] => exact .nil
  | tree :: others => exact (tree.carries_lower k).append (Tree.carries_lowerEach others _)

end

/-! ### Names are words of the script -/

section Words

variable {P : Token → Prop} {name : String}

/-- A name that is the text of an identifier with some property. -/
def Token.Names (P : Token → Prop) (name : String) : Prop :=
  ∃ t : Token, t.kind = .identifier ∧ P t ∧ t.textOrEmpty = name

theorem Tree.Bears.names {tree : Tree} (bears : tree.Bears P) (named : tree.name? = some name) :
    Token.Names P name := by
  have names {t : Token} (own : t.kind = .identifier ∧ P t) (text : t.text? = some name) :
      Token.Names P name :=
    ⟨t, own.1, own.2, by rw [Token.textOrEmpty, text]; rfl⟩
  cases tree with
  | reference t | assignment _ t _ | function t _ _ _ _ => exact names bears named
  | _ => cases named

/-- All names in code are texts of such identifiers. -/
def Token.NamesEach (P : Token → Prop) (names : List (Option String)) : Prop :=
  ∀ name, some name ∈ names → Token.Names P name

namespace Token.NamesEach

variable {names names' : List (Option String)}

theorem nil : NamesEach P [] := nofun

theorem cons (named : Names P name) (rest : NamesEach P names) :
    NamesEach P (some name :: names) := by
  rintro other mem
  rcases List.mem_cons.mp mem with eq | mem
  · exact Option.some.inj eq ▸ named
  · exact rest other mem

/-- An instruction without a name brings none in. -/
theorem plain (rest : NamesEach P names) : NamesEach P (none :: names) := fun other mem =>
  rest other (by simpa using mem)

theorem append (first : NamesEach P names) (second : NamesEach P names') :
    NamesEach P (names ++ names') := fun other mem =>
  (List.mem_append.mp mem).elim (first other) (second other)

end Token.NamesEach

open Scriptlet.Tree in
mutual

/-- The names in the code of a tree are those of identifiers in it. -/
theorem Tree.names_identifiers (tree : Tree) (bears : tree.Throughout (Bears P)) :
    Token.NamesEach P tree.identifiers := by
  have part {child : Tree} (mem : child ∈ tree.children) : child.Throughout (Bears P) :=
    bears.child mem
  match tree with
  | .number t | .string t => exact .plain .nil
  | .reference t => exact .cons ⟨t, bears.self.1, bears.self.2, rfl⟩ .nil
  | .assignment _ t value =>
    have inside := value.names_identifiers (part (by simp [children, parts]))
    exact inside.append (.cons ⟨t, bears.self.1, bears.self.2, rfl⟩ .nil)
  | .binary left _ right =>
    have first := left.names_identifiers (part (by simp [children, parts]))
    have second := right.names_identifiers (part (by simp [children, parts]))
    exact (first.append second).append (.plain .nil)
  | .unary operator operand =>
    have inside := operand.names_identifiers (part (by simp [children, parts]))
    rw [identifiers]
    split
    · exact inside
    · exact inside.append (.plain .nil)
  | .conditional (.guarded condition body _) _ _ =>
    have first := condition.names_identifiers (part (by simp [children, parts, Arms.parts]))
    have second := body.names_identifiers (part (by simp [children, parts, Arms.parts]))
    exact (first.append (.plain second)).append (.plain .nil)
  | .conditional .none _ _ | .conditional (.otherwise _) _ _ => exact .nil
  | .forLoop letStart t initial condition update body _ _ =>
    -- the variable is that of the assignment at the beginning of the header
    have assigned : (assignment letStart t initial).Throughout (Bears P) :=
      part (by simp [children, parts])
    have named : Token.Names P t.textOrEmpty := ⟨t, assigned.self.1, assigned.self.2, rfl⟩
    have first := initial.names_identifiers (assigned.child (by simp [children, parts]))
    have second := condition.names_identifiers (part (by simp [children, parts]))
    have third := body.names_identifiers (part (by simp [children, parts]))
    have fourth := update.names_identifiers (part (by simp [children, parts]))
    exact first.append (.cons named ((((Token.NamesEach.plain second).append
      (.plain third)).append fourth).append (.cons named (.plain (.plain .nil)))))
  | .whileLoop condition body _ _ =>
    have first := condition.names_identifiers (part (by simp [children, parts]))
    have second := body.names_identifiers (part (by simp [children, parts]))
    exact (first.append (.plain second)).append (.plain .nil)
  | .function t _ body _ _ =>
    have inside := body.names_identifiers (part (by simp [children, parts]))
    exact .append (.cons ⟨t, bears.self.1, bears.self.2, rfl⟩ inside) (.plain .nil)
  | .call callee arguments _ =>
    have called : callee.Throughout (Bears P) := part (by simp)
    have each := Tree.names_identifiersEach arguments fun tree mem => part (by simp [mem])
    cases named : callee.name? with
    | some name =>
      simp only [identifiers, named]
      exact each.append (.cons (called.self.names named) .nil)
    | none =>
      simp only [identifiers, named]
      exact ((callee.names_identifiers called).append each).append (.plain .nil)
  | .sequence statements _ _ =>
    exact Tree.names_identifiersEach statements fun tree mem => part (by simp [mem])

theorem Tree.names_identifiersEach (trees : List Tree)
    (bears : ∀ tree ∈ trees, tree.Throughout (Bears P)) :
    Token.NamesEach P (Tree.identifiersEach trees) := by
  match trees with
  | [] => exact .nil
  | tree :: others =>
    obtain ⟨first, rest⟩ := List.forall_mem_cons.mp bears
    exact (tree.names_identifiers first).append (Tree.names_identifiersEach others rest)

end

end Words

/-- The names of a script that stand in its code are words of the script. Such a name is that of a
temporary or a label of the same code just if it is spelled like a number that the code takes: a
`t` and the number if it is that of a temporary, an `L` and the number if it is that of a label.
Any other name is fresh. -/
theorem Source.name_generated_iff {s : Source} {root : Tree} (parsed : s.tree = .ok root) :
    Instruction.CarryEach root.code root.identifiers ∧
    ∃ tokens, s.tokens = .ok tokens ∧ ∀ name, some name ∈ root.identifiers →
      (∃ t ∈ tokens, t.kind = .identifier ∧ t.text? = some name) ∧
      (name ∈ Instruction.generated root.code ↔
        ∃ n < (Generator.empty.add root).next, name = Instruction.printed root.code n) := by
  obtain ⟨tokens, read, bears⟩ := s.bears_tree parsed
  refine ⟨root.code_eq ▸ root.carries_lower 0, tokens, read, fun name mem => ⟨?_, ?_⟩⟩
  · obtain ⟨t, kind, inside, rfl⟩ := root.names_identifiers bears name mem
    obtain ⟨text, eq, -⟩ := (Token.legible_of_mem_readFrom read t inside).name kind
    exact ⟨t, inside, kind, by rw [Token.textOrEmpty, eq]; rfl⟩
  · have perm := (root.assembled_lower 0).takesNumbers.generated_perm
    rw [Generator.add_eq, root.code_eq, perm.mem_iff]
    simp [Generator.empty, eq_comm]

/-- Names may look like temporaries and labels and still be fresh. -/
theorem Source.name_generated_iff_lookalikes :
    ∃ root, (Source.mk "" "let t1 = L0").tree = .ok root ∧
      root.code = [.load ⟨0⟩ "L0", .store "t1" ⟨0⟩] ∧
      root.identifiers = [some "L0", some "t1"] ∧
      "L0" ∉ Instruction.generated root.code ∧ "t1" ∉ Instruction.generated root.code := by
  obtain ⟨root, parsed, computed⟩ := Source.exists_tree (s := ⟨"", "let t1 = L0"⟩)
    (p := fun root => Generator.empty.add root == ⟨1, [.load ⟨0⟩ "L0", .store "t1" ⟨0⟩]⟩ &&
      root.identifiers == [some "L0", some "t1"])
    (by decide +kernel)
  simp only [Bool.and_eq_true, beq_iff_eq] at computed
  obtain ⟨added, identifiers⟩ := computed
  obtain ⟨-, tokens, -, names⟩ := Source.name_generated_iff parsed
  have code : root.code = [.load ⟨0⟩ "L0", .store "t1" ⟨0⟩] := by rw [Tree.code, added]
  have fresh {name : String} (mem : some name ∈ root.identifiers)
      (ne : ∀ n < 1, name ≠ Instruction.printed [.load ⟨0⟩ "L0", .store "t1" ⟨0⟩] n) :
      name ∉ Instruction.generated root.code := fun generated => by
    obtain ⟨n, lt, eq⟩ := (names name mem).2.mp generated
    rw [added] at lt
    rw [code] at eq
    exact ne n lt eq
  exact ⟨root, parsed, code, identifiers, fresh (by simp [identifiers]) (by decide +kernel),
    fresh (by simp [identifiers]) (by decide +kernel)⟩

/-- A variable of a script may have the name of a temporary of its code. -/
theorem Source.name_generated_temporary :
    ∃ root, (Source.mk "" "let t0 = 1").tree = .ok root ∧
      root.code = [.load ⟨0⟩ "1", .store "t0" ⟨0⟩] ∧ root.identifiers = [none, some "t0"] ∧
      "t0" ∈ Instruction.generated root.code := by
  obtain ⟨root, parsed, computed⟩ := Source.exists_tree (s := ⟨"", "let t0 = 1"⟩)
    (p := fun root => root.code == [.load ⟨0⟩ "1", .store "t0" ⟨0⟩] &&
      root.identifiers == [none, some "t0"])
    (by decide +kernel)
  simp only [Bool.and_eq_true, beq_iff_eq] at computed
  obtain ⟨code, identifiers⟩ := computed
  refine ⟨root, parsed, code, identifiers, ?_⟩
  rw [code]
  decide +kernel

end Scriptlet
