import Scriptlet.Proofs.Code.Decoding
import Scriptlet.Proofs.Code.Endings
import Scriptlet.Proofs.Source.Piecewise
import Scriptlet.Proofs.Syntax.Shape

/-!
# Code from another number on

The counter only tells where the numbers of a script begin. From a counter that stands at `k` a
script has the code that it has from zero on, with `k` added to all numbers. A callee that was
computed is written as text, and the number in that text is one of them; the name of a function
stays, even if it looks like a temporary.

An operand is read in the temporary of the last number taken. From zero on there is none before the
first, so that the script has to take one before any operand is read. It does where no call is
without arguments.

## Main definitions

* `Instruction.shift` — an instruction with other numbers
* `Tree.computed` — which instructions in the code of a tree call what was computed
* `Tree.Filled` — a node that has the parts of which it may have any number

## Main results

* `Tree.ending_ne_nothing` — a tree of such nodes takes a number
* `Tree.shifts_lower` — the code of such a tree is shifted with the counter
* `Generator.add_shift` — the code that a script adds behind other scripts
-/

namespace Scriptlet

/-! ### Other numbers -/

/-- A temporary with `k` added to its number. -/
def Temp.shift (k : Nat) (t : Temp) : Temp := ⟨t.number + k⟩

/-- A label with `k` added to its number. -/
def Label.shift (k : Nat) (l : Label) : Label := ⟨l.number + k⟩

/-- The text of a temporary with `k` added to its number. -/
def Temp.shiftText (k : Nat) (text : String) : String :=
  match Temp.ofText? text.toList with
  | some t => (t.shift k).toText
  | none => text

/-- An instruction with `k` added to all its numbers. The callee of a call is the text of a
temporary where it was `computed`, and a name otherwise. -/
def Instruction.shift (k : Nat) (computed : Bool) : Instruction → Instruction
  | load dest value => load (dest.shift k) value
  | store name source => store name (source.shift k)
  | binary dest left operator right =>
    binary (dest.shift k) (left.shift k) operator (right.shift k)
  | not dest operand => not (dest.shift k) (operand.shift k)
  | negate dest operand => negate (dest.shift k) (operand.shift k)
  | jumpUnless condition target => jumpUnless (condition.shift k) (target.shift k)
  | jump target => jump (target.shift k)
  | label l => label (l.shift k)
  | call callee arguments =>
    call (if computed then Temp.shiftText k callee else callee) (arguments.map (Temp.shift k))
  | function name => function name
  | .return => .return

/-- Whether one of the operands of an instruction is called. -/
def Operand.anyCalled (operands : List Operand) : Bool := operands.any (·.role == .callee)

/-- For each instruction in the code of a tree, in turn, whether it calls what was computed. -/
def Tree.computed (tree : Tree) : List Bool := (tree.uses 0).map Operand.anyCalled

@[simp] theorem Temp.shiftText_toText (k : Nat) (t : Temp) :
    Temp.shiftText k t.toText = (t.shift k).toText := by
  rw [shiftText, Temp.ofText?_toText]

/-! ### Trees that take numbers -/

namespace Tree

/-- A call with arguments, or no call at all. -/
def HasArguments : Tree → Prop
  | call _ arguments _ => arguments ≠ []
  | _ => True

instance : DecidablePred HasArguments
  | call _ arguments _ => inferInstanceAs (Decidable (arguments ≠ []))
  | number _ | string _ | reference _ | assignment _ _ _ | binary _ _ _ | unary _ _
  | conditional _ _ _ | forLoop _ _ _ _ _ _ _ _ | whileLoop _ _ _ _ | function _ _ _ _ _
  | sequence _ _ _ => .isTrue trivial

/-- A node that has the parts of which it may have any number. -/
def Filled : Tree → Prop
  | conditional arms _ _ => arms.guardedCount ≠ 0
  | call _ arguments _ => arguments ≠ []
  | sequence statements _ _ => statements ≠ []
  | _ => True

end Tree

/-- Only the arguments of a call may be missing where a tree is spelled. -/
theorem Spells.filled {p : Phrase} {w : List Token} {tree : Tree} (h : Spells p w tree)
    (arguments : tree.HasArguments) : tree.Filled := by
  match h with
  | .statements _ _ _ _ => exact List.cons_ne_nil _ _
  | .block _ inside _ | .conditions inside | .relations inside | .operand inside
  | .unsigned inside | .uncalled inside | .parenthesised _ inside _ => exact inside.filled arguments
  | .call _ _ _ _ => exact arguments
  | .conditional .. | .conditionalElse .. => exact Nat.succ_ne_zero _
  | .assignment .. | .negation .. | .join .. | .signed .. | .number _ | .string _ | .reference _
  | .forLoop .. | .whileLoop .. | .function .. => trivial

theorem Ending.andThen_ne_nothing {first second : Ending}
    (h : first ≠ .nothing ∨ second ≠ .nothing) :
    first.andThen second ≠ .nothing := by
  cases second with
  | nothing => exact h.resolve_right (absurd rfl)
  | value | label => nofun

mutual

/-- A tree with all parts takes a number. -/
theorem Tree.ending_ne_nothing (tree : Tree) (h : tree.Throughout Filled) :
    tree.ending ≠ .nothing := by
  match tree with
  | .number _ | .string _ | .reference _ | .binary _ _ _ => nofun
  | .assignment _ _ value => exact value.ending_ne_nothing (h.child (List.mem_singleton_self _))
  | .unary operator operand =>
    have inside := operand.ending_ne_nothing (h.child (List.mem_singleton_self _))
    rw [Tree.ending]
    split
    · exact inside
    · nofun
  | .conditional .none _ _ | .conditional (.otherwise _) _ _ => exact absurd rfl h.self
  | .conditional (.guarded _ _ _) _ _ | .whileLoop _ _ _ _ | .forLoop _ _ _ _ _ _ _ _ =>
    exact Ending.andThen_ne_nothing (.inl nofun)
  | .function _ _ body _ _ => exact body.ending_ne_nothing (h.child (List.mem_singleton_self _))
  | .call callee arguments _ =>
    have each : ∀ argument ∈ arguments, argument.Throughout Filled := fun argument mem =>
      h.child (by rw [Tree.children_call]; exact List.mem_cons_of_mem _ mem)
    -- a call takes the numbers of its arguments, of which there is one
    have taken := Tree.endingEach_ne_nothing arguments h.self each
    rw [Tree.ending]
    split
    · exact taken
    · exact Ending.andThen_ne_nothing (.inr taken)
  | .sequence statements _ _ =>
    exact Tree.endingEach_ne_nothing statements h.self fun statement mem =>
      h.child (by rwa [Tree.children_sequence])

theorem Tree.endingEach_ne_nothing (trees : List Tree) (ne : trees ≠ [])
    (h : ∀ tree ∈ trees, tree.Throughout Filled) : Tree.endingEach trees ≠ .nothing := by
  match trees with
  | [] => exact absurd rfl ne
  | tree :: others =>
    have first := tree.ending_ne_nothing (h tree List.mem_cons_self)
    exact Ending.andThen_ne_nothing (.inl first)

end

theorem Tree.lt_next_lower {tree : Tree} (h : tree.Throughout Filled) (k : Nat) :
    k < (tree.lower k).next := by
  have describes := tree.describes_ending k
  cases ending : tree.ending with
  | nothing => exact absurd ending (tree.ending_ne_nothing h)
  | value | label =>
    rw [ending] at describes
    exact describes.1

/-! ### Code in parts -/

/-- Code with `k` added to its numbers; `uses` are the operands of its instructions. -/
structure Shifts (k : Nat) (uses : List (List Operand)) (code code' : List Instruction) : Prop where
  length : uses.length = code.length
  eq : code' = List.zipWith (Instruction.shift k) (uses.map Operand.anyCalled) code

namespace Shifts

variable {k : Nat} {uses uses' : List (List Operand)} {code code' code₁ code₁' : List Instruction}
  {i i' : Instruction} {operands : List Operand}

theorem nil : Shifts k [] [] [] := ⟨rfl, rfl⟩

theorem append (h : Shifts k uses code code') (h' : Shifts k uses' code₁ code₁') :
    Shifts k (uses ++ uses') (code ++ code₁) (code' ++ code₁') := by
  refine ⟨by simp only [List.length_append, h.length, h'.length], ?_⟩
  rw [List.map_append, List.zipWith_append (by rw [List.length_map, h.length]), h.eq, h'.eq]

theorem cons (eq : i' = i.shift k (Operand.anyCalled operands)) (h : Shifts k uses code code') :
    Shifts k (operands :: uses) (i :: code) (i' :: code') := by
  have first : Shifts k [operands] [i] [i'] := ⟨rfl, by rw [eq]; rfl⟩
  exact first.append h

theorem single (eq : i' = i.shift k (Operand.anyCalled operands)) :
    Shifts k [operands] [i] [i'] :=
  cons eq nil

end Shifts

/-- The counter is shifted, and the code is. -/
structure Fragment.ShiftsTo (f f' : Fragment) (k : Nat) (uses : List (List Operand)) : Prop where
  code : Shifts k uses f.code f'.code
  next : f'.next = f.next + k

/-- The last temporary is shifted if a number was taken. -/
theorem Fragment.ShiftsTo.last {f f' : Fragment} {n k : Nat} {uses : List (List Operand)}
    (h : f.ShiftsTo f' k uses) (taken : n < f.next) : f'.last = f.last.shift k := by
  have next := h.next
  simp only [Fragment.last, Temp.shift, Temp.mk.injEq]
  omega

/-- A load takes the next number. -/
theorem Fragment.shiftsTo_load (value : String) (n k : Nat) :
    (Fragment.load value n).ShiftsTo (.load value (n + k)) k [[]] :=
  ⟨.single rfl, Nat.add_right_comm n k 1⟩

section

variable {condition update : Tree} {body : Nat → Fragment} {n n' k : Nat}
  {uses : List (List Operand)}

/-- A condition, its jump, a body and the label behind it. -/
theorem Fragment.shiftsTo_runIf
    (h : (condition.lower n).ShiftsTo (condition.lower (n + k)) k (condition.uses n))
    (taken : n < (condition.lower n).next)
    (inside : (body ((condition.lower n).next + 1)).ShiftsTo
      (body ((condition.lower n).next + 1 + k)) k uses) :
    (Fragment.runIf (condition.lower n) body).ShiftsTo (.runIf (condition.lower (n + k)) body) k
      (condition.uses n ++ [⟨.condition, condition, n⟩] :: uses ++ [[]]) := by
  have next : (condition.lower (n + k)).next + 1 = (condition.lower n).next + 1 + k := by
    rw [h.next, Nat.add_right_comm]
  simp only [Fragment.runIf, next, h.last taken]
  refine ⟨(h.code.append (inside.code.cons ?_)).append (.single ?_), inside.next⟩
  · rw [h.next]
    rfl
  · rw [h.next]
    rfl

/-- A loop: its update is numbered before its body, and written behind it. -/
theorem Fragment.shiftsTo_loop (name : String)
    (h : (condition.lower n).ShiftsTo (condition.lower (n + k)) k (condition.uses n))
    (taken : n < (condition.lower n).next)
    (h' : (update.lower n').ShiftsTo (update.lower (n' + k)) k (update.uses n'))
    (taken' : n' < (update.lower n').next)
    (inside : (body ((update.lower n').next + 2)).ShiftsTo
      (body ((update.lower n').next + 2 + k)) k uses) :
    (Fragment.loop name (condition.lower n) (update.lower n') body).ShiftsTo
      (.loop name (condition.lower (n + k)) (update.lower (n' + k)) body) k
      ([] :: condition.uses n ++ [⟨.condition, condition, n⟩] :: uses ++ update.uses n' ++
        [[⟨.update, update, n'⟩], [], []]) := by
  -- the labels take the numbers behind the update, which are shifted with it
  have next : (update.lower (n' + k)).next + 2 = (update.lower n').next + 2 + k := by
    rw [h'.next, Nat.add_right_comm]
  have exit : (update.lower (n' + k)).next + 1 = (update.lower n').next + 1 + k := by
    rw [h'.next, Nat.add_right_comm]
  simp only [Fragment.loop, next, exit, h.last taken, h'.last taken']
  refine ⟨(((h.code.cons ?_).append (inside.code.cons rfl)).append h'.code).append
    (.cons rfl (.cons ?_ (.single rfl))), inside.next⟩
  · rw [h'.next]
    rfl
  · rw [h'.next]
    rfl

end

/-- None of the arguments of a call is called. -/
theorem Operand.anyCalled_ofArguments (arguments : List Tree) (n : Nat) :
    anyCalled (ofArguments arguments n) = false := by
  rw [anyCalled, List.any_eq_false]
  intro o mem
  rw [role_of_mem_ofArguments mem]
  decide

mutual

/-- The code of a tree with all parts is shifted with the counter. -/
theorem Tree.shifts_lower (tree : Tree) (h : tree.Throughout Filled) (n k : Nat) :
    (tree.lower n).ShiftsTo (tree.lower (n + k)) k (tree.uses n) := by
  match tree with
  | .number _ | .string _ | .reference _ => exact Fragment.shiftsTo_load _ n k
  | .assignment _ name value =>
    have filled := h.child (List.mem_singleton_self _)
    have inside := value.shifts_lower filled n k
    refine ⟨inside.code.append (.single ?_), inside.next⟩
    rw [inside.last (Tree.lt_next_lower filled n)]
    rfl
  | .binary left operator right =>
    have filled := h.child List.mem_cons_self
    have filled' := h.child (List.mem_cons_of_mem _ (List.mem_singleton_self _))
    have first := left.shifts_lower filled n k
    have second := right.shifts_lower filled' (left.lower n).next k
    simp only [Tree.lower, Tree.uses, first.next]
    refine ⟨(first.code.append second.code).append (.single ?_), ?_⟩
    · rw [first.last (Tree.lt_next_lower filled n), second.last (Tree.lt_next_lower filled' _),
        second.next]
      rfl
    · rw [second.next, Nat.add_right_comm]
  | .unary operator operand =>
    have filled := h.child (List.mem_singleton_self _)
    have inside := operand.shifts_lower filled n k
    have last := inside.last (Tree.lt_next_lower filled n)
    have next : (operand.lower (n + k)).next + 1 = (operand.lower n).next + 1 + k := by
      rw [inside.next, Nat.add_right_comm]
    -- a sign `+` leaves no instruction of its own
    by_cases isPlus : operator.kind = .plus
    · simpa only [Tree.lower, Tree.uses, isPlus, if_true] using inside
    · simp only [Tree.lower, Tree.uses, if_neg isPlus]
      split
      · exact absurd ‹_› isPlus
      · exact ⟨inside.code.append (.single (by rw [last, inside.next]; rfl)), next⟩
      · exact ⟨inside.code.append (.single (by rw [last, inside.next]; rfl)), next⟩
  | .conditional .none _ _ | .conditional (.otherwise _) _ _ => exact absurd rfl h.self
  | .conditional (.guarded condition body _) _ _ | .whileLoop condition body _ _ =>
    have filled := h.child List.mem_cons_self
    have filled' := h.child (List.mem_cons_of_mem _ List.mem_cons_self)
    exact Fragment.shiftsTo_runIf (condition.shifts_lower filled n k)
      (Tree.lt_next_lower filled n) (body.shifts_lower filled' _ k)
  | .forLoop letStart name initial condition update body _ _ =>
    have assigned : (Tree.assignment letStart name initial).Throughout Filled :=
      h.child List.mem_cons_self
    have filled₀ := assigned.child (List.mem_singleton_self _)
    have filled₁ := h.child (List.mem_cons_of_mem _ List.mem_cons_self)
    have filled₂ := h.child (List.mem_cons_of_mem _ (List.mem_cons_of_mem _ List.mem_cons_self))
    have filled₃ := h.child (List.mem_cons_of_mem _ (List.mem_cons_of_mem _
      (List.mem_cons_of_mem _ List.mem_cons_self)))
    -- the numbers are taken in this order, the body's last
    have first := initial.shifts_lower filled₀ n k
    have second := condition.shifts_lower filled₁ (initial.lower n).next k
    have third := update.shifts_lower filled₂ (condition.lower (initial.lower n).next).next k
    have repeated := Fragment.shiftsTo_loop name.textOrEmpty second (Tree.lt_next_lower filled₁ _)
      third (Tree.lt_next_lower filled₂ _) (body.shifts_lower filled₃ _ k)
    simp only [Tree.lower, Tree.uses, first.next, second.next]
    refine ⟨first.code.append (repeated.code.cons ?_), repeated.next⟩
    rw [first.last (Tree.lt_next_lower filled₀ n)]
    rfl
  | .function name _ body _ _ =>
    have inside := body.shifts_lower (h.child (List.mem_singleton_self _)) n k
    exact ⟨(inside.code.cons rfl).append (.single rfl), inside.next⟩
  | .call callee arguments _ =>
    have each : ∀ argument ∈ arguments, argument.Throughout Filled := fun argument mem =>
      h.child (by rw [Tree.children_call]; exact List.mem_cons_of_mem _ mem)
    have filled : callee.Throughout Filled :=
      h.child (by rw [Tree.children_call]; exact List.mem_cons_self)
    cases named : callee.name? with
    | some name =>
      obtain ⟨inside, temps⟩ := Tree.shifts_lowerEach arguments each n k
      simp only [Tree.lower, Tree.uses, named]
      refine ⟨inside.code.append (.single ?_), inside.next⟩
      rw [temps, Operand.anyCalled_ofArguments]
      rfl
    | none =>
      -- the callee stands in the call as the text of its temporary, whose number is shifted too
      have first := callee.shifts_lower filled n k
      obtain ⟨inside, temps⟩ := Tree.shifts_lowerEach arguments each (callee.lower n).next k
      simp only [Tree.lower, Tree.uses, named, first.next]
      refine ⟨(first.code.append inside.code).append (.single ?_), inside.next⟩
      rw [temps, first.last (Tree.lt_next_lower filled n), ← Temp.shiftText_toText]
      rfl
  | .sequence statements _ _ =>
    exact (Tree.shifts_lowerEach statements (fun statement mem =>
      h.child (by rwa [Tree.children_sequence])) n k).1

/-- The code of trees in turn is shifted with the counter, and so is the last temporary of each. -/
theorem Tree.shifts_lowerEach (trees : List Tree) (h : ∀ tree ∈ trees, tree.Throughout Filled)
    (n k : Nat) :
    (Tree.lowerEach trees n).2.ShiftsTo (Tree.lowerEach trees (n + k)).2 k (Tree.usesEach trees n) ∧
      (Tree.lowerEach trees (n + k)).1 = (Tree.lowerEach trees n).1.map (Temp.shift k) := by
  match trees with
  | [] => exact ⟨⟨.nil, rfl⟩, rfl⟩
  | tree :: others =>
    obtain ⟨filled, each⟩ := List.forall_mem_cons.mp h
    have first := tree.shifts_lower filled n k
    obtain ⟨rest, temps⟩ := Tree.shifts_lowerEach others each (tree.lower n).next k
    simp only [Tree.lowerEach, Tree.usesEach, first.next]
    refine ⟨⟨first.code.append rest.code, rest.next⟩, ?_⟩
    rw [List.map_cons, temps, first.last (Tree.lt_next_lower filled n)]

end

/-! ### Scripts behind scripts -/

/-- Where no call is without arguments, a tree that tokens have is one of nodes with all parts. -/
theorem Tree.filled_of_ofTokens {tokens : List Token} {root : Tree}
    (parsed : Tree.ofTokens tokens = .ok root) (arguments : root.Throughout HasArguments) :
    root.Throughout Filled := by
  have spells := Grammar.script_eq_ok_iff.mp (mapError_eq_ok_iff.mp parsed)
  have each : root.Throughout fun node => node.HasArguments → node.Filled :=
    spells.throughout Spells.filled
  exact (each.and arguments).mono fun _ both => both.1 both.2

/-- Where the callee was computed, the instruction calls its temporary. -/
theorem Tree.eq_call_of_computed (tree : Tree) {n : Nat} {i : Instruction}
    (here : tree.code[n]? = some i) (called : tree.computed[n]? = some true) :
    ∃ t temps, i = .call (Temp.toText t) temps := by
  obtain ⟨operands, uses, takes, -⟩ := tree.fed_code.get here
  rw [computed, List.getElem?_map, uses] at called
  obtain ⟨o, mem, role⟩ := List.any_eq_true.mp (Option.some.inj called)
  obtain ⟨temps, eq⟩ := takes.callee o mem (beq_iff_eq.mp role)
  exact ⟨o.last, temps, eq⟩

/-- Behind other scripts a script has the code that it has alone, with the counter added to the
number of each temporary and each label. It is added in the text of a callee just if the callee
was computed, which is the text of a temporary then. A call without arguments takes no number: what
reads its value from zero on may read `t0`, which another counter does not shift. -/
theorem Generator.add_shift {tokens : List Token} {root : Tree}
    (parsed : Tree.ofTokens tokens = .ok root) (arguments : root.Throughout Tree.HasArguments)
    (g : Generator) :
    (g.add root).code =
        g.code ++ List.zipWith (Instruction.shift g.next) root.computed root.code ∧
      (g.add root).next = (Generator.empty.add root).next + g.next ∧
      root.computed.length = root.code.length ∧
      ∀ n : Nat, root.computed[n]? = some true →
        ∃ t temps, root.code[n]? = some (.call (Temp.toText t) temps) := by
  have shifts := root.shifts_lower (Tree.filled_of_ofTokens parsed arguments) 0 g.next
  rw [Nat.zero_add] at shifts
  have length : root.computed.length = root.code.length := by
    rw [Tree.computed, List.length_map, root.code_eq]
    exact shifts.code.length
  rw [g.add_eq, Generator.add_eq]
  refine ⟨?_, shifts.next, length, fun n called => ?_⟩
  · rw [g.append_code, root.code_eq]
    exact congrArg (g.code ++ ·) shifts.code.eq
  -- a callee that was computed stands in a call
  obtain ⟨lt, -⟩ := List.getElem?_eq_some_iff.mp called
  have here := List.getElem?_eq_getElem (length ▸ lt)
  obtain ⟨t, temps, eq⟩ := root.eq_call_of_computed here called
  exact ⟨t, temps, here.trans (congrArg some eq)⟩

/-- Of two callees with the same text one is a name, which stays, and the other was computed. -/
theorem Generator.add_shift_called :
    let tokens := (Source.tokens ⟨"", "while (x < 1) \x7b (t4(1))(2) \x7d"⟩).toOption.getD []
    ∃ root, Tree.ofTokens tokens = .ok root ∧ root.Throughout Tree.HasArguments ∧
      root.code = [.load ⟨0⟩ "x", .load ⟨1⟩ "1", .binary ⟨2⟩ ⟨0⟩ "<" ⟨1⟩, .jumpUnless ⟨2⟩ ⟨3⟩,
        .load ⟨4⟩ "1", .call "t4" [⟨4⟩], .load ⟨5⟩ "2", .call "t4" [⟨5⟩], .label ⟨3⟩] ∧
      (Generator.add ⟨5, []⟩ root).code = [.load ⟨5⟩ "x", .load ⟨6⟩ "1",
        .binary ⟨7⟩ ⟨5⟩ "<" ⟨6⟩, .jumpUnless ⟨7⟩ ⟨8⟩, .load ⟨9⟩ "1", .call "t4" [⟨9⟩],
        .load ⟨10⟩ "2", .call "t9" [⟨10⟩], .label ⟨8⟩] := by
  intro tokens
  have computed : (Tree.ofTokens tokens).toOption.any fun root =>
      root.code == [.load ⟨0⟩ "x", .load ⟨1⟩ "1", .binary ⟨2⟩ ⟨0⟩ "<" ⟨1⟩, .jumpUnless ⟨2⟩ ⟨3⟩,
        .load ⟨4⟩ "1", .call "t4" [⟨4⟩], .load ⟨5⟩ "2", .call "t4" [⟨5⟩], .label ⟨3⟩] &&
      root.computed == [false, false, false, false, false, false, false, true, false] &&
      decide (root.Throughout Tree.HasArguments) := by
    decide +kernel
  cases parsed : Tree.ofTokens tokens with
  | error e =>
    rw [parsed] at computed
    cases computed
  | ok root =>
    simp only [parsed, Except.toOption, Option.any_some, Bool.and_eq_true, beq_iff_eq,
      decide_eq_true_eq] at computed
    obtain ⟨⟨code, computed⟩, arguments⟩ := computed
    refine ⟨root, rfl, arguments, code, ?_⟩
    rw [(Generator.add_shift parsed arguments ⟨5, []⟩).1, code, computed]
    decide +kernel

/-- A call without arguments takes no number. Its value is read from the last temporary of the
code in front, and from zero on there is none in front. -/
example : (Source.tree ⟨"", "let x = f()"⟩).toOption.map
    (fun root => (root.code, (Generator.add ⟨5, []⟩ root).code)) =
      some ([.call "f" [], .store "x" ⟨0⟩], [.call "f" [], .store "x" ⟨4⟩]) := by
  decide +kernel

end Scriptlet
