import Scriptlet.Proofs.Code.Lowering

/-!
# How code is put together

The code of every tree is put together in a few ways: instructions that compute a value or
have an effect, one part after another, and parts inside jumps or inside a function. Saying
this once leaves properties of code to be proved for these ways, and not for each sort of
tree.

## Main definitions

* `Instruction.dest?`, `Instruction.number?` — the temporary that an instruction computes, and
  the number that it takes
* `Assembled` — the ways of putting code together

## Main results

* `Tree.assembled_lower` — the code of every tree is put together in these ways
-/

namespace Scriptlet

namespace Instruction

/-- The temporary that an instruction computes. -/
def dest? : Instruction → Option Temp
  | load dest _ | binary dest _ _ _ | not dest _ | negate dest _ => some dest
  | _ => none

/-- The number that an instruction takes, for a temporary or as a label. -/
def number? : Instruction → Option Nat
  | label l => some l.number
  | i => i.dest?.map Temp.number

/-- Whether an instruction only hands over values that are there already. -/
def isEffect : Instruction → Bool
  | store _ _ | call _ _ => true
  | _ => false

end Instruction

/-- The ways in which code with numbers from `k` on is put together. -/
inductive Assembled : Nat → Fragment → Prop
  | nothing {k : Nat} : Assembled k ⟨[], k⟩
  | compute {k : Nat} {i : Instruction} : i.dest? = some ⟨k⟩ → Assembled k ⟨[i], k + 1⟩
  | effect {k : Nat} {i : Instruction} : i.isEffect → Assembled k ⟨[i], k⟩
  | append {k : Nat} {f f' : Fragment} :
    Assembled k f → Assembled f.next f' → Assembled k ⟨f.code ++ f'.code, f'.next⟩
  | runIf {k : Nat} {condition : Fragment} {body : Nat → Fragment} :
    Assembled k condition → Assembled (condition.next + 1) (body (condition.next + 1)) →
      Assembled k (.runIf condition body)
  | loop {k : Nat} {name : String} {condition update : Fragment} {body : Nat → Fragment} :
    Assembled k condition → Assembled condition.next update →
      Assembled (update.next + 2) (body (update.next + 2)) →
      Assembled k (.loop name condition update body)
  | function {k : Nat} {name : String} {body : Fragment} :
    Assembled k body → Assembled k ⟨.function name :: body.code ++ [.return], body.next⟩

namespace Assembled

variable {k : Nat} {f : Fragment} {i : Instruction}

/-- An instruction that computes a value may stand behind a part. -/
theorem andCompute (h : Assembled k f) (dest : i.dest? = some ⟨f.next⟩) :
    Assembled k ⟨f.code ++ [i], f.next + 1⟩ :=
  h.append (.compute dest)

/-- An instruction that hands over values may stand behind a part. -/
theorem andEffect (h : Assembled k f) (effect : i.isEffect) :
    Assembled k ⟨f.code ++ [i], f.next⟩ :=
  h.append (.effect effect)

end Assembled

mutual

/-- The code of every tree is put together in these ways. -/
theorem Tree.assembled_lower : (tree : Tree) → (k : Nat) → Assembled k (tree.lower k)
  | .number t, k => .compute rfl
  | .string t, k => .compute rfl
  | .reference t, k => .compute rfl
  | .assignment _ name value, k => (Tree.assembled_lower value k).andEffect rfl
  | .binary left operator right, k =>
    ((Tree.assembled_lower left k).append (Tree.assembled_lower right _)).andCompute rfl
  | .unary operator operand, k => by
    have assembled := Tree.assembled_lower operand k
    rw [Tree.lower]
    split
    · exact assembled
    · exact assembled.andCompute rfl
    · exact assembled.andCompute rfl
  | .conditional (.guarded condition body _) _ _, k =>
    .runIf (Tree.assembled_lower condition k) (Tree.assembled_lower body _)
  | .conditional .none _ _, k => .nothing
  | .conditional (.otherwise _) _ _, k => .nothing
  | .forLoop _ name initial condition update body _ _, k => by
    -- the condition is numbered before the update, and both before the labels and the body
    let first := initial.lower k
    have stored : Assembled k ⟨first.code ++ [.store name.textOrEmpty first.last], first.next⟩ :=
      (Tree.assembled_lower initial k).andEffect rfl
    let condition' := condition.lower first.next
    have repeated : Assembled first.next
        (.loop name.textOrEmpty condition' (update.lower condition'.next) body.lower) :=
      .loop (Tree.assembled_lower condition _) (Tree.assembled_lower update _)
        (Tree.assembled_lower body _)
    have assembled := stored.append repeated
    -- the first assignment and the loop are one part after another
    rwa [List.append_assoc] at assembled
  | .whileLoop condition body _ _, k =>
    .runIf (Tree.assembled_lower condition k) (Tree.assembled_lower body _)
  | .function _ _ body _ _, k => .function (Tree.assembled_lower body k)
  | .call callee arguments _, k => by
    rw [Tree.lower]
    -- a callee with a name leaves no code of its own
    split
    · exact (Tree.assembled_lowerEach arguments k).andEffect rfl
    · have assembled := (Tree.assembled_lower callee k).append
        (Tree.assembled_lowerEach arguments _)
      exact assembled.andEffect rfl
  | .sequence statements _ _, k => Tree.assembled_lowerEach statements k

theorem Tree.assembled_lowerEach :
    (trees : List Tree) → (k : Nat) → Assembled k (Tree.lowerEach trees k).2
  | [], _ => .nothing
  | tree :: others, k => (Tree.assembled_lower tree k).append (Tree.assembled_lowerEach others _)

end

end Scriptlet
