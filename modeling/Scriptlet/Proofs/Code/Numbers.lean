import Scriptlet.Proofs.Code.Assembly

/-!
# The numbers in code

Temporaries and labels take their numbers from one counter, but code does not stand in the
order in which its numbers were taken: the update of a `for` loop is numbered before the body
and stands after it. What holds all the same is that every number taken stands in the code
once.

## Main definitions

* `TakesNumbers` — code takes the numbers from one up to another, each once

## Main results

* `Assembled.takesNumbers` — code takes just the numbers by which the counter went on
* `Generator.numbers_unique` — so does the code of any scripts, one after another, so that no
  number is ever taken twice
-/

namespace Scriptlet

/-- The numbers that code takes, as they stand in it. -/
def Instruction.numbers (code : List Instruction) : List Nat := code.filterMap number?

/-- Code takes the numbers from `k` up to `k'`, each once. -/
structure TakesNumbers (code : List Instruction) (k k' : Nat) : Prop where
  le : k ≤ k'
  perm : (Instruction.numbers code).Perm (List.range' k (k' - k))

namespace Instruction

variable (i : Instruction) (code code' : List Instruction)

@[simp] theorem numbers_nil : numbers [] = [] := rfl

@[simp] theorem numbers_cons : numbers (i :: code) = i.number?.toList ++ numbers code := by
  rw [numbers, List.filterMap_cons]
  cases i.number? <;> rfl

@[simp] theorem numbers_append : numbers (code ++ code') = numbers code ++ numbers code' :=
  List.filterMap_append

end Instruction

namespace TakesNumbers

variable {k k' k'' : Nat} {code code' : List Instruction}

theorem refl (k : Nat) : TakesNumbers [] k k := ⟨Nat.le_refl k, by simp⟩

/-- An instruction with a number takes that number alone. -/
theorem of_number?_eq_some {i : Instruction} (h : i.number? = some k) :
    TakesNumbers [i] k (k + 1) := by
  refine ⟨Nat.le_succ k, ?_⟩
  rw [Instruction.numbers_cons, h]
  simp

/-- Parts that take their numbers one after another may stand in the code in any order. -/
theorem of_perm (h : TakesNumbers code k k') (h' : TakesNumbers code' k' k'')
    {all : List Instruction}
    (perm : (Instruction.numbers all).Perm
      (Instruction.numbers code ++ Instruction.numbers code')) :
    TakesNumbers all k k'' := by
  have le := h.le
  have le' := h'.le
  refine ⟨Nat.le_trans le le', perm.trans ((h.perm.append h'.perm).trans (.of_eq ?_))⟩
  -- two ranges that follow one another are one range
  have split : k' = k + (k' - k) := by omega
  rw [show List.range' k' (k'' - k') = List.range' (k + (k' - k)) (k'' - k') from by rw [← split],
    List.range'_append_1]
  congr 1
  omega

/-- Numbers are taken in turn by one part of the code after another. -/
theorem append (h : TakesNumbers code k k') (h' : TakesNumbers code' k' k'') :
    TakesNumbers (code ++ code') k k'' :=
  h.of_perm h' (.of_eq (Instruction.numbers_append code code'))

theorem nodup (h : TakesNumbers code k k') : (Instruction.numbers code).Nodup :=
  h.perm.nodup_iff.mpr List.nodup_range'

end TakesNumbers

theorem Instruction.number?_of_dest? {i : Instruction} {t : Temp} (h : i.dest? = some t) :
    i.number? = some t.number := by
  cases i <;> simp_all [dest?, number?]

theorem Instruction.number?_of_isEffect {i : Instruction} (h : i.isEffect) :
    i.number? = none := by
  cases i <;> simp_all [isEffect, number?, dest?]

/-- Code takes just the numbers by which the counter went on. -/
theorem Assembled.takesNumbers {k : Nat} {f : Fragment} (h : Assembled k f) :
    TakesNumbers f.code k f.next := by
  induction h with
  | nothing => exact .refl _
  | compute dest => exact .of_number?_eq_some (Instruction.number?_of_dest? dest)
  | effect effect =>
    refine ⟨Nat.le_refl _, ?_⟩
    rw [Instruction.numbers_cons, Instruction.number?_of_isEffect effect]
    simp
  | append _ _ first second => exact first.append second
  | @runIf k condition body _ _ first second =>
    have skip : TakesNumbers [.label ⟨condition.next⟩] condition.next (condition.next + 1) :=
      .of_number?_eq_some rfl
    -- the label stands behind the body but is numbered before it
    refine first.of_perm (skip.append second) ?_
    simp [Fragment.runIf, Instruction.number?, Instruction.dest?, List.perm_append_left_iff]
  | @loop k name condition update body _ _ _ first second third =>
    have top : TakesNumbers [.label ⟨update.next⟩] update.next (update.next + 1) :=
      .of_number?_eq_some rfl
    have exit : TakesNumbers [.label ⟨update.next + 1⟩] (update.next + 1) (update.next + 2) :=
      .of_number?_eq_some rfl
    -- the first label stands at the front, and the update and the other label at the back
    refine first.of_perm (second.append (top.append (exit.append third))) ?_
    rw [List.perm_iff_count]
    intro n
    simp only [Fragment.loop, Instruction.numbers_append, Instruction.numbers_cons,
      Instruction.numbers_nil, Instruction.number?, Instruction.dest?, Option.map_none,
      Option.toList_none, Option.toList_some, List.cons_append, List.nil_append, List.append_assoc,
      List.count_cons, List.count_append, List.count_nil]
    omega
  | function _ inside =>
    -- the brackets of a function take no numbers
    exact ⟨inside.le, by simpa [Instruction.number?, Instruction.dest?] using inside.perm⟩

/-! ### Labels stand in code once -/

namespace Instruction

variable {code : List Instruction} {l : Label}

theorem number_mem_numbers {i : Instruction} {n : Nat} (mem : i ∈ code)
    (number : i.number? = some n) : n ∈ numbers code :=
  List.mem_filterMap.mpr ⟨i, mem, number⟩

/-- Where no number is taken twice, a label does not stand behind itself. -/
theorem label_not_mem (unique : (numbers (.label l :: code)).Nodup) : .label l ∉ code := by
  intro mem
  rw [numbers_cons, List.nodup_append] at unique
  exact unique.2.2 l.number (by simp [number?]) l.number (number_mem_numbers mem rfl) rfl

theorem nodup_of_cons {i : Instruction} (unique : (numbers (i :: code)).Nodup) :
    (numbers code).Nodup := by
  rw [numbers_cons, List.nodup_append] at unique
  exact unique.2.1

/-- Where no number is taken twice, one instruction takes each. -/
theorem eq_of_number? (unique : (numbers code).Nodup) {i j : Instruction} {n : Nat}
    (first : i ∈ code) (second : j ∈ code) (takes : i.number? = some n)
    (takes' : j.number? = some n) : i = j := by
  induction code with
  | nil => cases first
  | cons x code ih =>
    have apart {y : Instruction} (takesX : x.number? = some n) (takesY : y.number? = some n)
        (behind : y ∈ code) : False := by
      rw [numbers_cons, List.nodup_append] at unique
      exact unique.2.2 n (by simp [takesX]) n (number_mem_numbers behind takesY) rfl
    rcases List.mem_cons.mp first with rfl | behind
    · rcases List.mem_cons.mp second with rfl | behind'
      · rfl
      · exact (apart takes takes' behind').elim
    · rcases List.mem_cons.mp second with rfl | behind'
      · exact (apart takes' takes behind).elim
      · exact ih (nodup_of_cons unique) behind behind'

/-- Where no number is taken twice, a label is placed in one place only. -/
theorem eq_of_label (unique : (numbers code).Nodup) {i j : Nat} (first : code[i]? = some (.label l))
    (second : code[j]? = some (.label l)) : i = j := by
  induction code generalizing i j with
  | nil => simp at first
  | cons x code ih =>
    have absent {n : Nat} (here : x = .label l) : code[n]? ≠ some (.label l) := by
      subst here
      exact fun there => label_not_mem unique (List.mem_of_getElem? there)
    -- two places are the same, or one of them is behind the other
    cases i with
    | zero =>
      cases j with
      | zero => rfl
      | succ j => exact absurd second (absent (by simpa using first))
    | succ i =>
      cases j with
      | zero => exact absurd first (absent (by simpa using second))
      | succ j => rw [ih (nodup_of_cons unique) first second]

/-- Where no number is taken twice, a label is found where it stands. -/
theorem idxOf?_label (unique : (numbers code).Nodup) {i : Nat}
    (here : code[i]? = some (.label l)) : code.idxOf? (.label l) = some i := by
  obtain ⟨lt, eq⟩ := List.getElem?_eq_some_iff.mp here
  refine List.idxOf?_eq_some_iff.mpr ⟨lt, eq, fun j less found => ?_⟩
  have there : code[j]? = some (.label l) := List.getElem?_eq_some_iff.mpr ⟨_, found⟩
  exact Nat.ne_of_lt less (eq_of_label unique there here)

/-- No label is placed twice. -/
theorem count_label_le (unique : (numbers code).Nodup) (l : Label) :
    code.count (.label l) ≤ 1 := by
  induction code with
  | nil => simp
  | cons x code ih =>
    by_cases here : x = .label l
    · subst here
      have once : (label l :: code).count (.label l) = 1 := by
        rw [List.count_cons_self, List.count_eq_zero_of_not_mem (label_not_mem unique)]
      exact Nat.le_of_eq once
    · rw [List.count_cons_of_ne here]
      exact ih (nodup_of_cons unique)

end Instruction

/-! ### Scripts one after another -/

/-- The code of a script goes behind the code that is there, and takes just the numbers by
which the counter went on. -/
theorem Generator.add_takesNumbers (g : Generator) (tree : Tree) :
    ∃ added, (g.add tree).code = g.code ++ added ∧
      TakesNumbers added g.next (g.add tree).next := by
  rw [g.add_eq]
  exact ⟨(tree.lower g.next).code, g.append_code _, (tree.assembled_lower g.next).takesNumbers⟩

/-- No number is taken twice in the code of a script. -/
theorem Tree.nodup_numbers_code (tree : Tree) : (Instruction.numbers tree.code).Nodup := by
  rw [tree.code_eq]
  exact (tree.assembled_lower 0).takesNumbers.nodup

/-- Scripts one after another take their numbers in turn. -/
theorem Generator.foldl_add_takesNumbers (g : Generator) (trees : List Tree) :
    ∃ added, (trees.foldl Generator.add g).code = g.code ++ added ∧
      TakesNumbers added g.next (trees.foldl Generator.add g).next := by
  induction trees generalizing g with
  | nil => exact ⟨[], (List.append_nil _).symm, .refl _⟩
  | cons tree others ih =>
    obtain ⟨added, code, numbers⟩ := g.add_takesNumbers tree
    obtain ⟨added', code', numbers'⟩ := ih (g.add tree)
    refine ⟨added ++ added', ?_, numbers.append numbers'⟩
    rw [List.foldl_cons, code', code, List.append_assoc]

/-- Numbers are unique and none is lost. Whatever was there before, the code of a script takes
just the numbers by which the counter goes on, each once, and so does the code of any scripts
in turn; from the start on, no number is ever taken twice. -/
theorem Generator.numbers_unique (g : Generator) (tree : Tree) (trees : List Tree) :
    (∃ added, (g.add tree).code = g.code ++ added ∧
      TakesNumbers added g.next (g.add tree).next) ∧
    (∃ added, (trees.foldl Generator.add g).code = g.code ++ added ∧
      TakesNumbers added g.next (trees.foldl Generator.add g).next) ∧
    (Instruction.numbers (trees.foldl Generator.add .empty).code).Nodup := by
  refine ⟨g.add_takesNumbers tree, g.foldl_add_takesNumbers trees, ?_⟩
  obtain ⟨added, code, numbers⟩ := Generator.foldl_add_takesNumbers .empty trees
  rw [code]
  exact numbers.nodup

end Scriptlet
