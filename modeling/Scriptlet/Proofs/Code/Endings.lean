import Scriptlet.Proofs.Code.Operands

/-!
# What the last number is for

An operand is read in the temporary of the last number that its code took. That is where its
value is if the number was taken for a temporary; it may have been taken for a label as well, or
by something else altogether if the operand took none.

## Main definitions

* `Ending`, `Tree.ending` — what the last number is for that the code of a tree takes

## Main results

* `Tree.describes_ending` — what is said of a tree is so in its code
* `Operand.written_iff` — an operand has computed the temporary it is read in exactly if it ends
  with a value
* `Tree.operands_written` — operands that end with values are written before they are read
-/

namespace Scriptlet

/-- What the last number is for that code takes, if it takes any. -/
inductive Ending
  | nothing | value | label
  deriving DecidableEq, Repr

/-- The ending of one part after another. -/
def Ending.andThen : Ending → Ending → Ending
  | first, nothing => first
  | _, second => second

mutual

/-- What the last number is for that the code of a tree takes. Compound expressions take the
numbers of their labels before those of their bodies. -/
def Tree.ending : Tree → Ending
  | .number _ | .string _ | .reference _ | .binary _ _ _ => .value
  | .assignment _ _ value => value.ending
  | .unary operator operand => if operator.kind = .plus then operand.ending else .value
  | .conditional (.guarded _ body _) _ _ | .whileLoop _ body _ _
  | .forLoop _ _ _ _ _ body _ _ => Ending.label.andThen body.ending
  | .conditional _ _ _ => .nothing
  | .function _ _ body _ _ => body.ending
  | .call callee arguments _ =>
    match callee.name? with
    | some _ => Tree.endingEach arguments
    | none => callee.ending.andThen (Tree.endingEach arguments)
  | .sequence statements _ _ => Tree.endingEach statements

/-- What the last number is for that the code of trees in turn takes. -/
def Tree.endingEach : List Tree → Ending
  | [] => .nothing
  | tree :: others => tree.ending.andThen (Tree.endingEach others)

end

/-- Code with numbers from `k` on ends like this. -/
def Ending.Describes : Ending → Nat → Fragment → Prop
  | nothing, k, f => f.next = k
  | value, k, f => k < f.next ∧ ∃ i ∈ f.code, i.dest? = some f.last
  | label, k, f => k < f.next ∧ .label ⟨f.last.number⟩ ∈ f.code

namespace Ending.Describes

variable {e e' : Ending} {k k' : Nat} {f f' : Fragment}

/-- More code around it changes nothing if it takes no number behind the last. -/
theorem mono {code code' : List Instruction} (h : e.Describes k ⟨code, k'⟩)
    (subset : code ⊆ code') : e.Describes k ⟨code', k'⟩ := by
  cases e with
  | nothing => exact h
  | value =>
    obtain ⟨lt, i, mem, dest⟩ := h
    exact ⟨lt, i, subset mem, dest⟩
  | label => exact ⟨h.1, subset h.2⟩

/-- What ends with a number of its own ends like this wherever the numbers begin. -/
theorem of_le (h : e.Describes k' f) (ne : e ≠ .nothing) (le : k ≤ k') : e.Describes k f := by
  cases e with
  | nothing => exact absurd rfl ne
  | value => exact ⟨Nat.lt_of_le_of_lt le h.1, h.2⟩
  | label => exact ⟨Nat.lt_of_le_of_lt le h.1, h.2⟩

/-- One part after another, wherever the two stand in the code. -/
theorem andThen {code : List Instruction} (h : e.Describes k f) (h' : e'.Describes f.next f')
    (le : k ≤ f.next) (first : f.code ⊆ code) (second : f'.code ⊆ code) :
    (e.andThen e').Describes k ⟨code, f'.next⟩ := by
  cases e' with
  | nothing =>
    -- the second part takes no number, so the last one is that of the first
    obtain ⟨code', next'⟩ := f'
    obtain rfl : next' = f.next := h'
    exact h.mono first
  | value => exact (h'.of_le nofun le).mono second
  | label => exact (h'.of_le nofun le).mono second

end Ending.Describes

theorem Tree.le_next_lower (tree : Tree) (k : Nat) : k ≤ (tree.lower k).next :=
  (tree.assembled_lower k).takesNumbers.le

/-- A label numbered before the body that it belongs to. -/
theorem Ending.describes_label {e : Ending} {k n : Nat} {body : Fragment}
    {code : List Instruction} (le : k ≤ n) (placed : .label ⟨n⟩ ∈ code)
    (h : e.Describes (n + 1) body) (subset : body.code ⊆ code) :
    (Ending.label.andThen e).Describes k ⟨code, body.next⟩ := by
  have label : Ending.label.Describes k ⟨[.label ⟨n⟩], n + 1⟩ :=
    ⟨Nat.lt_succ_of_le le, List.mem_singleton_self _⟩
  exact label.andThen h (Nat.le_succ_of_le le) (fun i mem => List.mem_singleton.mp mem ▸ placed)
    subset

mutual

/-- What is said of the ending of a tree is so in its code. -/
theorem Tree.describes_ending (tree : Tree) (k : Nat) : tree.ending.Describes k (tree.lower k) := by
  match tree with
  | .number _ | .string _ | .reference _ =>
    exact ⟨Nat.lt_succ_self k, _, List.mem_singleton_self _, rfl⟩
  | .assignment _ _ value =>
    exact (Tree.describes_ending value k).mono (List.subset_append_left _ _)
  | .binary left _ right =>
    have first := left.le_next_lower k
    have second := right.le_next_lower (left.lower k).next
    exact ⟨by simp only [Tree.lower]; omega, _, List.mem_concat_self, rfl⟩
  | .unary operator operand =>
    have le := operand.le_next_lower k
    rcases Tree.lower_unary operator operand k with ⟨isPlus, eq⟩ | ⟨notPlus, i, dest, -, eq⟩
    · rw [eq, Tree.ending, if_pos isPlus]
      exact Tree.describes_ending operand k
    · rw [eq, Tree.ending, if_neg notPlus]
      exact ⟨Nat.lt_succ_of_le le, i, List.mem_concat_self, dest⟩
  | .conditional .none _ _ | .conditional (.otherwise _) _ _ => exact rfl
  | .conditional (.guarded condition body _) _ _ | .whileLoop condition body _ _ =>
    refine Ending.describes_label (condition.le_next_lower k) ?_ (Tree.describes_ending body _) ?_
    · simp
    · intro i mem
      simp [mem]
  | .forLoop _ _ initial condition update body _ _ =>
    have le := initial.le_next_lower k
    let k₁ := (initial.lower k).next
    let k₂ := (condition.lower k₁).next
    have le' := condition.le_next_lower k₁
    have le'' := update.le_next_lower k₂
    have inside := Tree.describes_ending body ((update.lower k₂).next + 2)
    change (Ending.label.andThen body.ending).Describes k
      ⟨_, (body.lower ((update.lower k₂).next + 2)).next⟩
    refine Ending.describes_label (by omega) ?_ inside ?_
    · simp [Fragment.loop, k₁, k₂]
    · intro i mem
      have mem' : i ∈ (body.lower ((update.lower k₂).next + 2)).code := mem
      simp [Fragment.loop, k₁, k₂, mem']
  | .function _ _ body _ _ =>
    refine (Tree.describes_ending body k).mono fun i mem => ?_
    simp [mem]
  | .call callee arguments _ =>
    cases named : callee.name? with
    | some name =>
      simp only [Tree.lower, Tree.ending, named]
      exact (Tree.describes_endingEach arguments k).mono (List.subset_append_left _ _)
    | none =>
      simp only [Tree.lower, Tree.ending, named]
      exact (Tree.describes_ending callee k).andThen (Tree.describes_endingEach arguments _)
        (callee.le_next_lower k) (fun i mem => by simp [mem]) (fun i mem => by simp [mem])
  | .sequence statements _ _ => exact Tree.describes_endingEach statements k

theorem Tree.describes_endingEach (trees : List Tree) (k : Nat) :
    (Tree.endingEach trees).Describes k (Tree.lowerEach trees k).2 := by
  match trees with
  | [] => exact rfl
  | tree :: others =>
    exact (Tree.describes_ending tree k).andThen (Tree.describes_endingEach others _)
      (tree.le_next_lower k) (List.subset_append_left _ _) (List.subset_append_right _ _)

end

/-! ### Operands that are written -/

/-- An operand has computed the temporary it is read in exactly if it ends with a value. -/
theorem Operand.written_iff (o : Operand) :
    (∃ i ∈ o.code, i.dest? = some o.last) ↔ o.tree.ending = .value := by
  have describes := o.tree.describes_ending o.start
  have takes := (o.tree.assembled_lower o.start).takesNumbers
  constructor
  · rintro ⟨i, mem, dest⟩
    have number := Instruction.number?_of_dest? dest
    cases ending : o.tree.ending with
    | value => rfl
    | nothing =>
      -- no number is taken at all
      rw [ending] at describes
      have next : (o.tree.lower o.start).next = o.start := describes
      have none := takes.perm
      rw [next, Nat.sub_self] at none
      have taken := Instruction.number_mem_numbers mem number
      exact absurd (none.subset taken) List.not_mem_nil
    | label =>
      -- the number is taken once, and that is for a label
      rw [ending] at describes
      have same := Instruction.eq_of_number? takes.nodup mem describes.2 number rfl
      rw [same] at dest
      cases dest
  · intro ending
    rw [ending] at describes
    exact describes.2

/-- Each instruction in the code of a script reads the last temporaries of its operands, whose
code stands before it. An operand that ends with a value has computed what is read. If all
operands do, whatever is read has been computed before, and nothing that is read has the number
of a label. -/
theorem Tree.operands_written (root : Tree) :
    (∀ (n : Nat) (i : Instruction), root.code[n]? = some i →
      ∃ operands, (root.uses 0)[n]? = some operands ∧ i.Takes operands ∧
        ∀ o ∈ operands, o.code <:+: root.code.take n ∧
          (o.tree.ending = .value → ∃ x ∈ o.code, x.dest? = some o.last)) ∧
    ((∀ operands ∈ root.uses 0, ∀ o ∈ operands, o.tree.ending = .value) →
      ∀ (n : Nat) (i : Instruction) (operands : List Operand), root.code[n]? = some i →
        (root.uses 0)[n]? = some operands → ∀ t, t ∈ i.reads ∨ t ∈ operands.map Operand.last →
          (∃ m < n, ∃ x, root.code[m]? = some x ∧ x.dest? = some t) ∧
            .label ⟨t.number⟩ ∉ root.code) := by
  have fed := root.fed_code
  have stands {n : Nat} {i : Instruction} (here : root.code[n]? = some i) :
      ∃ operands, (root.uses 0)[n]? = some operands ∧ i.Takes operands ∧
        ∀ o ∈ operands, o.code <:+: root.code.take n := by
    simpa using fed.get here
  constructor
  · intro n i here
    obtain ⟨operands, uses, takes, before⟩ := stands here
    exact ⟨operands, uses, takes, fun o mem => ⟨before o mem, o.written_iff.mpr⟩⟩
  · intro values n i operands here uses t read
    obtain ⟨_, uses', takes, before⟩ := stands here
    obtain rfl := Option.some.inj (uses.symm.trans uses')
    -- whatever is read is the last temporary of an operand
    have read : t ∈ operands.map Operand.last := by
      rcases read with read | read
      · rw [takes.reads_eq] at read
        exact List.map_subset _ List.filter_sublist.subset read
      · exact read
    obtain ⟨o, mem, rfl⟩ := List.mem_map.mp read
    have ending := values operands (List.mem_of_getElem? uses) o mem
    obtain ⟨x, inside, dest⟩ := o.written_iff.mpr ending
    have earlier : x ∈ root.code.take n := (before o mem).subset inside
    obtain ⟨m, there⟩ := List.getElem?_of_mem earlier
    have lt : m < n := by
      obtain ⟨lt, -⟩ := List.getElem?_eq_some_iff.mp there
      exact Nat.lt_of_lt_of_le lt (List.length_take_le _ _)
    rw [List.getElem?_take_of_lt lt] at there
    refine ⟨⟨m, lt, x, there, dest⟩, fun label => ?_⟩
    have same := Instruction.eq_of_number? root.nodup_numbers_code (List.mem_of_getElem? there)
      label (Instruction.number?_of_dest? dest) rfl
    rw [same] at dest
    cases dest

/-- A loop whose operands all end with values: its update is written behind its body and read
behind both. -/
theorem Tree.operands_written_loop :
    ∃ root,
      (Source.mk "" "for (let i = 0, i < 3, i + 1) \x7b print(i, f(-i)) \x7d").tree = .ok root ∧
      (∀ operands ∈ root.uses 0, ∀ o ∈ operands, o.tree.ending = .value) ∧
      root.code[15]? = some (.store "i" ⟨6⟩) ∧
      (∃ m < 15, ∃ x, root.code[m]? = some x ∧ x.dest? = some ⟨6⟩) ∧ .label ⟨6⟩ ∉ root.code := by
  obtain ⟨root, parsed, computed⟩ := Source.exists_tree
    (s := ⟨"", "for (let i = 0, i < 3, i + 1) \x7b print(i, f(-i)) \x7d"⟩)
    (p := fun root => (root.uses 0).all (·.all (·.tree.ending == .value)) &&
      root.code[15]? == some (.store "i" ⟨6⟩))
    (by decide +kernel)
  simp only [Bool.and_eq_true, List.all_eq_true, beq_iff_eq] at computed
  obtain ⟨values, store⟩ := computed
  obtain ⟨operands, uses, -, -⟩ := root.operands_written.1 15 _ store
  exact ⟨root, parsed, values, store,
    root.operands_written.2 values 15 _ operands store uses ⟨6⟩ (.inl (by decide))⟩

/-- A conditional whose body takes no number ends with its label, and an assignment of its value
reads a temporary that nothing has computed. -/
theorem Tree.assignment_reads_label :
    ∃ root o, (Source.mk "" "let x = if (a) \x7b g() \x7d").tree = .ok root ∧
      root.code = [.load ⟨0⟩ "a", .jumpUnless ⟨0⟩ ⟨1⟩, .call "g" [], .label ⟨1⟩, .store "x" ⟨1⟩] ∧
      (root.uses 0)[4]? = some [o] ∧ o.role = .value ∧ o.last = ⟨1⟩ ∧
      ∀ x ∈ root.code, x.dest? ≠ some o.last := by
  obtain ⟨root, parsed, computed⟩ := Source.exists_tree
    (s := ⟨"", "let x = if (a) \x7b g() \x7d"⟩)
    (p := fun root => root.code == [.load ⟨0⟩ "a", .jumpUnless ⟨0⟩ ⟨1⟩, .call "g" [], .label ⟨1⟩,
        .store "x" ⟨1⟩] &&
      (root.uses 0)[4]?.any (·.map (fun o => (o.role, o.last)) == [(.value, ⟨1⟩)]))
    (by decide +kernel)
  simp only [Bool.and_eq_true, beq_iff_eq, Option.any_eq_true] at computed
  obtain ⟨code, operands, uses, only⟩ := computed
  obtain ⟨o, rfl, pair⟩ := List.map_eq_singleton_iff.mp only
  obtain ⟨role, last⟩ := Prod.mk.inj pair
  refine ⟨root, o, parsed, code, uses, role, last, ?_⟩
  rw [code, last]
  decide

end Scriptlet
