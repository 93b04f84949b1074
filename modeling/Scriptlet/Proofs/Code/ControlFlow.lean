import Scriptlet.Proofs.Code.Numbers

/-!
# Jumps and functions

The bodies of functions stand in the code between the instructions that open and close them,
and jumps go over whatever stands between them and their labels. A jump and its label belong to
the same bodies because what stands between the two opens and closes its own functions only.

## Main definitions

* `Balanced` — every function in the code is closed again
* `Encloses` — a function reaches from one place to another
* `ControlFlow` — jumps lead to labels within the same functions

## Main results

* `Assembled.balanced`, `Assembled.linked` — what holds of all code that is put together
* `Tree.controlFlow_code` — the code of every script has jumps to labels within the same functions
-/

namespace Scriptlet

namespace Instruction

/-- Whether an instruction opens or closes a function. -/
def isBracket : Instruction → Bool
  | function _ | .return => true
  | _ => false

/-- The label that an instruction may jump to. -/
def target? : Instruction → Option Label
  | jumpUnless _ l | jump l => some l
  | _ => none

end Instruction

/-- Functions are opened and closed as brackets are. -/
inductive Balanced : List Instruction → Prop
  | nil : Balanced []
  | plain {i : Instruction} : i.isBracket = false → Balanced [i]
  | append {code code' : List Instruction} :
    Balanced code → Balanced code' → Balanced (code ++ code')
  | function {name : String} {body : List Instruction} :
    Balanced body → Balanced (.function name :: body ++ [.return])

/-- The function opened at `p` is closed at `q`. -/
def Encloses (code : List Instruction) (p q : Nat) : Prop :=
  ∃ before name body after, code = before ++ .function name :: body ++ .return :: after ∧
    Balanced body ∧ p = before.length ∧ q = before.length + 1 + body.length

/-- Jumps lead to labels, conditional ones forwards and others backwards, and every function
has both the jump and the label inside or has both outside. -/
structure ControlFlow (code : List Instruction) : Prop where
  balanced : Balanced code
  placed : ∀ i ∈ code, ∀ l, i.target? = some l → code.count (.label l) = 1
  forwards : ∀ (i j : Nat) (t : Temp) (l : Label), code[i]? = some (.jumpUnless t l) →
    code[j]? = some (.label l) → i < j
  backwards : ∀ (i j : Nat) (l : Label), code[i]? = some (.jump l) →
    code[j]? = some (.label l) → j < i
  enclosed : ∀ (i j : Nat) (x : Instruction) (l : Label), code[i]? = some x →
    x.target? = some l → code[j]? = some (.label l) →
    ∀ p q, Encloses code p q → (p < i ∧ i < q ↔ p < j ∧ j < q)

/-! ### Depth -/

/-- By how much an instruction changes the depth of functions. -/
def Instruction.turn : Instruction → Int
  | function _ => 1
  | .return => -1
  | _ => 0

theorem Instruction.turn_eq_zero {i : Instruction} (h : i.isBracket = false) : i.turn = 0 := by
  cases i <;> simp_all [isBracket, turn]

/-- How many functions code leaves open. -/
def depth : List Instruction → Int
  | [] => 0
  | i :: code => i.turn + depth code

@[simp] theorem depth_nil : depth [] = 0 := rfl

@[simp] theorem depth_cons (i : Instruction) (code : List Instruction) :
    depth (i :: code) = i.turn + depth code := rfl

@[simp] theorem depth_append (code code' : List Instruction) :
    depth (code ++ code') = depth code + depth code' := by
  induction code with
  | nil => simp
  | cons i code ih =>
    simp only [List.cons_append, depth_cons, ih]
    omega

namespace Balanced

variable {code : List Instruction}

/-- Balanced code leaves no function open. -/
theorem depth_eq (h : Balanced code) : depth code = 0 := by
  induction h with
  | nil => rfl
  | plain kind => simp [Instruction.turn_eq_zero kind]
  | append _ _ ih ih' => simp [ih, ih']
  | function _ ih => simp [ih, Instruction.turn]

/-- No function is closed before it is opened. -/
theorem depth_take_nonneg (h : Balanced code) (n : Nat) : 0 ≤ depth (code.take n) := by
  induction h generalizing n with
  | nil => simp
  | plain kind => cases n <;> simp [Instruction.turn_eq_zero kind]
  | append _ _ ih ih' =>
    rw [List.take_append, depth_append]
    exact Int.add_nonneg (ih n) (ih' _)
  | @function name body _ ih =>
    cases n with
    | zero => simp
    | succ n =>
      -- the bracket that opens counts as long as the one that closes has not been reached
      have inside := ih n
      rw [List.cons_append, List.take_succ_cons, depth_cons, List.take_append, depth_append]
      have close : -1 ≤ depth ([Instruction.return].take (n - body.length)) := by
        cases n - body.length <;> simp [Instruction.turn]
      simp only [Instruction.turn]
      omega

end Balanced

theorem depth_take_succ {code : List Instruction} {n : Nat} {i : Instruction}
    (h : code[n]? = some i) : depth (code.take (n + 1)) = depth (code.take n) + i.turn := by
  simp [List.take_add_one, h]

/-- What stands between two places closes its own functions only. -/
structure Closed (code : List Instruction) (a b : Nat) : Prop where
  le : a ≤ b
  depth_eq : depth (code.take b) = depth (code.take a)
  depth_le : ∀ n, a ≤ n → n ≤ b → depth (code.take a) ≤ depth (code.take n)

/-- Balanced code stands between two places that are in the same functions. -/
theorem Balanced.closed {code body : List Instruction} (h : Balanced body)
    (before after : List Instruction) (eq : code = before ++ body ++ after) {a b : Nat}
    (start : a = before.length) (stop : b = a + body.length) : Closed code a b := by
  subst eq start stop
  -- inside the body, depth is counted from the depth in front of it
  have inside (m : Nat) (le : m ≤ body.length) :
      depth ((before ++ body ++ after).take (before.length + m)) =
        depth before + depth (body.take m) := by
    rw [List.append_assoc, List.take_length_add_append, depth_append,
      List.take_append_of_le_length le]
  have depthStart := inside 0 (Nat.zero_le _)
  rw [Nat.add_zero, List.take_zero, depth_nil, Int.add_zero] at depthStart
  refine ⟨Nat.le_add_right .., ?_, fun n le le' => ?_⟩
  · rw [inside _ (Nat.le_refl _), depthStart, List.take_length, h.depth_eq, Int.add_zero]
  · obtain ⟨m, rfl⟩ := Nat.exists_eq_add_of_le le
    rw [inside m (by omega), depthStart]
    have := h.depth_take_nonneg m
    omega

/-! ### Functions around a place -/

namespace Encloses

variable {code : List Instruction} {p q : Nat}

/-- A function begins with the instruction that names it. -/
theorem opens (h : Encloses code p q) : ∃ name, code[p]? = some (.function name) := by
  obtain ⟨before, name, body, after, rfl, -, rfl, -⟩ := h
  exact ⟨name, by simp⟩

/-- A function ends with the return from it. -/
theorem closes (h : Encloses code p q) : code[q]? = some .return := by
  obtain ⟨before, name, body, after, rfl, -, -, rfl⟩ := h
  rw [List.getElem?_append_right (by simp; omega)]
  simp [Nat.add_assoc, Nat.add_comm 1]

/-- The body of a function closes all that is opened in it. -/
theorem closed (h : Encloses code p q) : Closed code (p + 1) q := by
  obtain ⟨before, name, body, after, rfl, balanced, rfl, rfl⟩ := h
  exact balanced.closed (before ++ [.function name]) (.return :: after) (by simp) (by simp) rfl

/-- Two places that have closed code between them are inside the same functions. -/
theorem iff_of_closed (h : Encloses code p q) {a b : Nat} {x y : Instruction}
    (atA : code[a]? = some x) (plainX : x.isBracket = false) (atB : code[b]? = some y)
    (plainY : y.isBracket = false) (between : Closed code (a + 1) b) :
    p < a ∧ a < q ↔ p < b ∧ b < q := by
  obtain ⟨name, opens⟩ := h.opens
  have closes := h.closes
  have body := h.closed
  have bodyLe := body.le
  have bodyEq := body.depth_eq
  have betweenLe := between.le
  have betweenEq := between.depth_eq
  have stepA := depth_take_succ atA
  have stepP := depth_take_succ opens
  have stepQ := depth_take_succ closes
  rw [Instruction.turn_eq_zero plainX] at stepA
  simp only [Instruction.turn] at stepP stepQ
  -- the brackets of the function are none of the two places
  have neA : p ≠ a := by
    rintro rfl
    rw [opens] at atA
    cases atA
    cases plainX
  have neB : q ≠ b := by
    rintro rfl
    rw [closes] at atB
    cases atB
    cases plainY
  constructor
  · rintro ⟨pa, aq⟩
    refine ⟨by omega, ?_⟩
    by_cases bq : b < q
    · exact bq
    exfalso
    -- a function that is open at `a` would be closed before `b`
    have := between.depth_le (q + 1) (by omega) (by omega)
    have := body.depth_le a (by omega) (by omega)
    omega
  · rintro ⟨pb, bq⟩
    refine ⟨?_, by omega⟩
    by_cases pa : p < a
    · exact pa
    exfalso
    -- a function that is opened after `a` would be still open at `b`
    have := between.depth_le p (by omega) (by omega)
    have := body.depth_le b (by omega) (by omega)
    omega

end Encloses

/-! ### What stands between a jump and its label -/

/-- A jump leads over balanced code to a label, in the direction of its kind. -/
def Instruction.Linked (before after : List Instruction) : Instruction → Prop
  | jumpUnless _ l => ∃ between rest, after = between ++ .label l :: rest ∧ Balanced between
  | jump l => ∃ rest between, before = rest ++ .label l :: between ∧ Balanced between
  | _ => True

/-- Every jump in the code is linked, where the code stands between these parts. -/
def LinkedBetween (before : List Instruction) :
    List Instruction → List Instruction → Prop
  | [], _ => True
  | i :: code, after =>
    i.Linked before (code ++ after) ∧ LinkedBetween (before ++ [i]) code after

theorem linkedBetween_append {before code code' after : List Instruction} :
    LinkedBetween before (code ++ code') after ↔
      LinkedBetween before code (code' ++ after) ∧ LinkedBetween (before ++ code) code' after := by
  induction code generalizing before with
  | nil => simp [LinkedBetween]
  | cons i code ih =>
    simp only [List.cons_append, LinkedBetween, ih, List.append_assoc, List.nil_append, and_assoc]

/-- An instruction in linked code is linked to what stands before and after it. -/
theorem LinkedBetween.linked {before after : List Instruction} {i : Instruction}
    (h : LinkedBetween [] (before ++ i :: after) []) : i.Linked before after := by
  have here := (linkedBetween_append.mp h).2.1
  rwa [List.nil_append, List.append_nil] at here

/-- Code around one of its instructions. -/
theorem exists_eq_append_of_getElem? {code : List Instruction} {n : Nat} {i : Instruction}
    (h : code[n]? = some i) : ∃ before after, code = before ++ i :: after ∧ before.length = n := by
  obtain ⟨lt, rfl⟩ := List.getElem?_eq_some_iff.mp h
  refine ⟨code.take n, code.drop (n + 1), ?_, List.length_take_of_le (Nat.le_of_lt lt)⟩
  rw [List.getElem_cons_drop, List.take_append_drop]

namespace LinkedBetween

variable {code : List Instruction} {i : Nat} {l : Label}

/-- From a conditional jump to its label the code closes all that it opens. -/
theorem forwards (h : LinkedBetween [] code []) {t : Temp}
    (jump : code[i]? = some (.jumpUnless t l)) :
    ∃ j, code[j]? = some (.label l) ∧ Closed code (i + 1) j := by
  -- the part in front of the jump gives its place, the part behind it the label
  obtain ⟨before, after, rfl, rfl⟩ := exists_eq_append_of_getElem? jump
  obtain ⟨between, rest, rfl, balanced⟩ := h.linked
  refine ⟨before.length + 1 + between.length, ?_, ?_⟩
  · rw [List.getElem?_append_right (by omega)]
    simp [Nat.add_assoc, Nat.add_comm 1]
  · exact balanced.closed (before ++ [.jumpUnless t l]) (.label l :: rest) (by simp) (by simp) rfl

/-- From a label to the jump back to it the code closes all that it opens. -/
theorem backwards (h : LinkedBetween [] code []) (jump : code[i]? = some (.jump l)) :
    ∃ j, code[j]? = some (.label l) ∧ Closed code (j + 1) i := by
  obtain ⟨before, after, rfl, rfl⟩ := exists_eq_append_of_getElem? jump
  obtain ⟨rest, between, rfl, balanced⟩ := h.linked
  refine ⟨rest.length, by simp, ?_⟩
  exact balanced.closed (rest ++ [.label l]) (.jump l :: after) (by simp) (by simp)
    (by simp [Nat.add_assoc, Nat.add_comm 1])

end LinkedBetween

/-- Every function is closed in code that is put together. -/
theorem Assembled.balanced {k : Nat} {f : Fragment} (h : Assembled k f) : Balanced f.code := by
  induction h with
  | nothing => exact .nil
  | @compute _ i dest =>
    refine .plain ?_
    cases i <;> simp_all [Instruction.dest?, Instruction.isBracket]
  | @effect _ i effect =>
    refine .plain ?_
    cases i <;> simp_all [Instruction.isEffect, Instruction.isBracket]
  | append _ _ first second => exact first.append second
  | @runIf k condition body _ _ first second =>
    have jump : Balanced [.jumpUnless condition.last ⟨condition.next⟩] := .plain rfl
    have skip : Balanced [.label ⟨condition.next⟩] := .plain rfl
    simpa [Fragment.runIf] using (first.append jump).append (second.append skip)
  -- the code of a loop in the order in which it stands
  | @loop k name condition update body _ _ _ first second third =>
    have top : Balanced [.label ⟨update.next⟩] := .plain rfl
    have jump : Balanced [.jumpUnless condition.last ⟨update.next + 1⟩] := .plain rfl
    have store : Balanced [.store name update.last] := .plain rfl
    have back : Balanced [.jump ⟨update.next⟩] := .plain rfl
    have exit : Balanced [.label ⟨update.next + 1⟩] := .plain rfl
    simpa [Fragment.loop] using ((((top.append first).append (jump.append third)).append
      (second.append store)).append back).append exit
  | function _ inside => exact inside.function

/-- Every jump is linked in code that is put together, whatever stands around it. -/
theorem Assembled.linked {k : Nat} {f : Fragment} (h : Assembled k f)
    (before after : List Instruction) : LinkedBetween before f.code after := by
  induction h generalizing before after with
  | nothing => trivial
  | @compute _ i dest => cases i <;> simp_all [Instruction.dest?, LinkedBetween, Instruction.Linked]
  | @effect _ i effect =>
    cases i <;> simp_all [Instruction.isEffect, LinkedBetween, Instruction.Linked]
  | append _ _ first second => exact linkedBetween_append.mpr ⟨first _ _, second _ _⟩
  | @runIf k condition body _ inside first second =>
    simp only [Fragment.runIf, List.append_assoc, List.cons_append, linkedBetween_append,
      LinkedBetween]
    exact ⟨first _ _, ⟨_, after, rfl, inside.balanced⟩, second _ _, trivial, trivial⟩
  | @loop k name condition update body conditionInside updateInside inside first second third =>
    let top : Label := ⟨update.next⟩
    let exit : Label := ⟨update.next + 1⟩
    let round := (body (update.next + 2)).code ++ update.code ++ [.store name update.last]
    have store : Balanced [.store name update.last] := .plain rfl
    have repeated : Balanced round := (inside.balanced.append updateInside.balanced).append store
    -- what the conditional jump goes over ends with the jump back, and the jump back goes over
    -- all that stands behind its label
    have ahead : Balanced (round ++ [.jump top]) := repeated.append (.plain rfl)
    have back : Balanced (condition.code ++ [.jumpUnless condition.last exit] ++ round) :=
      (conditionInside.balanced.append (.plain rfl)).append repeated
    simp only [Fragment.loop, List.append_assoc, List.cons_append, linkedBetween_append,
      LinkedBetween]
    exact ⟨trivial, first _ _, ⟨_, after, by simp [round, top], ahead⟩, third _ _, second _ _,
      trivial, ⟨before, _, by simp [round, exit], back⟩, trivial, trivial⟩
  | @function k name body _ inside =>
    simp only [List.cons_append, linkedBetween_append, LinkedBetween]
    exact ⟨trivial, inside _ _, trivial, trivial⟩

/-- Functions are closed again in the code of every script. -/
theorem Tree.balanced_code (tree : Tree) : Balanced tree.code := by
  rw [tree.code_eq]
  exact (tree.assembled_lower 0).balanced

/-- Jumps are linked in the code of every script. -/
theorem Tree.linked_code (tree : Tree) : LinkedBetween [] tree.code [] := by
  rw [tree.code_eq]
  exact (tree.assembled_lower 0).linked [] []

/-- Jumps and functions of every script: each jump leads to the one label of its target, a
conditional one forwards and another backwards, and stays within the functions it stands in. -/
theorem Tree.controlFlow_code (tree : Tree) : ControlFlow tree.code := by
  have unique := tree.nodup_numbers_code
  have linked := tree.linked_code
  -- a jump reaches some label with its target, and there is no other one
  have reaches {i : Nat} {x : Instruction} {l : Label} (here : tree.code[i]? = some x)
      (target : x.target? = some l) : ∃ j, tree.code[j]? = some (.label l) ∧
        (Closed tree.code (i + 1) j ∨ Closed tree.code (j + 1) i) := by
    cases x <;> simp only [Instruction.target?, Option.some.injEq, reduceCtorEq] at target
    case jumpUnless =>
      obtain ⟨j, label, closed⟩ := linked.forwards (target ▸ here)
      exact ⟨j, label, .inl closed⟩
    case jump =>
      obtain ⟨j, label, closed⟩ := linked.backwards (target ▸ here)
      exact ⟨j, label, .inr closed⟩
  refine ⟨tree.balanced_code, fun x mem l target => ?_, fun i j t l here label => ?_,
    fun i j l here label => ?_, fun i j x l here target label p q encloses => ?_⟩
  · obtain ⟨i, here⟩ := List.getElem?_of_mem mem
    obtain ⟨j, label, -⟩ := reaches here target
    have placed := List.count_pos_iff.mpr (List.mem_of_getElem? label)
    have once := Instruction.count_label_le unique l
    omega
  · obtain ⟨j', label', closed⟩ := linked.forwards here
    obtain rfl := Instruction.eq_of_label unique label label'
    exact closed.le
  · obtain ⟨j', label', closed⟩ := linked.backwards here
    obtain rfl := Instruction.eq_of_label unique label label'
    exact closed.le
  · have plain : x.isBracket = false := by
      cases x <;> simp_all [Instruction.target?, Instruction.isBracket]
    obtain ⟨j', label', closed⟩ := reaches here target
    obtain rfl := Instruction.eq_of_label unique label label'
    -- what stands between the two is closed, whichever of them comes first
    rcases closed with closed | closed
    · exact encloses.iff_of_closed here plain label rfl closed
    · exact (encloses.iff_of_closed label rfl here plain closed).symm

end Scriptlet
