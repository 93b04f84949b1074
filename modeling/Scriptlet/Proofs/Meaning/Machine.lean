import Scriptlet.Proofs.Meaning.Reference

/-!
# Running code

A machine for code: temporaries, variables, and a position that jumps set to the position of a
label. What is loaded is the value of a variable where the text is a name, and otherwise what
the text denotes as a literal. Functions are not run.

## Main definitions

* `Machine.State`, `Machine.step?`, `Machine.steps` — one step of the machine, and several
* `Machine.Ends`, `Machine.GoesOn` — the machine comes to the end of the code, or never stops
* `Placed` — instructions stand in the code from a position on

## Main results

* `Machine.steps_split` — a run that stops goes through every state that it reaches
* `Placed.left`, `Placed.right` — parts of the code stand one behind another
-/

namespace Scriptlet

universe u

variable {V : Type u}

/-- Whether a text is a name: names begin with a letter, and the texts of integers and strings
begin otherwise. -/
def Instruction.isName (text : String) : Bool := text.toList.head?.any Char.isAlpha

/-- What a loaded text denotes. -/
def Meaning.read (m : Meaning V) (text : String) (s : Store V) : V :=
  if Instruction.isName text then s text else m.literal text

namespace Machine

/-- The state of the machine, with the calls made so far. -/
structure State (V : Type u) where
  position : Nat
  temps : Temp → V
  store : Store V
  events : List (Event V)

namespace State

/-- The state before the next instruction. -/
def next (c : State V) : State V := { c with position := c.position + 1 }

/-- The state after a value has been computed. -/
def compute (c : State V) (dest : Temp) (v : V) : State V :=
  { c.next with temps := fun t => if t = dest then v else c.temps t }

/-- The state at a label, if it is placed in the code. -/
def jump? (code : List Instruction) (l : Label) (c : State V) : Option (State V) :=
  (code.idxOf? (.label l)).map fun p => { c with position := p }

end State

/-- What one instruction does. -/
def execute? (m : Meaning V) (code : List Instruction) (c : State V) :
    Instruction → Option (State V)
  | .load dest text => some (c.compute dest (m.read text c.store))
  | .store name source => some { c.next with store := c.store.set name (c.temps source) }
  | .binary dest left operator right =>
    some (c.compute dest (m.binary operator (c.temps left) (c.temps right)))
  | .not dest operand => some (c.compute dest (m.not (c.temps operand)))
  | .negate dest operand => some (c.compute dest (m.negate (c.temps operand)))
  -- a jump sets the position to that of the label, which is executed next
  | .jumpUnless condition target =>
    if m.truthy (c.temps condition) then some c.next else c.jump? code target
  | .jump target => c.jump? code target
  | .label _ => some c.next
  | .call callee arguments =>
    some { c.next with events := c.events ++ [⟨callee, arguments.map c.temps⟩] }
  -- functions are not run
  | .function _ | .return => none

/-- One step: the instruction at the position is executed, if there is one. -/
def step? (m : Meaning V) (code : List Instruction) (c : State V) : Option (State V) :=
  code[c.position]?.bind (execute? m code c)

/-- So many steps. -/
def steps (m : Meaning V) (code : List Instruction) : Nat → State V → Option (State V)
  | 0, c => some c
  | n + 1, c => (step? m code c).bind (steps m code n)

/-- The state in which code is started. -/
def start (temps : Temp → V) (s : Store V) : State V := ⟨0, temps, s, []⟩

/-- The machine comes to the end of the code with this store and these calls. -/
def Ends (m : Meaning V) (code : List Instruction) (temps : Temp → V) (s s' : Store V)
    (events : List (Event V)) : Prop :=
  ∃ n temps', steps m code n (start temps s) = some ⟨code.length, temps', s', events⟩

/-- The machine never stops. -/
def GoesOn (m : Meaning V) (code : List Instruction) (temps : Temp → V) (s : Store V) : Prop :=
  ∀ n, (steps m code n (start temps s)).isSome

/-! ### Several steps -/

section Steps

variable {m : Meaning V} {code : List Instruction} {c c₁ c₂ final : State V}

theorem steps_one (h : step? m code c = some c₁) : steps m code 1 c = some c₁ := by
  simp [steps, h]

/-- Several steps and then several more are as many steps as both. -/
theorem steps_add {n k : Nat} (h : steps m code n c = some c₁) :
    steps m code (n + k) c = steps m code k c₁ := by
  induction n generalizing c with
  | zero =>
    obtain rfl : c = c₁ := Option.some.inj h
    rw [Nat.zero_add]
  | succ n ih =>
    obtain ⟨c₀, first, others⟩ := Option.bind_eq_some_iff.mp h
    rw [Nat.add_right_comm, steps, first, Option.bind_some, ih others]

/-- A run that stops goes through every state that it reaches. -/
theorem steps_split {n k : Nat} (stopped : step? m code final = none)
    (h : steps m code n c = some final) (h' : steps m code k c = some c₁) :
    ∃ n', n = k + n' ∧ steps m code n' c₁ = some final := by
  induction k generalizing n c with
  | zero =>
    obtain rfl : c = c₁ := Option.some.inj h'
    exact ⟨n, (Nat.zero_add n).symm, h⟩
  | succ k ih =>
    obtain ⟨c₀, first, others⟩ := Option.bind_eq_some_iff.mp h'
    cases n with
    | zero =>
      -- a state with no next step is only reached at the end
      obtain rfl : c = final := Option.some.inj h
      simp [stopped] at first
    | succ n =>
      rw [steps, first, Option.bind_some] at h
      obtain ⟨n', rfl, rest⟩ := ih h others
      exact ⟨n', Nat.add_right_comm k n' 1, rest⟩

/-- There is no next step at the end of the code or beyond it. -/
theorem step?_of_length_le (h : code.length ≤ c.position) : step? m code c = none := by
  simp [step?, List.getElem?_eq_none h]

end Steps

end Machine

/-! ### Where instructions stand -/

/-- The instructions stand in the code from position `p` on. -/
def Placed (code : List Instruction) (p : Nat) (part : List Instruction) : Prop :=
  ∀ n < part.length, code[p + n]? = part[n]?

namespace Placed

variable {code part part' : List Instruction} {p : Nat} {i : Instruction}

theorem refl (code : List Instruction) : Placed code 0 code := by
  intro n _
  rw [Nat.zero_add]

/-- The first of two parts stands where both do. -/
theorem left (h : Placed code p (part ++ part')) : Placed code p part := by
  intro n lt
  rw [h n (by simp; omega), List.getElem?_append_left lt]

/-- The second of two parts stands where the first ends. -/
theorem right (h : Placed code p (part ++ part')) : Placed code (p + part.length) part' := by
  intro n lt
  rw [Nat.add_assoc, h (part.length + n) (by simp; omega),
    List.getElem?_append_right (Nat.le_add_right ..), Nat.add_sub_cancel_left]

theorem head (h : Placed code p (i :: part)) : code[p]? = some i :=
  h 0 (Nat.zero_lt_succ _)

theorem tail (h : Placed code p (i :: part)) : Placed code (p + 1) part := by
  intro n lt
  rw [Nat.add_assoc, Nat.add_comm 1, h (n + 1) (Nat.succ_lt_succ lt), List.getElem?_cons_succ]

end Placed

end Scriptlet
