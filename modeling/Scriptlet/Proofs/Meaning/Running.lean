import Scriptlet.Proofs.Meaning.Computing

/-!
# Code that runs

What the machine does between two positions of the code agrees with a run: whatever the run may
do the machine does, and a machine that stops in the end has done what the run may do. Both
directions are proved together for each way of putting runs together.

## Main definitions

* `Machine.Agrees` — between two positions the machine does what a run may do

## Main results

* `Machine.Agrees.andThen`, `Machine.Agrees.onlyIf`, `Machine.Agrees.repeats` — one part of the
  code after another, and parts inside jumps
-/

namespace Scriptlet

universe u

variable {V : Type u}

namespace Machine

/-- From position `p` to position `q` the machine does what a run may do, whatever stands in the
temporaries. -/
structure Agrees (m : Meaning V) (code : List Instruction) (p q : Nat) (run : Run V) : Prop where
  forwards : ∀ {s s' events}, run s s' events → ∀ temps before, ∃ n temps',
    steps m code n ⟨p, temps, s, before⟩ = some ⟨q, temps', s', before ++ events⟩
  backwards : ∀ {n temps s before final}, step? m code final = none →
    steps m code n ⟨p, temps, s, before⟩ = some final →
    ∃ s' events temps' n', run s s' events ∧ n' ≤ n ∧
      steps m code n' ⟨q, temps', s', before ++ events⟩ = some final

/-- From `p` the machine computes a condition and goes to `yes` where it holds, and to `no`
otherwise. -/
def Decides (m : Meaning V) (code : List Instruction) (p yes no : Nat)
    (condition : Computation V V) : Prop :=
  ∀ s, ∃ v s₁, condition s = some (v, s₁) ∧ ∀ temps before, ∃ n temps',
    steps m code (n + 1) ⟨p, temps, s, before⟩ =
      some ⟨if m.truthy v then yes else no, temps', s₁, before⟩

/-- From `p` the machine gets to `q` in one step that changes nothing else. -/
def Passes (m : Meaning V) (code : List Instruction) (p q : Nat) : Prop :=
  ∀ temps s before, step? m code ⟨p, temps, s, before⟩ = some ⟨q, temps, s, before⟩

section Jumps

variable {m : Meaning V} {code : List Instruction} {p q r yes no : Nat} {l : Label}
  {condition : Computation V V}

/-- A label is passed. -/
theorem passes_label (h : code[p]? = some (.label l)) : Passes m code p (p + 1) :=
  fun _ _ _ => (step?_eq h).trans rfl

/-- A jump goes to where its label is found. -/
theorem passes_jump (h : code[p]? = some (.jump l)) (found : code.idxOf? (.label l) = some q) :
    Passes m code p q := by
  intro temps s before
  rw [step?_eq h, execute?, State.jump?, found]
  rfl

/-- A conditional jump behind a condition decides by it; the label has to be passed as well. -/
theorem Computes.decides {k : Nat} {t : Temp} (h : Computes m code p q k t condition)
    (jump : code[q]? = some (.jumpUnless t l)) (found : code.idxOf? (.label l) = some r)
    (label : code[r]? = some (.label l)) : Decides m code p (q + 1) (r + 1) condition := by
  intro s
  obtain ⟨v, s₁, eq, runs⟩ := h s
  refine ⟨v, s₁, eq, fun temps before => ?_⟩
  obtain ⟨n, temps', steps, holds, -⟩ := runs temps before
  have step := step?_eq (m := m) (c := ⟨q, temps', s₁, before⟩) jump
  dsimp only at holds
  simp only [execute?, holds] at step
  -- where the condition fails, the machine jumps to the label and passes it
  by_cases truthy : m.truthy v
  · rw [if_pos truthy] at step ⊢
    exact ⟨n, temps', (steps_add steps).trans (steps_one step)⟩
  · rw [if_neg truthy, State.jump?, found] at step
    rw [if_neg truthy]
    have jumps := (steps_add steps).trans (steps_one step)
    exact ⟨n + 1, temps', (steps_add jumps).trans (steps_one (passes_label label ..))⟩

/-- A step on the way to a condition leaves the decision to it. -/
theorem Decides.behind (h : Decides m code q yes no condition) (passes : Passes m code p q) :
    Decides m code p yes no condition := by
  intro s
  obtain ⟨v, s₁, eq, runs⟩ := h s
  refine ⟨v, s₁, eq, fun temps before => ?_⟩
  obtain ⟨n, temps', steps⟩ := runs temps before
  refine ⟨n + 1, temps', ?_⟩
  rw [Nat.add_comm (n + 1), steps_add (steps_one (passes ..)), steps]

end Jumps

namespace Agrees

variable {m : Meaning V} {code : List Instruction} {p q r : Nat} {t : Temp}
  {run first second body round : Run V} {condition value : Computation V V}

theorem nothing : Agrees m code p p .nothing where
  forwards := by
    rintro s s' events ⟨rfl, rfl⟩ temps before
    exact ⟨0, temps, by simp [steps]⟩
  backwards := by
    intro n temps s before final stopped h
    exact ⟨s, [], temps, n, ⟨rfl, rfl⟩, Nat.le_refl n, by simpa using h⟩

/-- Where one run ends another one goes on. -/
theorem andThen (h : Agrees m code p q first) (h' : Agrees m code q r second) :
    Agrees m code p r (.andThen first second) where
  forwards := by
    rintro s s' events ⟨s₁, events₁, events₂, does, does', rfl⟩ temps before
    obtain ⟨n, temps₁, steps⟩ := h.forwards does temps before
    obtain ⟨n', temps₂, steps'⟩ := h'.forwards does' temps₁ (before ++ events₁)
    refine ⟨n + n', temps₂, ?_⟩
    rw [steps_add steps, steps', List.append_assoc]
  backwards := by
    intro n temps s before final stopped reaches
    obtain ⟨s₁, events₁, temps₁, n₁, does, le, rest⟩ := h.backwards stopped reaches
    obtain ⟨s₂, events₂, temps₂, n₂, does', le', rest'⟩ := h'.backwards stopped rest
    refine ⟨s₂, events₁ ++ events₂, temps₂, n₂, ⟨s₁, events₁, events₂, does, does', rfl⟩,
      Nat.le_trans le' le, ?_⟩
    rwa [← List.append_assoc]

/-- Where the machine always gets from `p` to `q`, and a run may only do what is done then. -/
theorem of_steps (does : ∀ s, ∃ s' events, run s s' events ∧
      (∀ s'' events'', run s s'' events'' → s'' = s' ∧ events'' = events) ∧
      ∀ temps before, ∃ n temps',
        steps m code n ⟨p, temps, s, before⟩ = some ⟨q, temps', s', before ++ events⟩) :
    Agrees m code p q run where
  forwards := by
    intro s s' events ran temps before
    obtain ⟨s₁, events₁, -, only, reaches⟩ := does s
    obtain ⟨rfl, rfl⟩ := only s' events ran
    exact reaches temps before
  backwards := by
    intro n temps s before final stopped h
    obtain ⟨s', events, ran, -, reaches⟩ := does s
    obtain ⟨k, temps', passes⟩ := reaches temps before
    -- a run that stops goes through `q`, since every run does
    obtain ⟨n', rfl, rest⟩ := steps_split stopped h passes
    exact ⟨s', events, temps', n', ran, Nat.le_add_left n' k, rest⟩

theorem compute {k : Nat} (h : Computes m code p q k t value) :
    Agrees m code p q (.compute value) := by
  refine of_steps fun s => ?_
  obtain ⟨v, s', eq, runs⟩ := h s
  refine ⟨s', [], ⟨v, eq, rfl⟩, ?_, fun temps before => ?_⟩
  · rintro s'' events ⟨w, eq', rfl⟩
    rw [eq] at eq'
    cases eq'
    exact ⟨rfl, rfl⟩
  · obtain ⟨n, temps', steps, -, -⟩ := runs temps before
    exact ⟨n, temps', by rw [steps, List.append_nil]⟩

theorem assign {k : Nat} {name : String} (h : Computes m code p q k t value)
    (stores : code[q]? = some (.store name t)) :
    Agrees m code p (q + 1) (.assign name value) := by
  refine of_steps fun s => ?_
  obtain ⟨v, s', eq, runs⟩ := h s
  refine ⟨s'.set name v, [], ⟨v, s', eq, rfl, rfl⟩, ?_, fun temps before => ?_⟩
  · rintro s'' events ⟨w, s₁, eq', rfl, rfl⟩
    rw [eq] at eq'
    cases eq'
    exact ⟨rfl, rfl⟩
  · obtain ⟨n, temps', steps, holds, -⟩ := runs temps before
    have step := steps_one ((step?_eq (m := m) (c := ⟨q, temps', s', before⟩) stores).trans rfl)
    refine ⟨n + 1, temps', ?_⟩
    rw [steps_add steps, step, ← holds, List.append_nil]
    rfl

/-- A call behind its arguments makes one event of their values. -/
theorem call {k : Nat} {callee : String} {ts : List Temp}
    {arguments : Computation V (List V)}
    (h : ComputesAs m code p q k (fun temps => ts.map temps) arguments)
    (calls : code[q]? = some (.call callee ts)) :
    Agrees m code p (q + 1) (.call callee arguments) := by
  refine of_steps fun s => ?_
  obtain ⟨vs, s', eq, runs⟩ := h s
  refine ⟨s', [⟨callee, vs⟩], ⟨vs, eq, rfl⟩, ?_, fun temps before => ?_⟩
  · rintro s'' events ⟨ws, eq', rfl⟩
    rw [eq] at eq'
    cases eq'
    exact ⟨rfl, rfl⟩
  · obtain ⟨n, temps', steps, holds, -⟩ := runs temps before
    have step := steps_one ((step?_eq (m := m) (c := ⟨q, temps', s', before⟩) calls).trans rfl)
    refine ⟨n + 1, temps', ?_⟩
    rw [steps_add steps, step, ← holds]
    rfl

/-- A step behind a run that changes nothing else belongs to the run. -/
theorem thenPass (h : Agrees m code p q run) (passes : Passes m code q r) :
    Agrees m code p r run where
  forwards := by
    intro s s' events does temps before
    obtain ⟨n, temps', steps⟩ := h.forwards does temps before
    exact ⟨n + 1, temps', (steps_add steps).trans (steps_one (passes ..))⟩
  backwards := by
    intro n temps s before final stopped reaches
    obtain ⟨s', events, temps', n', does, le, rest⟩ := h.backwards stopped reaches
    obtain ⟨n'', rfl, rest'⟩ := steps_split stopped rest (steps_one (passes ..))
    exact ⟨s', events, temps', n'', does, by omega, rest'⟩

/-- A body runs where the condition in front of it leads to it. -/
theorem onlyIf {yes no : Nat} (decides : Decides m code p yes no condition)
    (h : Agrees m code yes no body) : Agrees m code p no (.onlyIf m condition body) where
  forwards := by
    rintro s s' events ⟨v, s₁, eq, does⟩ temps before
    -- computing the condition has one result
    obtain ⟨v', s₁', eq', runs⟩ := decides s
    rw [eq] at eq'
    cases eq'
    obtain ⟨n, temps', steps⟩ := runs temps before
    by_cases truthy : m.truthy v
    · rw [if_pos truthy] at does steps
      obtain ⟨n', temps'', steps'⟩ := h.forwards does temps' before
      exact ⟨n + 1 + n', temps'', (steps_add steps).trans steps'⟩
    · rw [if_neg truthy] at does steps
      obtain ⟨rfl, rfl⟩ := does
      exact ⟨n + 1, temps', by rw [steps, List.append_nil]⟩
  backwards := by
    intro n temps s before final stopped reaches
    obtain ⟨v, s₁, eq, runs⟩ := decides s
    obtain ⟨k, temps', steps⟩ := runs temps before
    -- a run that stops gets beyond the decision
    obtain ⟨n', rfl, rest⟩ := steps_split stopped reaches steps
    by_cases truthy : m.truthy v
    · rw [if_pos truthy] at rest
      obtain ⟨s', events, temps'', n'', does, le, rest'⟩ := h.backwards stopped rest
      exact ⟨s', events, temps'', n'', ⟨v, s₁, eq, by rwa [if_pos truthy]⟩, by omega, rest'⟩
    · rw [if_neg truthy] at rest
      refine ⟨s₁, [], temps', n', ⟨v, s₁, eq, by simp [truthy]⟩, by omega, ?_⟩
      rwa [List.append_nil]

/-- Rounds that lead back to where the condition is computed. A run of the machine that stops
gets shorter with every round, which is what the induction backwards is on. -/
theorem repeats {yes no : Nat} (decides : Decides m code p yes no condition)
    (h : Agrees m code yes p round) : Agrees m code p no (.Repeats m condition round) where
  forwards := by
    intro s s' events does temps before
    -- the induction forwards is on the rounds
    induction does generalizing temps before with
    | @done s s' v eq falsy =>
      obtain ⟨v', s₁, eq', runs⟩ := decides s
      rw [eq] at eq'
      cases eq'
      obtain ⟨n, temps', steps⟩ := runs temps before
      rw [falsy, if_neg Bool.false_ne_true] at steps
      exact ⟨n + 1, temps', by rw [steps, List.append_nil]⟩
    | @again s s₁ s₂ s' v events events' eq truthy does _ ih =>
      obtain ⟨v', s₁', eq', runs⟩ := decides s
      rw [eq] at eq'
      cases eq'
      obtain ⟨n, temps₁, steps⟩ := runs temps before
      rw [if_pos truthy] at steps
      obtain ⟨n', temps₂, steps'⟩ := h.forwards does temps₁ before
      obtain ⟨n'', temps₃, steps''⟩ := ih temps₂ (before ++ events)
      refine ⟨n + 1 + (n' + n''), temps₃, ?_⟩
      rw [steps_add steps, steps_add steps', steps'', List.append_assoc]
  backwards := by
    intro n
    induction n using Nat.strongRecOn with
    | ind n ih =>
      intro temps s before final stopped reaches
      obtain ⟨v, s₁, eq, runs⟩ := decides s
      obtain ⟨k, temps₁, steps⟩ := runs temps before
      obtain ⟨n₁, rfl, rest⟩ := steps_split stopped reaches steps
      by_cases truthy : m.truthy v
      · rw [if_pos truthy] at rest
        obtain ⟨s₂, events, temps₂, n₂, does, le, rest'⟩ := h.backwards stopped rest
        -- deciding takes a step at least, so that less of the run is left
        obtain ⟨s', events', temps₃, n₃, does', le', rest''⟩ := ih n₂ (by omega) stopped rest'
        refine ⟨s', events ++ events', temps₃, n₃, .again eq truthy does does', by omega, ?_⟩
        rwa [← List.append_assoc]
      · rw [if_neg truthy] at rest
        refine ⟨s₁, [], temps₁, n₁, .done eq (Bool.not_eq_true _ ▸ truthy), by omega, ?_⟩
        rwa [List.append_nil]

end Agrees

end Machine

end Scriptlet
