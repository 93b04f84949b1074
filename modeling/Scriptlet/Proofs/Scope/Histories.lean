import Mathlib.Data.Option.Basic
import Scriptlet.Scope.SymbolTable

/-!
# What a symbol table remembers

What a symbol table says depends on nothing but what was done to it before. Each scope that is open
has a record of its own, of the operations made while it was the innermost one. A name is bound in
a scope to the value of its latest definition there, unless it was removed since; and outer scopes
are as they were when the scope inside them was entered.

## Main definitions

* `SymbolTable.Operation`, `SymbolTable.afterAll?` — operations, and the table after them
* `SymbolTable.Scopes` — the records of the scopes that are open
* `SymbolTable.latest` — the value that a record leaves a name with
* `SymbolTable.Nested` — operations that leave no scope but those they have entered

## Main results

* `SymbolTable.latest_eq_some_iff` — the value of a name is that of its latest definition
* `SymbolTable.Scopes.Shows.afterAll?` — tables follow the records of their scopes
* `SymbolTable.afterAll?_child_intoParent` — what is done within a scope is undone when it is left
* `SymbolTable.answers_of_history` — what a table says after any operations
-/

namespace Scriptlet.SymbolTable

variable {V : Type}

/-- What can be done with a table: to change it, to enter or leave a scope, or to look at it. -/
inductive Operation (V : Type)
  | define (name : String) (value : V)
  | remove (name : String)
  | child
  | intoParent
  | parent
  | lookup (name : String)
  | lookupLocal (name : String)
  | depth
  deriving DecidableEq, Repr

namespace Operation

/-- A scope is entered. -/
def isChild : Operation V → Bool
  | child => true
  | _ => false

/-- A scope is left. -/
def isIntoParent : Operation V → Bool
  | intoParent => true
  | _ => false

/-- The name that is bound or freed. -/
def changed? : Operation V → Option String
  | define name _ | remove name => some name
  | _ => none

end Operation

/-- The table after an operation. Looking at a table leaves it as it is, and outside the global
scope there is none. -/
def after? (t : SymbolTable V) : Operation V → Option (SymbolTable V)
  | .define name value => some (t.define name value).2
  | .remove name => some (t.remove name).2
  | .child => some t.child
  | .intoParent => t.parent?
  | .parent | .lookup _ | .lookupLocal _ | .depth => some t

/-- The table after operations in turn. -/
def afterAll? (t : SymbolTable V) (ops : List (Operation V)) : Option (SymbolTable V) :=
  ops.foldlM after? t

@[simp] theorem afterAll?_nil (t : SymbolTable V) : t.afterAll? [] = some t := rfl

@[simp] theorem afterAll?_cons (t : SymbolTable V) (op : Operation V) (ops : List (Operation V)) :
    t.afterAll? (op :: ops) = (t.after? op).bind (·.afterAll? ops) :=
  List.foldlM_cons

theorem afterAll?_singleton (t : SymbolTable V) (op : Operation V) :
    t.afterAll? [op] = t.after? op := by
  simp

theorem afterAll?_append (t : SymbolTable V) (ops ops' : List (Operation V)) :
    t.afterAll? (ops ++ ops') = (t.afterAll? ops).bind (·.afterAll? ops') :=
  List.foldlM_append

/-! ### Records -/

/-- The value that a record, with the latest operation first, leaves a name with. -/
def latest : List (Operation V) → String → Option V
  | [], _ => none
  | .define bound value :: earlier, name => if name = bound then some value else latest earlier name
  | .remove freed :: earlier, name => if name = freed then none else latest earlier name
  | _ :: earlier, name => latest earlier name

/-- An operation on another name, or on none, makes no difference to a name. -/
theorem latest_cons_of_ne {op : Operation V} {name : String} (other : op.changed? ≠ some name)
    (earlier : List (Operation V)) : latest (op :: earlier) name = latest earlier name := by
  cases op with
  | define bound value | remove bound =>
    have ne : name ≠ bound := fun same => other (same ▸ rfl)
    exact if_neg ne
  | _ => rfl

/-- A name has the value of a definition behind which it was neither bound anew nor removed. -/
theorem latest_eq_some_iff {ops : List (Operation V)} {name : String} {value : V} :
    latest ops name = some value ↔ ∃ since before, ops = since ++ .define name value :: before ∧
      ∀ op ∈ since, op.changed? ≠ some name := by
  induction ops with
  | nil => simp [latest]
  | cons op ops ih =>
    by_cases here : op.changed? = some name
    · -- the latest operation settles the value
      have settles : latest (op :: ops) name = some value ↔ op = .define name value := by
        cases op with
        | define bound value' =>
          obtain rfl : bound = name := Option.some.inj here
          simp [latest]
        | remove freed =>
          obtain rfl : freed = name := Option.some.inj here
          simp [latest]
        | _ => cases here
      rw [settles]
      constructor
      · rintro rfl
        exact ⟨[], ops, rfl, List.forall_mem_nil _⟩
      · rintro ⟨since, before, eq, others⟩
        cases since with
        | nil => exact (List.cons_eq_cons.mp eq).1
        | cons op' since =>
          obtain ⟨rfl, -⟩ := List.cons_eq_cons.mp eq
          exact absurd here (others _ List.mem_cons_self)
    · rw [latest_cons_of_ne here, ih]
      constructor
      · rintro ⟨since, before, rfl, others⟩
        exact ⟨op :: since, before, rfl, List.forall_mem_cons.mpr ⟨here, others⟩⟩
      · rintro ⟨since, before, eq, others⟩
        cases since with
        | nil =>
          obtain ⟨rfl, -⟩ := List.cons_eq_cons.mp eq
          exact absurd rfl here
        | cons op' since =>
          obtain ⟨rfl, rfl⟩ := List.cons_eq_cons.mp eq
          exact ⟨since, before, rfl, (List.forall_mem_cons.mp others).2⟩

/-- The records of the scopes that are open, each with its latest operation first: that of the
innermost scope and those of the scopes around it, the nearest first. -/
structure Scopes (V : Type) where
  innermost : List (Operation V)
  enclosing : List (List (Operation V))

namespace Scopes

/-- One scope in which nothing was done. -/
def empty : Scopes V := ⟨[], []⟩

/-- The records after an operation, which goes into the record of the innermost scope. Entering a
scope begins a record, and leaving one drops it. -/
def after? : Scopes V → Operation V → Option (Scopes V)
  | ⟨innermost, enclosing⟩, .child => some ⟨[], innermost :: enclosing⟩
  | ⟨_, []⟩, .intoParent => none
  | ⟨_, scope :: scopes⟩, .intoParent => some ⟨scope, scopes⟩
  | ⟨innermost, enclosing⟩, op => some ⟨op :: innermost, enclosing⟩

/-- The records after operations in turn. -/
def afterAll? (s : Scopes V) (ops : List (Operation V)) : Option (Scopes V) := ops.foldlM after? s

/-- The table binds in each scope what the record of the scope says. -/
structure Shows (s : Scopes V) (t : SymbolTable V) : Prop where
  innermost : t.innermost.get? = latest s.innermost
  enclosing : t.enclosing.map Bindings.get? = s.enclosing.map latest

variable {s : Scopes V} {t : SymbolTable V}

theorem shows_empty : (empty : Scopes V).Shows .empty := ⟨rfl, rfl⟩

/-- Tables and records go on alike. -/
theorem Shows.after? (h : s.Shows t) (op : Operation V) :
    Option.Rel Shows (s.after? op) (t.after? op) := by
  obtain ⟨record, records⟩ := s
  obtain ⟨scope, scopes⟩ := t
  obtain ⟨same, sames⟩ := h
  cases op with
  | define name value =>
    refine .some ⟨funext fun other => ?_, sames⟩
    exact (Bindings.get?_insert scope name value other).trans (by rw [same]; rfl)
  | remove name =>
    refine .some ⟨funext fun other => ?_, sames⟩
    exact (Bindings.get?_erase scope name other).trans (by rw [same]; rfl)
  | child => exact .some ⟨rfl, congrArg₂ List.cons same sames⟩
  | intoParent =>
    cases records with
    | nil =>
      obtain rfl : scopes = [] := List.map_eq_nil_iff.mp sames
      exact .none
    | cons record' records =>
      obtain ⟨scope', scopes', rfl, same', sames'⟩ := List.map_eq_cons_iff.mp sames
      exact .some ⟨same', sames'⟩
  | parent | lookup | lookupLocal | depth => exact .some ⟨same, sames⟩

theorem Shows.afterAll? (h : s.Shows t) (ops : List (Operation V)) :
    Option.Rel Shows (s.afterAll? ops) (t.afterAll? ops) := by
  induction ops generalizing s t with
  | nil => exact .some h
  | cons op ops ih =>
    have next := h.after? op
    rw [Scopes.afterAll?, List.foldlM_cons, afterAll?_cons]
    generalize s.after? op = s', t.after? op = t' at next
    cases next with
    | none => exact .none
    | some shows => exact ih shows

end Scopes

/-! ### Scopes entered and left -/

/-- How often a scope is entered. -/
def enters (ops : List (Operation V)) : Nat := ops.countP Operation.isChild

/-- How often a scope is left. -/
def leaves (ops : List (Operation V)) : Nat := ops.countP Operation.isIntoParent

/-- At no time more scopes have been left than entered. -/
def Nested (ops : List (Operation V)) : Prop :=
  ∀ before, before <+: ops → leaves before ≤ enters before

variable {t t' : SymbolTable V} {op : Operation V}

/-- Besides the scopes that were there, those are open that were entered and not left. -/
theorem depth_after? (h : t.after? op = some t') :
    t'.depth + leaves [op] = t.depth + enters [op] := by
  cases op with
  | intoParent =>
    obtain ⟨scope, scopes⟩ := t
    cases scopes with
    | nil => cases h
    | cons scope' scopes =>
      cases h
      rfl
  | _ =>
    cases h
    rfl

theorem depth_afterAll? {ops : List (Operation V)} (h : t.afterAll? ops = some t') :
    t'.depth + leaves ops = t.depth + enters ops := by
  induction ops generalizing t with
  | nil =>
    cases h
    rfl
  | cons op ops ih =>
    rw [afterAll?_cons] at h
    obtain ⟨t₁, first, others⟩ := Option.bind_eq_some_iff.mp h
    have step := depth_after? first
    have rest := ih others
    simp only [leaves, enters, List.countP_cons, List.countP_nil] at step rest ⊢
    omega

/-- Only a scope that has another around it can be left. -/
theorem isSome_after?_iff : (t.after? op).isSome ↔ leaves [op] ≤ t.depth + enters [op] := by
  cases op with
  | intoParent =>
    obtain ⟨scope, scopes⟩ := t
    cases scopes with
    | nil => exact ⟨nofun, fun le => absurd le (Nat.not_succ_le_zero 0)⟩
    | cons scope' scopes => exact ⟨fun _ => Nat.succ_le_succ (Nat.zero_le _), fun _ => rfl⟩
  | _ => exact ⟨fun _ => Nat.zero_le _, fun _ => rfl⟩

/-- There is a table as long as no more scopes are left than there are. -/
theorem isSome_afterAll?_iff {ops : List (Operation V)} : (t.afterAll? ops).isSome ↔
    ∀ before, before <+: ops → leaves before ≤ t.depth + enters before := by
  induction ops generalizing t with
  | nil => simp [leaves]
  | cons op ops ih =>
    have first : (t.after? op).isSome ↔ _ := isSome_after?_iff
    rw [afterAll?_cons]
    cases next : t.after? op with
    | none =>
      rw [next] at first
      refine ⟨nofun, fun all => ?_⟩
      exact absurd (first.mpr (all [op] (List.prefix_append [op] ops))) nofun
    | some t₁ =>
      -- what was entered and left by the first operation is in the depth behind it
      have step := depth_after? next
      have along (before : List (Operation V)) : leaves before ≤ t₁.depth + enters before ↔
          leaves (op :: before) ≤ t.depth + enters (op :: before) := by
        simp only [leaves, enters, List.countP_cons, List.countP_nil] at step ⊢
        omega
      simp only [Option.bind_some, ih, along]
      constructor
      · intro all before isPrefix
        rcases List.prefix_cons_iff.mp isPrefix with rfl | ⟨rest, rfl, isPrefix⟩
        · exact Nat.zero_le _
        · exact all rest (List.cons_prefix_cons.mp isPrefix).2
      · intro all before isPrefix
        exact all (op :: before) (List.cons_prefix_cons.mpr ⟨rfl, isPrefix⟩)

/-! ### What is around a scope -/

/-- All scopes of a table are around the innermost scope of another. -/
def Surrounds (outer t : SymbolTable V) : Prop := outer.innermost :: outer.enclosing <:+ t.enclosing

namespace Surrounds

variable {outer : SymbolTable V}

theorem child (outer : SymbolTable V) : outer.Surrounds outer.child := List.suffix_rfl

/-- An operation does not reach what is around, unless it leaves for there. -/
theorem after? (h : outer.Surrounds t) (next : t.after? op = some t')
    (inside : outer.depth < t'.depth) : outer.Surrounds t' := by
  cases op with
  | child =>
    cases next
    exact List.IsSuffix.trans h (List.suffix_cons _ _)
  | intoParent =>
    obtain ⟨scope, scopes⟩ := t
    cases scopes with
    | nil => cases next
    | cons scope' scopes =>
      cases next
      -- the scope that becomes the innermost is not one of those around
      refine (List.suffix_cons_iff.mp h).resolve_left fun eq => ?_
      obtain ⟨-, rfl⟩ := List.cons_eq_cons.mp eq
      exact absurd inside (Nat.lt_irrefl _)
  | _ =>
    cases next
    exact h

theorem afterAll? {ops : List (Operation V)} (h : outer.Surrounds t)
    (run : t.afterAll? ops = some t')
    (inside : ∀ before, before <+: ops → outer.depth + leaves before < t.depth + enters before) :
    outer.Surrounds t' := by
  induction ops generalizing t with
  | nil =>
    cases run
    exact h
  | cons op ops ih =>
    rw [afterAll?_cons] at run
    obtain ⟨t₁, first, others⟩ := Option.bind_eq_some_iff.mp run
    have step := depth_after? first
    refine ih (h.after? first ?_) others fun before isPrefix => ?_
    · have here := inside [op] (List.prefix_append [op] ops)
      omega
    · have there := inside (op :: before) (List.cons_prefix_cons.mpr ⟨rfl, isPrefix⟩)
      simp only [leaves, enters, List.countP_cons, List.countP_nil] at step there ⊢
      omega

/-- Around a table one scope deeper stands just the other. -/
theorem parent?_eq (h : outer.Surrounds t) (depth : t.depth = outer.depth + 1) :
    t.parent? = some outer := by
  have eq : outer.innermost :: outer.enclosing = t.enclosing :=
    List.IsSuffix.eq_of_length h depth.symm
  rw [parent?, ← eq]

end Surrounds

/-- Operations within a scope that was entered leave what is around it as it was: when the scope is
left again, the table is what it was before. -/
theorem afterAll?_child_intoParent {ops : List (Operation V)} (nested : Nested ops)
    (closed : leaves ops = enters ops) (t : SymbolTable V) :
    t.afterAll? (.child :: ops ++ [.intoParent]) = some t := by
  have deeper : t.child.depth = t.depth + 1 := rfl
  have room : ∀ before, before <+: ops → leaves before ≤ t.child.depth + enters before :=
    fun before isPrefix => Nat.le_add_left_of_le (nested before isPrefix)
  obtain ⟨t', run⟩ := Option.isSome_iff_exists.mp (isSome_afterAll?_iff.mpr room)
  have around : t.Surrounds t' := by
    refine (Surrounds.child t).afterAll? run fun before isPrefix => ?_
    have := nested before isPrefix
    omega
  have depth := depth_afterAll? run
  have left : t'.parent? = some t := around.parent?_eq (by omega)
  have back : t'.afterAll? [.intoParent] = some t := (afterAll?_singleton t' _).trans left
  have entered : t.after? .child = some t.child := rfl
  rw [List.cons_append, afterAll?_cons, entered, Option.bind_some, afterAll?_append, run,
    Option.bind_some, back]

/-! ### What a table says -/

/-- What a table says, by the records of its scopes. A name is looked up in the innermost scope that
has a value for it; to look it up in the innermost scope alone, to define it and to remove it tells
what it is bound to there. -/
structure Tells (t : SymbolTable V) (s : Scopes V) : Prop where
  lookup (name : String) :
    t.lookup name = (s.innermost :: s.enclosing).findSome? fun record => latest record name
  lookupLocal (name : String) : t.lookupLocal name = latest s.innermost name
  define (name : String) (value : V) : (t.define name value).1 = latest s.innermost name
  remove (name : String) : (t.remove name).1 = latest s.innermost name
  depth : t.depth = s.enclosing.length

theorem Scopes.Shows.tells {s : Scopes V} (h : s.Shows t) : t.Tells s := by
  have bound (name : String) : t.innermost.get? name = latest s.innermost name :=
    congrFun h.innermost name
  have all : (t.innermost :: t.enclosing).map Bindings.get? =
      (s.innermost :: s.enclosing).map latest :=
    congrArg₂ List.cons h.innermost h.enclosing
  refine ⟨fun name => ?_, bound, fun name _ => bound name, bound, ?_⟩
  · have found := congrArg (List.findSome? fun binds => binds name) all
    rwa [List.findSome?_map, List.findSome?_map] at found
  · have lengths := congrArg List.length h.enclosing
    rwa [List.length_map, List.length_map] at lengths

/-- After any operations on an empty table there is a table, unless a scope was left that had not
been entered. It tells what the records of the open scopes say; its depth is the number of scopes
that were entered and not left again, and its parent is the table that leaving would give. Whatever
is done within a scope that is entered from a table, leaving the scope gives back that table. -/
theorem answers_of_history (ops : List (Operation V)) :
    ((empty.afterAll? ops).isSome ↔ Nested ops) ∧
    (∀ t, empty.afterAll? ops = some t →
      (∃ s, Scopes.empty.afterAll? ops = some s ∧ t.Tells s) ∧
      t.depth + leaves ops = enters ops ∧
      t.parent? = empty.afterAll? (ops ++ [.intoParent])) ∧
    (Nested ops → leaves ops = enters ops →
      ∀ t : SymbolTable V, t.afterAll? (.child :: ops ++ [.intoParent]) = some t) := by
  refine ⟨?_, fun t run => ⟨?_, ?_, ?_⟩, afterAll?_child_intoParent⟩
  · rw [isSome_afterAll?_iff]
    simp [Nested, depth, empty]
  · -- tables follow the records, so that the table there is belongs to some records
    have follows := Scopes.shows_empty.afterAll? ops
    rw [run] at follows
    generalize Scopes.empty.afterAll? ops = records at follows
    cases follows with
    | some shows => exact ⟨_, rfl, shows.tells⟩
  · exact (depth_afterAll? run).trans (Nat.zero_add _)
  · rw [afterAll?_append, run]
    exact (afterAll?_singleton t .intoParent).symm

/-- A name removed from an inner scope has the value of the outer one, and the scope entered from
there can be left for it. -/
theorem answers_of_history_shadowing :
    let inside : List (Operation Nat) := [.define "x" 2, .child, .define "x" 3, .intoParent,
      .remove "x", .define "y" 4]
    Nested inside ∧ leaves inside = enters inside ∧
      (∃ t, empty.afterAll? (.define "x" 1 :: .child :: inside) = some t ∧
        t.lookup "x" = some 1 ∧ t.lookupLocal "x" = none ∧ (t.remove "y").1 = some 4 ∧
        t.depth = 1) ∧
      ∀ t : SymbolTable Nat, t.afterAll? (.child :: inside ++ [.intoParent]) = some t := by
  intro inside
  have nested : Nested inside := (answers_of_history inside).1.mp rfl
  let ops := .define "x" 1 :: .child :: inside
  obtain ⟨t, run⟩ : ∃ t, empty.afterAll? ops = some t := ⟨_, rfl⟩
  obtain ⟨⟨s, records, tells⟩, -, -⟩ := (answers_of_history ops).2.1 t run
  obtain rfl : s = ⟨[.define "y" 4, .remove "x", .define "x" 2], [[.define "x" 1]]⟩ :=
    (Option.some.inj records).symm
  refine ⟨nested, rfl, ⟨t, run, ?_, ?_, ?_, tells.depth⟩,
    (answers_of_history inside).2.2 nested rfl⟩
  · rw [tells.lookup]
    decide
  · rw [tells.lookupLocal]
    decide
  · rw [tells.remove]
    decide

end Scriptlet.SymbolTable
