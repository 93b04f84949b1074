/-!
# Bindings of names

The names bound in one scope, each with its value. Names are kept in order and occur once,
so that two collections of bindings are equal as soon as they bind the same names to the same
values.

## Main definitions

* `Bindings` — names with their values
* `Bindings.get?`, `Bindings.insert`, `Bindings.erase` — look a name up, bind it, free it

## Main results

* `Bindings.get?_insert`, `Bindings.get?_erase` — what a name is bound to after a change
-/

namespace Scriptlet

/-- Names with their values, in the order of the names. -/
structure Bindings (V : Type) where
  entries : List (String × V)
  sorted : entries.Pairwise fun a b => a.1 < b.1
  deriving DecidableEq

namespace Bindings

variable {V : Type}

/-- No names at all. -/
def empty : Bindings V := ⟨[], .nil⟩

/-- What a name is bound to. -/
def get? (b : Bindings V) (name : String) : Option V := b.entries.lookup name

/-- Puts an entry at its place, over one of the same name. -/
def place (name : String) (value : V) : List (String × V) → List (String × V)
  | [] => [(name, value)]
  | entry :: rest =>
    if name = entry.1 then (name, value) :: rest
    else if name < entry.1 then (name, value) :: entry :: rest
    else entry :: place name value rest

theorem eq_or_mem_of_mem_place {name : String} {value : V} {entries : List (String × V)}
    {x : String × V} (h : x ∈ place name value entries) : x = (name, value) ∨ x ∈ entries := by
  induction entries with
  | nil => simpa [place] using h
  | cons entry rest ih =>
    unfold place at h
    split at h
    · rcases List.mem_cons.mp h with h | h
      · exact .inl h
      · exact .inr (List.mem_cons_of_mem _ h)
    · split at h
      · exact List.mem_cons.mp h
      · rcases List.mem_cons.mp h with h | h
        · exact .inr (h ▸ List.mem_cons_self ..)
        · exact (ih h).imp_right (List.mem_cons_of_mem _)

/-- Entries stay in the order of their names. -/
theorem pairwise_place (name : String) (value : V) {entries : List (String × V)}
    (h : entries.Pairwise fun a b => a.1 < b.1) :
    (place name value entries).Pairwise fun a b => a.1 < b.1 := by
  induction entries with
  | nil => simp [place]
  | cons entry rest ih =>
    obtain ⟨above, h⟩ := List.pairwise_cons.mp h
    unfold place
    split
    · next heq => exact .cons (fun x hx => heq ▸ above x hx) h
    · next hne =>
      split
      · next hlt =>
        refine .cons (fun x hx => ?_) (.cons above h)
        rcases List.mem_cons.mp hx with rfl | hx
        · exact hlt
        · exact String.lt_trans hlt (above x hx)
      · next hge =>
        refine .cons (fun x hx => ?_) (ih h)
        rcases eq_or_mem_of_mem_place hx with rfl | hx
        · exact Std.lt_of_le_of_ne (String.not_lt.mp hge) (Ne.symm hne)
        · exact above x hx

/-- Binds a name, over what it was bound to before. -/
def insert (b : Bindings V) (name : String) (value : V) : Bindings V :=
  ⟨place name value b.entries, pairwise_place name value b.sorted⟩

/-- Frees a name. -/
def erase (b : Bindings V) (name : String) : Bindings V :=
  ⟨b.entries.filter (·.1 != name), b.sorted.filter _⟩

private theorem lookup_cons (entry : String × V) (rest : List (String × V)) (name : String) :
    (entry :: rest).lookup name = if name = entry.1 then some entry.2 else rest.lookup name := by
  obtain ⟨bound, value⟩ := entry
  rw [List.lookup_cons]
  by_cases h : name = bound
  · simp [h]
  · simp [h, beq_eq_false_iff_ne.mpr h]

/-- A name has the value that it was given last. -/
theorem get?_insert (b : Bindings V) (name : String) (value : V) (other : String) :
    (b.insert name value).get? other = if other = name then some value else b.get? other := by
  obtain ⟨entries, sorted⟩ := b
  simp only [get?, insert]
  clear sorted
  induction entries with
  | nil => simp [place, lookup_cons]
  | cons entry rest ih =>
    unfold place
    split
    · next heq => grind [lookup_cons]
    · split <;> grind [lookup_cons]

/-- A name that is erased has no value, and other names keep theirs. -/
theorem get?_erase (b : Bindings V) (name other : String) :
    (b.erase name).get? other = if other = name then none else b.get? other := by
  obtain ⟨entries, sorted⟩ := b
  simp only [get?, erase]
  clear sorted
  induction entries with
  | nil => simp
  | cons entry rest ih =>
    by_cases h : entry.1 = name
    · rw [List.filter_cons_of_neg (by simp [h]), ih, lookup_cons]
      grind
    · rw [List.filter_cons_of_pos (by simp [h]), lookup_cons, lookup_cons, ih]
      grind

end Bindings

end Scriptlet
