/-!
# Lines of a text

## Main definitions

* `Text.join` — pieces with a separator between two
* `Text.split` — the pieces between the separators of a list

## Main results

* `Text.join_split` — the pieces with the separators between them are the list again
* `Text.length_split` — there is one piece more than there are separators
* `Text.split_append_cons`, `Text.split_of_not_mem` — a list splits at each separator, and only
  there
-/

namespace Scriptlet.Text

variable {α : Type}

/-- Pieces in a row with a separator between two. -/
def join (separator : α) : List (List α) → List α
  | [] => []
  | [piece] => piece
  | piece :: pieces => piece ++ separator :: join separator pieces

theorem join_cons (separator : α) (piece : List α) (pieces : List (List α)) :
    join separator (piece :: pieces) = piece ++ pieces.flatMap (separator :: ·) := by
  induction pieces generalizing piece with
  | nil => simp [join]
  | cons next pieces ih => simp [join, ih]

variable [DecidableEq α]

/-- The pieces of a list between separators: one more than there are separators. -/
def split (separator : α) : List α → List (List α)
  | [] => [[]]
  | a :: rest =>
    if a = separator then [] :: split separator rest
    else match split separator rest with
      | [] => [[a]]
      | piece :: pieces => (a :: piece) :: pieces

theorem split_ne_nil (separator : α) (list : List α) : split separator list ≠ [] := by
  cases list with
  | nil => simp [split]
  | cons a rest =>
    unfold split
    split
    · simp
    · split <;> simp

/-- Pieces put together again are the list that was split. -/
theorem join_split (separator : α) (list : List α) :
    join separator (split separator list) = list := by
  induction list with
  | nil => rfl
  | cons a rest ih =>
    unfold split
    split
    · next h =>
      obtain ⟨piece, pieces, hs⟩ := List.exists_cons_of_ne_nil (split_ne_nil separator rest)
      simp [hs] at ih
      simp [hs, join, ih, h]
    · split
      · next hs => exact absurd hs (split_ne_nil separator rest)
      · next piece pieces hs =>
        rw [hs] at ih
        cases pieces with
        | nil => simpa [join] using ih
        | cons _ _ => simpa [join] using ih

theorem split_cons_of_ne {separator a : α} (ne : a ≠ separator) {list piece : List α}
    {pieces : List (List α)} (rest : split separator list = piece :: pieces) :
    split separator (a :: list) = (a :: piece) :: pieces := by
  simp [split, ne, rest]

/-- At a separator the pieces before it and those behind it meet. -/
theorem split_append_cons (separator : α) (list rest : List α) :
    split separator (list ++ separator :: rest) = split separator list ++ split separator rest := by
  induction list with
  | nil => simp [split]
  | cons a list ih =>
    rw [List.cons_append]
    by_cases same : a = separator
    · simp [split, same, ih]
    · obtain ⟨piece, pieces, eq⟩ := List.exists_cons_of_ne_nil (split_ne_nil separator list)
      rw [eq] at ih
      rw [split_cons_of_ne same eq, split_cons_of_ne same ih]
      rfl

theorem split_of_not_mem {separator : α} {list : List α} (h : separator ∉ list) :
    split separator list = [list] := by
  induction list with
  | nil => rfl
  | cons a list ih =>
    simp only [List.mem_cons, not_or] at h
    exact split_cons_of_ne (Ne.symm h.1) (ih h.2)

/-- There is one piece more than there are separators. -/
theorem length_split (separator : α) (list : List α) :
    (split separator list).length = list.count separator + 1 := by
  induction list with
  | nil => rfl
  | cons a list ih =>
    by_cases same : a = separator
    · simp [split, same, ih]
    · obtain ⟨piece, pieces, eq⟩ := List.exists_cons_of_ne_nil (split_ne_nil separator list)
      rw [split_cons_of_ne same eq, List.count_cons_of_ne same, ← ih, eq]
      rfl

end Scriptlet.Text
