import Scriptlet.CommandLine.Session

/-!
# Sessions

A session answers each line of its input as the command answers a file of that name with the line as
content, and keeps nothing from one line for the next. It goes on over errors, and ends with the
input or at a line that is no text.

## Main definitions

* `Session.Lines` — the lines of an input
* `Session.answer` — what is written for a line, by way of a file

## Main results

* `Session.lines_iff` — an input has just these lines
* `Session.compileLines_eq` — lines in turn, and how the session ends
* `Session.run_input` — a session is the sequence of the answers to its lines
-/

namespace Scriptlet.Session

/-! ### Lines -/

/-- The lines of an input. A line feed ends a line, together with a carriage return in front of it
if there is one. What stands behind the last line feed is a line as well, unless it is empty. -/
inductive Lines : List UInt8 → List (List UInt8) → Prop
  | nothing : Lines [] []
  | unended {line : List UInt8} : line ≠ [] → 10 ∉ line → Lines line [line]
  | ended {line rest : List UInt8} {others : List (List UInt8)} :
    10 ∉ line → line.getLast? ≠ some 13 → Lines rest others →
      Lines (line ++ 10 :: rest) (line :: others)
  | returned {line rest : List UInt8} {others : List (List UInt8)} :
    10 ∉ line → Lines rest others → Lines (line ++ 13 :: 10 :: rest) (line :: others)

/-- The piece before a line feed is a line, but for a carriage return at its end. -/
theorem lines_append {line : List UInt8} (h : 10 ∉ line) (rest : List UInt8) :
    lines (line ++ 10 :: rest) =
      (if line.getLast? = some 13 then line.dropLast else line) :: lines rest := by
  obtain ⟨piece, pieces, eq⟩ := List.exists_cons_of_ne_nil (Text.split_ne_nil (10 : UInt8) rest)
  simp only [lines, Text.split_append_cons, Text.split_of_not_mem h, eq]
  simp

theorem lines_of_not_mem {line : List UInt8} (h : 10 ∉ line) :
    lines line = if line.isEmpty then [] else [line] := by
  simp only [lines, Text.split_of_not_mem h]
  cases line <;> rfl

theorem Lines.eq {input : List UInt8} {ls : List (List UInt8)} (h : Lines input ls) :
    lines input = ls := by
  induction h with
  | nothing => rfl
  | unended ne one =>
    rw [lines_of_not_mem one, if_neg (by simpa using ne)]
  | ended one plain _ ih => rw [lines_append one, if_neg plain, ih]
  | @returned line rest others one _ ih =>
    have one' : 10 ∉ line ++ [13] := by simpa using one
    have cut := lines_append one' rest
    rw [List.append_assoc] at cut
    rw [List.singleton_append] at cut
    simpa [ih] using cut

/-- The lines are found by taking one piece after another off the input. -/
theorem lines_spec (input : List UInt8) : Lines input (lines input) := by
  induction size : input.length using Nat.strongRecOn generalizing input with
  | ind n ih =>
    by_cases fed : 10 ∈ input
    · obtain ⟨line, rest, rfl, one⟩ := List.eq_append_cons_of_mem fed
      have shorter : rest.length < n := by
        rw [← size, List.length_append, List.length_cons]
        omega
      have others := ih rest.length shorter rest rfl
      rw [lines_append one]
      split
      · next isReturn =>
        obtain ⟨line', rfl⟩ := List.getLast?_eq_some_iff.mp isReturn
        have one' : 10 ∉ line' := fun mem => one (List.mem_append_left _ mem)
        have returned := Lines.returned one' others
        simpa using returned
      · next plain => exact .ended one plain others
    · rw [lines_of_not_mem fed]
      split
      · next none =>
        rw [List.isEmpty_iff.mp none]
        exact .nothing
      · next some => exact .unended (by simpa using some) fed

/-- An input has its lines, and no others. -/
theorem lines_iff {input : List UInt8} {ls : List (List UInt8)} :
    Lines input ls ↔ ls = lines input :=
  ⟨fun h => h.eq.symm, fun eq => eq ▸ lines_spec input⟩

-- a carriage return at the very end is part of its line
example : lines [97, 13, 10, 10, 98, 13] = [[97], [], [98, 13]] := by decide

/-! ### Answers -/

/-- A line is text. -/
def isText (line : List UInt8) : Bool := (textOfBytes? line).isSome

/-- A line is text, and all of it is white space. -/
def isBlank (line : List UInt8) : Bool :=
  (textOfBytes? line).any fun text => text.toList.all Text.isWhiteSpace

/-- What is written for a line: nothing if it is blank, and otherwise what the command writes for a
file under the name of the input whose content is the line. -/
def answer (form : Form) (line : List UInt8) : Outcome :=
  if isBlank line then ⟨0, "", ""⟩
  else run (.compile ⟨some inputName, form, false⟩) (fun _ => .ok line) []

/-- A line that is text is answered as a file with this content is. -/
theorem respond_of_isText {line : List UInt8} (h : isText line) (form : Form) :
    ∃ ok, respond ⟨none, form, false⟩ line =
      some ⟨(answer form line).output, (answer form line).errors, ok⟩ := by
  obtain ⟨text, read⟩ := Option.isSome_iff_exists.mp h
  unfold respond answer isBlank
  rw [read, Option.map_some, Option.any_some]
  by_cases blank : text.toList.all Text.isWhiteSpace
  · rw [if_pos blank, if_pos blank]
    exact ⟨true, rfl⟩
  · rw [if_neg blank, if_neg blank]
    exact ⟨_, by simp [run, compileFile, read, Except.bind]; rfl⟩

theorem respond_of_not_isText {line : List UInt8} (h : ¬ isText line) (options : Options) :
    respond options line = none := by
  have none : textOfBytes? line = none := Option.not_isSome_iff_eq_none.mp h
  rw [respond, none, Option.map_none]

/-- Lines are answered in turn, up to one that is no text. -/
theorem compileLines_eq (form : Form) (ls : List (List UInt8)) :
    let answers := (ls.takeWhile isText).map (answer form)
    let output := String.join (answers.map (prompt ++ ·.output)) ++ prompt
    let errors := String.join (answers.map (·.errors))
    compileLines ⟨none, form, false⟩ ls =
      if ls.all isText then ⟨0, output ++ "\n", errors⟩
      else ⟨1, output, errors ++ complaint inputName .notUnicode⟩ := by
  induction ls with
  | nil => rfl
  | cons line rest ih =>
    by_cases text : isText line
    · obtain ⟨ok, response⟩ := respond_of_isText text form
      simp only [compileLines, response, ih, List.takeWhile_cons_of_pos text, List.map_cons,
        String.join_cons, List.all_cons, text, Bool.true_and]
      -- the session ends as it does behind the first line
      split <;> simp only [String.append_assoc]
    · simp only [compileLines, respond_of_not_isText text, List.takeWhile_cons_of_neg text,
        List.all_cons, text, Bool.false_and]
      rfl

/-! ### The whole session -/

/-- A session without a log is the sequence of its lines. Its input has lines in one way only. Up to
the first that is no text there is a prompt for each, and then, unless the line is blank, what the
command writes for a file under the name of the input with the line as content. One more prompt
stands at the end; behind it the session ends with a line feed and success, or where a line is no
text with a complaint. -/
theorem run_input (form : Form) (content : String → Except FileFault (List UInt8))
    (input : List UInt8) : ∃ ls, (∀ ls', Lines input ls' ↔ ls' = ls) ∧
      let answers := (ls.takeWhile isText).map (answer form)
      let output := String.join (answers.map ("ourjs > " ++ ·.output)) ++ "ourjs > "
      let errors := String.join (answers.map (·.errors))
      run (.compile ⟨none, form, false⟩) content input =
        if ls.all isText then ⟨0, output ++ "\n", errors⟩
        else ⟨1, output, errors ++ "<stdin>: stream did not contain valid UTF-8\n"⟩ :=
  ⟨lines input, fun _ => lines_iff, compileLines_eq form (lines input)⟩

end Scriptlet.Session
