import Scriptlet.CommandLine.Session
import Scriptlet.Proofs.Code.Origins
import Scriptlet.Proofs.Source.Content

/-!
# Code and its lines

The text of code is meant to have one instruction a line, and its lines are what the log counts as
instructions. Since the text of a string is written out as it is, a line feed in it breaks the line
of the instruction that loads it. Nothing else does.

## Main definitions

* `Instruction.lines` — the lines of the text of code

## Main results

* `Instruction.lines_eq` — they are those of the texts of its instructions
* `Instruction.FromTokens.of_lineFeed` — only the text of a string breaks a line
* `Source.lines_code` — the lines of the code of a source, and what the log says of them
-/

namespace Scriptlet

open Text

/-! ### Lines of a listing -/

namespace Instruction

/-- The lines of the text of code, each without its line feed. -/
def lines (code : List Instruction) : List (List Char) :=
  (split '\n' (listing code).toList).dropLast

variable {code : List Instruction}

theorem toList_listing_cons (i : Instruction) (code : List Instruction) :
    (listing (i :: code)).toList = i.toText.toList ++ '\n' :: (listing code).toList := by
  simp [listing, String.toList_append]

/-- Behind the last line feed nothing is left. -/
theorem split_listing (code : List Instruction) :
    split '\n' (listing code).toList =
      code.flatMap (fun i => split '\n' i.toText.toList) ++ [[]] := by
  induction code with
  | nil => rfl
  | cons i code ih =>
    rw [toList_listing_cons, split_append_cons, ih, List.flatMap_cons, List.append_assoc]

/-- The lines of code are those of its instructions in turn. -/
theorem lines_eq (code : List Instruction) :
    lines code = code.flatMap fun i => split '\n' i.toText.toList := by
  rw [lines, split_listing, List.dropLast_concat]

theorem length_lines (code : List Instruction) :
    (lines code).length = (listing code).toList.count '\n' := by
  rw [lines, List.length_dropLast, length_split, Nat.add_sub_cancel]

/-- Without line feeds in them, instructions are lines. -/
theorem lines_eq_map (h : ∀ i ∈ code, '\n' ∉ i.toText.toList) :
    lines code = code.map (·.toText.toList) := by
  rw [lines_eq]
  induction code with
  | nil => rfl
  | cons i code ih =>
    obtain ⟨first, rest⟩ := List.forall_mem_cons.mp h
    rw [List.flatMap_cons, List.map_cons, split_of_not_mem first, ih rest]
    rfl

/-- There are more lines than instructions as soon as one has a line feed in it. -/
theorem length_lines_eq_iff :
    (lines code).length = code.length ↔ ∀ i ∈ code, '\n' ∉ i.toText.toList := by
  refine ⟨fun eq => ?_, fun h => by rw [lines_eq_map h, List.length_map]⟩
  -- each instruction has one line at the least
  have least (code : List Instruction) : code.length ≤ (lines code).length := by
    rw [lines_eq]
    induction code with
    | nil => exact Nat.zero_le _
    | cons i code ih =>
      rw [List.flatMap_cons, List.length_append, length_split, List.length_cons]
      omega
  induction code with
  | nil => exact List.forall_mem_nil _
  | cons i code ih =>
    -- the rest has a line for each instruction, so that the first has one and no more
    have bound := least code
    rw [lines_eq, List.flatMap_cons, List.length_append, length_split, List.length_cons,
      ← lines_eq] at eq
    exact List.forall_mem_cons.mpr ⟨List.count_eq_zero.mp (by omega), ih (by omega)⟩

end Instruction

/-! ### Texts of instructions -/

theorem Temp.bare_toText (t : Temp) : Bare t.toText.toList := by
  rw [Temp.toText, String.toList_append]
  exact bare_append_iff.mpr ⟨List.forall_mem_singleton.mpr (by decide), bare_repr _⟩

theorem Label.bare_toText (l : Label) : Bare l.toText.toList := by
  rw [Label.toText, String.toList_append]
  exact bare_append_iff.mpr ⟨List.forall_mem_singleton.mpr (by decide), bare_repr _⟩

namespace Instruction

/-- The first argument stands behind a blank, and each other one behind a comma and a blank. -/
theorem toList_argumentsText_cons (t : Temp) (others : List Temp) :
    (argumentsText (t :: others)).toList =
      ' ' :: t.toText.toList ++ others.flatMap fun u => ',' :: ' ' :: u.toText.toList := by
  have joined : (String.intercalate ", " ((t :: others).map Temp.toText)).toList =
      t.toText.toList ++ others.flatMap fun u => ',' :: ' ' :: u.toText.toList := by
    induction others generalizing t with
    | nil => simp
    | cons u others ih =>
      simp only [List.map_cons] at ih ⊢
      rw [String.intercalate_cons_cons, String.toList_append, ih, String.toList_append,
        List.flatMap_cons]
      simp
  exact (String.toList_append).trans (congrArg (' ' :: ·) joined)

/-- Names, numbers and what instructions are written with break no line. -/
theorem not_lineFeed_mem_argumentsText (arguments : List Temp) :
    '\n' ∉ (argumentsText arguments).toList := by
  have temp (t : Temp) : '\n' ∉ t.toText.toList := t.bare_toText.not_mem (by decide)
  cases arguments with
  | nil => exact List.not_mem_nil
  | cons t others => simp [toList_argumentsText_cons, temp]

/-- An instruction whose text breaks a line loads a string with a line feed in it. -/
theorem FromTokens.of_lineFeed {P : Token → Prop} {i : Instruction}
    (h : i.FromTokens fun t => P t ∧ t.Bare) (feed : '\n' ∈ i.toText.toList) :
    ∃ dest t, P t ∧ t.kind = .string ∧ '\n' ∈ t.textOrEmpty.toList ∧
      i = .load dest ("\"" ++ t.textOrEmpty ++ "\"") := by
  have temp (t : Temp) : '\n' ∉ t.toText.toList := t.bare_toText.not_mem (by decide)
  have label (l : Label) : '\n' ∉ l.toText.toList := l.bare_toText.not_mem (by decide)
  -- the texts of names, numbers and signs have no line feed, and those of strings may have one
  have named {name : String} (names : Token.Names (fun t => P t ∧ t.Bare) name) :
      '\n' ∉ name.toList := by
    obtain ⟨t, kind, ⟨-, bare⟩, rfl⟩ := names
    exact (bare.name kind).not_mem (by decide)
  cases i with
  | load dest value =>
    obtain ⟨t, ⟨own, bare⟩, ⟨kind, rfl⟩ | ⟨kind, rfl⟩ | ⟨kind, rfl⟩⟩ := h
    · have number := (bare.number kind).not_mem (c := '\n') (by decide)
      simp [toText, String.toList_append, temp, number] at feed
    · exact ⟨dest, t, own, kind, by simpa [toText, String.toList_append, temp] using feed, rfl⟩
    · have name := (bare.name kind).not_mem (c := '\n') (by decide)
      simp [toText, String.toList_append, temp, name] at feed
  | store name source => simp [toText, String.toList_append, temp, named h] at feed
  | function name => simp [toText, String.toList_append, named h] at feed
  | binary dest left operator right =>
    obtain ⟨level, kind, -, rfl⟩ := h
    have mark : '\n' ∉ kind.operatorText.toList := by cases kind <;> decide
    simp [toText, String.toList_append, temp, mark] at feed
  | call callee arguments =>
    have called : '\n' ∉ callee.toList := by
      rcases h with names | ⟨t, rfl⟩
      · exact named names
      · exact temp t
    simp [toText, String.toList_append, called, not_lineFeed_mem_argumentsText] at feed
  | not dest operand | negate dest operand => simp [toText, String.toList_append, temp] at feed
  | jumpUnless condition target => simp [toText, String.toList_append, temp, label] at feed
  | jump target | label target => simp [toText, String.toList_append, label] at feed
  | «return» => simp [toText] at feed

end Instruction

/-! ### Sources -/

namespace Source

/-- What is logged of a source with a tree: how many tokens, statements and lines of code it has,
in whatever words. -/
theorem errors_report_of_tree {s : Source} {root : Tree} {tokens : List Token}
    (read : s.tokens = .ok tokens) (parsed : s.tree = .ok root) (log : Progress → String) :
    (s.report .code log).errors = log (.tokenized tokens.length) ++
      log (.parsed root.statementCount) ++
      log (.lowered (Instruction.lines root.code).length) := by
  have script : Tree.ofTokens tokens = .ok root := by
    rwa [tree_of_tokens read, mapError_eq_ok_iff] at parsed
  rw [Instruction.length_lines, report, read]
  simp only [script, Report.withLog, Report.success, reduceCtorEq, if_false,
    String.append_empty, String.append_assoc]

/-- The lines of the code of a source are those of its instructions, one for each unless the code
loads a string with a line feed in it. What is counted for the log, however it is worded there, are
the lines, and the log calls them instructions. -/
theorem lines_code {s : Source} {root : Tree} (parsed : s.tree = .ok root) :
    s.compile = .ok (Instruction.listing root.code) ∧
      Instruction.lines root.code = root.code.flatMap (fun i => split '\n' i.toText.toList) ∧
      ((Instruction.lines root.code).length = root.code.length ↔
        ∀ i ∈ root.code, '\n' ∉ i.toText.toList) ∧
      ∃ tokens, s.tokens = .ok tokens ∧
        (∀ log : Progress → String, (s.report .code log).errors =
          log (.tokenized tokens.length) ++ log (.parsed root.statementCount) ++
            log (.lowered (Instruction.lines root.code).length)) ∧
        (∀ i ∈ root.code, '\n' ∈ i.toText.toList → ∃ dest, ∃ t ∈ tokens, t.kind = .string ∧
          '\n' ∈ t.textOrEmpty.toList ∧ i = .load dest ("\"" ++ t.textOrEmpty ++ "\"")) ∧
        ((∀ t ∈ tokens, t.kind = .string → '\n' ∉ t.textOrEmpty.toList) →
          Instruction.lines root.code = root.code.map (·.toText.toList)) := by
  obtain ⟨tokens, read, origins⟩ := s.fromTokens_code parsed
  have strings (i : Instruction) (mem : i ∈ root.code) (feed : '\n' ∈ i.toText.toList) :
      ∃ dest, ∃ t ∈ tokens, t.kind = .string ∧ '\n' ∈ t.textOrEmpty.toList ∧
        i = .load dest ("\"" ++ t.textOrEmpty ++ "\"") :=
    (origins i mem).of_lineFeed feed
  refine ⟨compile_of_tree parsed, Instruction.lines_eq _, Instruction.length_lines_eq_iff, tokens,
    read, errors_report_of_tree read parsed, strings, fun plain => ?_⟩
  -- an instruction that broke its line would load a string that does
  refine Instruction.lines_eq_map fun i mem feed => ?_
  obtain ⟨dest, t, own, kind, inside, -⟩ := strings i mem feed
  exact plain t own kind inside

theorem lines_code_plain : ∃ root, Source.tree ⟨"", "f(\"a b\", 1)"⟩ = .ok root ∧
    root.code = [.load ⟨0⟩ "\"a b\"", .load ⟨1⟩ "1", .call "f" [⟨0⟩, ⟨1⟩]] ∧
    Source.compile ⟨"", "f(\"a b\", 1)"⟩ = .ok (Instruction.listing root.code) ∧
    Instruction.lines root.code = root.code.map (·.toText.toList) ∧
    (Instruction.lines root.code).length = 3 := by
  obtain ⟨root, parsed, computed⟩ := Source.exists_tree (s := ⟨"", "f(\"a b\", 1)"⟩)
    (p := fun root => root.code ==
      [.load ⟨0⟩ "\"a b\"", .load ⟨1⟩ "1", .call "f" [⟨0⟩, ⟨1⟩]])
    (by decide +kernel)
  have code := beq_iff_eq.mp computed
  obtain ⟨text, lines, single, -⟩ := lines_code parsed
  refine ⟨root, parsed, code, text, ?_, ?_⟩
  · rw [lines, code]
    decide +kernel
  · rw [single.mpr (by rw [code]; decide +kernel), code]
    rfl

/-- The text of a string may break the line of the instruction that loads it, and the log then
counts that instruction twice. -/
theorem lines_code_broken : ∃ root, Source.tree ⟨"", "\"a\\nb\""⟩ = .ok root ∧
    root.code = [.load ⟨0⟩ "\"a\nb\""] ∧
    Source.compile ⟨"", "\"a\\nb\""⟩ = .ok "t0 = \"a\nb\"\n" ∧
    Instruction.lines root.code = ["t0 = \"a".toList, "b\"".toList] ∧
    ∀ log : Progress → String, ∃ front,
      (Source.report ⟨"", "\"a\\nb\""⟩ .code log).errors = front ++ log (.lowered 2) := by
  obtain ⟨root, parsed, computed⟩ := Source.exists_tree (s := ⟨"", "\"a\\nb\""⟩)
    (p := fun root => root.code == [.load ⟨0⟩ "\"a\nb\""]) (by decide +kernel)
  have code := beq_iff_eq.mp computed
  have lines : Instruction.lines root.code = ["t0 = \"a".toList, "b\"".toList] := by
    rw [code]
    decide +kernel
  have text : Instruction.listing root.code = "t0 = \"a\nb\"\n" := by
    rw [code]
    decide +kernel
  obtain ⟨tokens, read, -⟩ := Source.fromTokens_code parsed
  refine ⟨root, parsed, code, text ▸ compile_of_tree parsed, lines, fun log => ?_⟩
  have errors := errors_report_of_tree read parsed log
  rw [lines] at errors
  exact ⟨_, errors⟩

end Source

end Scriptlet
