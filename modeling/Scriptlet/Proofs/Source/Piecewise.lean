import Scriptlet.Compiling
import Scriptlet.Proofs.Lexemes.Cut
import Scriptlet.Proofs.Syntax.Completeness

/-!
# Sources in pieces

Two scripts with a separator between them are one script: it has the statements of the first and
then those of the second, and its code is that of the one followed by that of the other, with
numbers that go on. The first may not end in a string that is not closed, which would take the
separator and the second script in.

## Main results

* `Source.tree_eq_ok_iff` — the tree of a source is what the tokens of its cut spell
* `Source.tree_append` — the tree and the code of two scripts in a row
-/

namespace Scriptlet

theorem mapError_eq_ok_iff {ε ε' α : Type} {x : Except ε α} {f : ε → ε'} {a : α} :
    x.mapError f = .ok a ↔ x = .ok a := by
  cases x <;> simp [Except.mapError]

theorem mapError_eq_error_iff {ε ε' α : Type} {x : Except ε α} {f : ε → ε'} {e : ε'} :
    x.mapError f = .error e ↔ ∃ e', x = .error e' ∧ f e' = e := by
  cases x <;> simp [Except.mapError]

/-- The words of a text are what is read before its end. -/
theorem Cut.ofTokens_eq {p : Position} {text : List Char} {w : List Token} {final : Token}
    (h : Cut p text w) (isFinal : final.kind = .endOfInput) :
    Cursor.ofTokens (w ++ [final]) = ⟨[], w, final⟩ := by
  have words : ∀ t ∈ w, (t.kind != .endOfInput) := by simpa using h.kind_ne
  rw [Cursor.ofTokens, List.takeWhile_append_of_pos words, List.dropWhile_append_of_pos words]
  simp [isFinal]

/-- The tree of a source is what the tokens that it is cut into spell. -/
theorem Source.tree_eq_ok_iff {s : Source} {root : Tree} :
    s.tree = .ok root ↔
      ∃ w, Cut (.start s) s.text.toList w ∧ Spells .statements w root := by
  have parsed (w : List Token) (cut : Cut (.start s) s.text.toList w) :
      Tree.ofTokens (w ++ [⟨.endOfInput, none, s.stop, s.stop⟩]) = .ok root ↔
        Spells .statements w root := by
    rw [Tree.ofTokens, mapError_eq_ok_iff, Grammar.script_eq_ok_iff, cut.ofTokens_eq rfl]
  have tree_iff : s.tree = .ok root ↔
      ∃ tokens, s.tokens = .ok tokens ∧ Tree.ofTokens tokens = .ok root := by
    unfold Source.tree
    cases s.tokens with
    | error e => simp [Except.mapError, bind, Except.bind]
    | ok tokens => exact mapError_eq_ok_iff.trans (by simp)
  rw [tree_iff]
  constructor
  · rintro ⟨tokens, read, ok⟩
    obtain ⟨w, cut, rfl⟩ := Token.readFrom_eq_ok_iff.mp read
    exact ⟨w, cut, (parsed w cut).mp ok⟩
  · rintro ⟨w, cut, spells⟩
    exact ⟨_, Token.readFrom_eq_ok_iff.mpr ⟨w, cut, rfl⟩, (parsed w cut).mpr spells⟩

/-! ### Statements in a row -/

/-- Further statements behind further statements. -/
theorem SpellsEach.append {w v : List Token} {trees others : List Tree}
    (h : SpellsEach .furtherStatements w trees) (more : SpellsEach .furtherStatements v others) :
    SpellsEach .furtherStatements (w ++ v) (trees ++ others) := by
  match h with
  | .noStatements separators =>
    match more with
    | .noStatements separators' =>
      exact .noStatements (List.forall_mem_append.mpr ⟨separators, separators'⟩)
    | .statement between ne first rest =>
      have whole := SpellsEach.statement (List.forall_mem_append.mpr ⟨separators, between⟩)
        (List.append_ne_nil_of_right_ne_nil w ne) first rest
      simpa using whole
  | .statement between ne first rest =>
    have whole := SpellsEach.statement between ne first (rest.append more)
    simpa using whole

/-- The statements of a script are further statements behind a separator. -/
theorem Spells.further {w : List Token} {root : Tree} (h : Spells .statements w root)
    {separator : Token} (separates : separator.kind = .separator) :
    ∃ statements start stop, root = .sequence statements start stop ∧
      SpellsEach .furtherStatements (separator :: w) statements := by
  cases h with
  | @statements lead w rest first others start stop separators first others =>
    have between : Separators (separator :: lead) :=
      List.forall_mem_cons.mpr ⟨separates, separators⟩
    exact ⟨_, start, stop, rfl, .statement between (List.cons_ne_nil _ _) ‹_› ‹_›⟩

/-- Two scripts with a separator between them spell the statements of both. -/
theorem Spells.append {w v : List Token} {first second : Tree} (h : Spells .statements w first)
    (h' : Spells .statements v second) {separator : Token}
    (separates : separator.kind = .separator) :
    ∃ statements start stop statements' start' stop' start'' stop'',
      first = .sequence statements start stop ∧ second = .sequence statements' start' stop' ∧
      Spells .statements (w ++ separator :: v)
        (.sequence (statements ++ statements') start'' stop'') := by
  obtain ⟨statements', start', stop', rfl, further⟩ := h'.further separates
  cases h with
  | @statements lead w rest tree others start stop separators spells spellsEach spans =>
    have ne : lead ++ w ++ (rest ++ separator :: v) ≠ [] := by simp
    obtain ⟨start'', stop'', spans'⟩ := exists_spans ne
    have whole := Spells.statements separators spells (spellsEach.append further) spans'
    exact ⟨_, _, _, _, _, _, start'', stop'', rfl, rfl, by simpa using whole⟩

/-! ### Code in a row -/

/-- The code of trees behind trees, with numbers that go on. -/
theorem Tree.lowerEach_append (trees others : List Tree) (k : Nat) :
    (Tree.lowerEach (trees ++ others) k).2 =
      ⟨(Tree.lowerEach trees k).2.code ++
          (Tree.lowerEach others (Tree.lowerEach trees k).2.next).2.code,
        (Tree.lowerEach others (Tree.lowerEach trees k).2.next).2.next⟩ := by
  induction trees generalizing k with
  | nil => rfl
  | cons tree trees ih => simp only [List.cons_append, Tree.lowerEach, ih, List.append_assoc]

/-- A script has the code of its pieces, one added after the other. -/
theorem Generator.code_add_add {whole first second : List Tree}
    (h : whole.map Tree.unplaced = (first ++ second).map Tree.unplaced)
    (start stop start₁ stop₁ start₂ stop₂ : Position) :
    (Tree.sequence whole start stop).code =
      ((Generator.empty.add (.sequence first start₁ stop₁)).add
        (.sequence second start₂ stop₂)).code := by
  simp only [Tree.code, Generator.add_eq, Tree.lower, Generator.append_code,
    Generator.append_next]
  rw [Tree.lowerEach_eq_of_unplaced_eq h, Tree.lowerEach_append, List.append_assoc]

/-! ### Sources in a row -/

/-- A separator is a word whatever stands behind. -/
theorem Lexeme.longest_separator {c : Char} (separates : c ∈ [';', '\n']) (text : List Char) :
    Longest (c :: text) [c] .separator none := by
  rcases List.mem_pair.mp separates with rfl | rfl
  · exact longest_single .semicolon (by decide) text
  · exact longest_single .lineFeed (by decide) text

/-- Two scripts with a separator between them are one script, unless the first ends in a string
that is not closed. It has the statements of the first and then those of the second, and its code
is that of the one and then that of the other, gathered with numbers that go on. -/
theorem Source.tree_append {name₁ name₂ a b : String} {first second : Tree}
    (parsed : Source.tree ⟨name₁, a⟩ = .ok first) (parsed' : Source.tree ⟨name₂, b⟩ = .ok second)
    (closed : ¬ EndsInString a.toList) {c : Char} (separates : c ∈ [';', '\n']) (name : String) :
    ∃ statements start stop statements₁ start₁ stop₁ statements₂ start₂ stop₂,
      Source.tree ⟨name, a ++ c.toString ++ b⟩ = .ok (.sequence statements start stop) ∧
      first = .sequence statements₁ start₁ stop₁ ∧ second = .sequence statements₂ start₂ stop₂ ∧
      statements.map Tree.unplaced = (statements₁ ++ statements₂).map Tree.unplaced ∧
      (Tree.sequence statements start stop).code =
        ((Generator.empty.add first).add second).code := by
  obtain ⟨w, cut, spells⟩ := Source.tree_eq_ok_iff.mp parsed
  obtain ⟨v, cut', spells'⟩ := Source.tree_eq_ok_iff.mp parsed'
  -- both texts are cut as before, each at its new place
  let whole : Source := ⟨name, a ++ c.toString ++ b⟩
  let p := (Position.start whole).advanceAll a.toList
  let separator : Token := ⟨.separator, none, p, p.advanceAll [c]⟩
  obtain ⟨w', cut, alike⟩ := cut.moved (.start whole)
  obtain ⟨v', cut', alike'⟩ := cut'.moved (p.advanceAll [c])
  have ends : ∀ d ∈ (c :: b.toList).head?, Lexeme.continues d = false := by
    rcases List.mem_pair.mp separates with rfl | rfl <;> simp <;> decide
  have behind : Cut p ([c] ++ b.toList) (separator :: v') :=
    .word (Lexeme.longest_separator separates b.toList) cut'
  have cutWhole : Cut (.start whole) whole.text.toList (w' ++ separator :: v') := by
    simpa [whole] using cut.append closed ends behind
  -- and the words are alike, so that they spell the same statements
  obtain ⟨statements₁, start₁, stop₁, statements₂, start₂, stop₂, start, stop, rfl, rfl, spells⟩ :=
    spells.append spells' (show separator.kind = .separator from rfl)
  have alikeWhole : (w' ++ separator :: v').map Token.unplaced =
      (w ++ separator :: v).map Token.unplaced := by
    simp only [List.map_append, List.map_cons, alike, alike']
  obtain ⟨root, spells, same⟩ := spells.moved alikeWhole
  obtain ⟨statements, start', stop', rfl, sameEach⟩ := Tree.unplaced_eq_sequence same
  exact ⟨statements, start', stop', statements₁, start₁, stop₁, statements₂, start₂, stop₂,
    Source.tree_eq_ok_iff.mpr ⟨_, cutWhole, spells⟩, rfl, rfl, sameEach,
    Generator.code_add_add sameEach _ _ _ _ _ _⟩

theorem Source.tree_append_negation : ∃ first second statements start stop,
    Source.tree ⟨"", "let x = f(1)\n"⟩ = .ok first ∧ Source.tree ⟨"", "\n-x\n\"y"⟩ = .ok second ∧
      Source.tree ⟨"", "let x = f(1)\n" ++ ';'.toString ++ "\n-x\n\"y"⟩ =
        .ok (.sequence statements start stop) ∧ statements.length = 3 ∧
      (Tree.sequence statements start stop).code =
        ((Generator.empty.add first).add second).code := by
  obtain ⟨first, parsed, one⟩ := Source.exists_tree (s := ⟨"", "let x = f(1)\n"⟩)
    (p := fun root => root.statementCount == 1) (by decide +kernel)
  obtain ⟨second, parsed', two⟩ := Source.exists_tree (s := ⟨"", "\n-x\n\"y"⟩)
    (p := fun root => root.statementCount == 2) (by decide +kernel)
  have closed : ¬ EndsInString "let x = f(1)\n".toList := fun isOpen =>
    absurd isOpen.quote_mem (by decide)
  obtain ⟨statements, start, stop, statements₁, _, _, statements₂, _, _, whole, rfl, rfl, same,
    code⟩ := Source.tree_append parsed parsed' closed (c := ';') (by decide) ""
  refine ⟨_, _, statements, start, stop, parsed, parsed', whole, ?_, code⟩
  have lengths := congrArg List.length same
  rw [List.length_map, List.length_map, List.length_append] at lengths
  rw [lengths, show statements₁.length = 1 from beq_iff_eq.mp one,
    show statements₂.length = 2 from beq_iff_eq.mp two]

end Scriptlet
