import Scriptlet.Proofs.Code.Lines

/-!
# Reading code back

The text of code can be read back where it is clear what its words are: no name is taken for a
temporary or a label, and no string breaks a line. Then the text tells the instructions, and two
scripts with the same text of code have the same code.

Words are told apart by blanks. Only the text of a string has blanks of its own, and it is all that
is left of its line.

## Main definitions

* `Text.isNumbered` — a letter with digits behind it, as temporaries and labels are written
* `Instruction.ofText?`, `Instruction.ofListing?` — read an instruction, and code
* `Instruction.Clear` — the words of an instruction are told apart
* `Token.Unmistakable` — a token whose text is taken for nothing else

## Main results

* `Instruction.ofText?_toText`, `Instruction.ofListing?_listing` — clear code is read back
* `Source.code_of_listing` — the text of code tells the code
-/

namespace Scriptlet

open Text

/-! ### Numbered words -/

/-- A letter with decimal digits behind it, one at least, and nothing else. -/
def Text.isNumbered (letter : Char) : List Char → Bool
  | [] => false
  | c :: digits => c == letter && !digits.isEmpty && digits.all Char.isDigit

/-- The number behind a letter. -/
def Text.numbered? (letter : Char) (text : List Char) : Option Nat :=
  if isNumbered letter text then some (digitsValue text.tail) else none

/-- The temporary with this text. -/
def Temp.ofText? (text : List Char) : Option Temp := (numbered? 't' text).map Temp.mk

/-- The label with this text. -/
def Label.ofText? (text : List Char) : Option Label := (numbered? 'L' text).map Label.mk

theorem Text.numbered?_repr (letter : Char) (n : Nat) :
    numbered? letter (letter :: n.repr.toList) = some n := by
  have numbered : isNumbered letter (letter :: n.repr.toList) := by
    simpa [isNumbered, Nat.toList_repr, Nat.toDigits_ne_nil] using
      fun c (mem : c ∈ Nat.toDigits 10 n) => isDigit_of_mem_repr (Nat.toList_repr ▸ mem)
  rw [numbered?, if_pos numbered, List.tail_cons, digitsValue_repr]

theorem Temp.toList_toText (t : Temp) : t.toText.toList = 't' :: t.number.repr.toList := by
  rw [Temp.toText, String.toList_append]
  rfl

theorem Label.toList_toText (l : Label) : l.toText.toList = 'L' :: l.number.repr.toList := by
  rw [Label.toText, String.toList_append]
  rfl

@[simp] theorem Temp.ofText?_toText (t : Temp) : Temp.ofText? t.toText.toList = some t := by
  rw [Temp.toList_toText, Temp.ofText?, numbered?_repr]
  rfl

theorem Temp.ofText?_eq_none {text : List Char} (h : isNumbered 't' text = false) :
    Temp.ofText? text = none := by
  simp [Temp.ofText?, numbered?, h]

theorem Label.ofText?_eq_none {text : List Char} (h : isNumbered 'L' text = false) :
    Label.ofText? text = none := by
  simp [Label.ofText?, numbered?, h]

@[simp] theorem Label.ofText?_toText (l : Label) : Label.ofText? l.toText.toList = some l := by
  rw [Label.toList_toText, Label.ofText?, numbered?_repr]
  rfl

/-! ### Reading -/

namespace Instruction

/-- What puts a value into a temporary, from the words of the value. A string begins with a quote,
and only strings have words of their own. -/
def ofValue? (dest : Temp) (words : List (List Char)) : Option Instruction :=
  let value := join ' ' words
  if value.head? = some '"' then some (.load dest (String.ofList value))
  else match words with
    | [word] =>
      if word.head? = some '!' then (Temp.ofText? word.tail).map (.not dest)
      else some (.load dest (String.ofList word))
    | [_, operand] => (Temp.ofText? operand).map (.negate dest)
    | [left, operator, right] => do
      return .binary dest (← Temp.ofText? left) (String.ofList operator) (← Temp.ofText? right)
    | _ => none

/-- A label, the beginning of a function, or its end: a single word. -/
def ofWord? (word : List Char) : Option Instruction :=
  if word = "ret".toList then some .return
  else match Label.ofText? word.dropLast with
    | some l => some (.label l)
    | none => some (.function (String.ofList word.dropLast))

/-- An argument of a call, with the comma behind it if there is one. -/
def ofArgument? (word : List Char) : Option Temp := Temp.ofText? (word.takeWhile (· != ','))

/-- The instruction of these words. -/
def ofWords? : List (List Char) → Option Instruction
  | [] => none
  | [word] => ofWord? word
  | first :: second :: others =>
    if second = ['='] then
      match Temp.ofText? first with
      | some dest => ofValue? dest others
      | none => (Temp.ofText? (join ' ' others)).map (.store (String.ofList first))
    else if first = "call".toList then
      (others.mapM ofArgument?).map (.call (String.ofList second))
    else if first = "goto".toList then (Label.ofText? second).map .jump
    else do
      return .jumpUnless (← Temp.ofText? second.tail) (← Label.ofText? (← others.getLast?))

/-- The instruction with this text. -/
def ofText? (text : List Char) : Option Instruction := ofWords? (split ' ' text)

/-- The code with this text. -/
def ofListing? (text : List Char) : Option (List Instruction) :=
  (split '\n' text).dropLast.mapM ofText?

/-- The words of an instruction are told apart, and what they are is clear from their beginnings. -/
def Clear : Instruction → Prop
  | load _ value => value.toList.head? = some '"' ∨ Bare value.toList
  | store name _ => Bare name.toList ∧ isNumbered 't' name.toList = false
  | function name => Bare name.toList ∧ isNumbered 'L' name.toList = false
  | call callee _ => Bare callee.toList
  | binary _ _ operator _ => ' ' ∉ operator.toList
  | not _ _ | negate _ _ | jumpUnless _ _ | jump _ | label _ | .return => True

end Instruction

/-! ### Words -/

/-- The first word ends at the first blank. -/
theorem Text.split_word {word : List Char} (bare : ' ' ∉ word) (rest : List Char) :
    split ' ' (word ++ ' ' :: rest) = word :: split ' ' rest := by
  rw [split_append_cons, split_of_not_mem bare]
  rfl

theorem Text.Bare.head?_ne {text : List Char} (h : Bare text) {c : Char} (mark : c ∈ marks) :
    text.head? ≠ some c := fun head =>
  h.not_mem mark (List.mem_of_mem_head? head)

theorem Text.Bare.blank_not_mem {text : List Char} (h : Bare text) : ' ' ∉ text :=
  h.not_mem (by decide)

namespace Instruction

/-- An instruction with ` = ` behind its first word. -/
theorem ofText?_assignment {first : List Char} (bare : ' ' ∉ first) (value : List Char) :
    ofText? (first ++ ' ' :: (['='] ++ ' ' :: value)) =
      match Temp.ofText? first with
      | some dest => ofValue? dest (split ' ' value)
      | none => (Temp.ofText? value).map (.store (String.ofList first)) := by
  rw [ofText?, split_word bare, split_word (by decide)]
  simp [ofWords?, join_split]

/-- A line of one word is a label or the beginning of a function where it ends with a colon. -/
theorem ofText?_colon {name : List Char} (bare : Bare name) :
    ofText? (name ++ [':']) =
      match Label.ofText? name with
      | some l => some (.label l)
      | none => some (.function (String.ofList name)) := by
  have word : ' ' ∉ name ++ [':'] := by simpa using bare.blank_not_mem
  have other : name ++ [':'] ≠ "ret".toList := fun eq =>
    absurd (congrArg List.getLast? eq) (by simp)
  rw [ofText?, split_of_not_mem word]
  simp only [ofWords?, ofWord?, if_neg other, List.dropLast_concat]

theorem ofArgument?_append (t : Temp) {rest : List Char} (comma : rest.head?.all (· == ',')) :
    ofArgument? (t.toText.toList ++ rest) = some t := by
  have bare : ∀ c ∈ t.toText.toList, (c != ',') = true := fun c mem =>
    bne_iff_ne.mpr fun eq => t.bare_toText.not_mem (by decide) (eq ▸ mem)
  have ended : rest.takeWhile (· != ',') = [] := by
    cases rest with
    | nil => rfl
    | cons c rest => simpa using comma
  rw [ofArgument?, List.takeWhile_append_of_pos bare, ended, List.append_nil, Temp.ofText?_toText]

/-- The arguments of a call are its words behind the callee, all but the last with a comma. -/
theorem mapM_ofArgument? (t : Temp) (others : List Temp) :
    (split ' ' (t.toText.toList ++ others.flatMap fun u => ',' :: ' ' :: u.toText.toList)).mapM
      ofArgument? = some (t :: others) := by
  have blank (t : Temp) : ' ' ∉ t.toText.toList := t.bare_toText.blank_not_mem
  induction others generalizing t with
  | nil =>
    have word : ' ' ∉ t.toText.toList ++ [] := by simpa using blank t
    rw [List.flatMap_nil, split_of_not_mem word, List.mapM_cons, ofArgument?_append t rfl]
    rfl
  | cons u others ih =>
    -- an argument with another one behind it has a comma
    have word : ' ' ∉ t.toText.toList ++ [','] := by simp [blank]
    rw [List.flatMap_cons, List.cons_append, List.append_cons, List.cons_append, split_word word,
      List.mapM_cons, ofArgument?_append t rfl, ih u]
    rfl

/-- Behind a temporary and ` = ` stands the value that the temporary gets. -/
theorem ofText?_computation (dest : Temp) (value : List Char) :
    ofText? (dest.toText.toList ++ ' ' :: (['='] ++ ' ' :: value)) =
      ofValue? dest (split ' ' value) := by
  rw [ofText?_assignment dest.bare_toText.blank_not_mem, Temp.ofText?_toText]

/-- A string is loaded with the blanks that it has, and anything else is a single word. -/
theorem ofText?_load {dest : Temp} {value : String} (clear : (load dest value).Clear) :
    ofText? (load dest value).toText.toList = some (load dest value) := by
  have text : (load dest value).toText.toList =
    dest.toText.toList ++ ' ' :: (['='] ++ ' ' :: value.toList) := by simp [toText]
  rw [text, ofText?_computation]
  simp only [ofValue?, join_split]
  -- a string has all words of the line, and anything else has one that is no negation
  rcases clear with quoted | bare
  · rw [if_pos quoted, String.ofList_toList]
  · rw [if_neg (bare.head?_ne (by decide)), split_of_not_mem bare.blank_not_mem]
    simp only [if_neg (bare.head?_ne (c := '!') (by decide)), String.ofList_toList]

/-- An operation has three words behind ` = `, the first of which is a temporary and no string. -/
theorem ofText?_binary (dest left right : Temp) {operator : String}
    (word : ' ' ∉ operator.toList) :
    ofText? (binary dest left operator right).toText.toList =
      some (binary dest left operator right) := by
  have text : (binary dest left operator right).toText.toList =
    dest.toText.toList ++ ' ' :: (['='] ++ ' ' :: (left.toText.toList ++ ' ' ::
      (operator.toList ++ ' ' :: right.toText.toList))) := by simp [toText]
  have words : split ' ' (left.toText.toList ++ ' ' :: (operator.toList ++ ' ' ::
      right.toText.toList)) = [left.toText.toList, operator.toList, right.toText.toList] := by
    rw [split_word left.bare_toText.blank_not_mem, split_word word,
      split_of_not_mem right.bare_toText.blank_not_mem]
  have first : (join ' ' [left.toText.toList, operator.toList, right.toText.toList]).head? ≠
      some '"' := by simp [join, Temp.toList_toText]
  rw [text, ofText?_computation, words]
  simp [ofValue?, first]

/-- A call is read back with its arguments, or with none. -/
theorem ofText?_call {callee : String} (bare : Bare callee.toList) (arguments : List Temp) :
    ofText? (call callee arguments).toText.toList = some (call callee arguments) := by
  -- no callee is taken for the sign of an assignment
  have second : callee.toList ≠ ['='] := fun eq =>
    bare.head?_ne (c := '=') (by decide) (by rw [eq]; rfl)
  cases arguments with
  | nil =>
    have text : (call callee []).toText.toList = "call".toList ++ ' ' :: callee.toList := by
      simp [toText, argumentsText]
    rw [text, ofText?, split_word (by decide), split_of_not_mem bare.blank_not_mem]
    simp [ofWords?, second]
  | cons t others =>
    have text : (call callee (t :: others)).toText.toList = "call".toList ++ ' ' ::
        (callee.toList ++ ' ' :: (t.toText.toList ++
          others.flatMap fun u => ',' :: ' ' :: u.toText.toList)) := by
      simp [toText, toList_argumentsText_cons]
    rw [text, ofText?, split_word (by decide), split_word bare.blank_not_mem]
    simp [ofWords?, second, mapM_ofArgument?]

/-- Clear code is read back from its text. -/
theorem ofText?_toText {i : Instruction} (clear : i.Clear) : ofText? i.toText.toList = some i := by
  have temp (t : Temp) : ' ' ∉ t.toText.toList := t.bare_toText.blank_not_mem
  have target (l : Label) : ' ' ∉ l.toText.toList := l.bare_toText.blank_not_mem
  cases i with
  | load => exact ofText?_load clear
  | binary dest left operator right => exact ofText?_binary dest left right clear
  | call callee arguments => exact ofText?_call clear arguments
  | store name source =>
    obtain ⟨bare, notTemp⟩ := clear
    have text : (store name source).toText.toList =
      name.toList ++ ' ' :: (['='] ++ ' ' :: source.toText.toList) := by simp [toText]
    rw [text, ofText?_assignment bare.blank_not_mem, Temp.ofText?_eq_none notTemp]
    simp
  | not dest operand =>
    have text : (not dest operand).toText.toList = dest.toText.toList ++ ' ' ::
      (['='] ++ ' ' :: '!' :: operand.toText.toList) := by simp [toText]
    have word : ' ' ∉ '!' :: operand.toText.toList := by simp [temp]
    rw [text, ofText?_computation, split_of_not_mem word]
    simp [ofValue?, join]
  | negate dest operand =>
    have text : (negate dest operand).toText.toList =
      dest.toText.toList ++ ' ' :: (['='] ++ ' ' :: ("uminus".toList ++ ' ' ::
        operand.toText.toList)) := by simp [toText]
    rw [text, ofText?_computation, split_word (by decide), split_of_not_mem (temp operand)]
    simp [ofValue?, join]
  | jumpUnless condition l =>
    have text : (jumpUnless condition l).toText.toList =
      "if".toList ++ ' ' :: (('!' :: condition.toText.toList) ++ ' ' ::
        ("goto".toList ++ ' ' :: l.toText.toList)) := by simp [toText]
    have word : ' ' ∉ '!' :: condition.toText.toList := by simp [temp]
    rw [text, ofText?, split_word (by decide), split_word word, split_word (by decide),
      split_of_not_mem (target l)]
    simp [ofWords?]
  | jump l =>
    have text : (jump l).toText.toList = "goto".toList ++ ' ' :: l.toText.toList := by
      simp [toText]
    have second : l.toText.toList ≠ ['='] := by simp [Label.toList_toText]
    rw [text, ofText?, split_word (by decide), split_of_not_mem (target l)]
    simp [ofWords?, second]
  | label l =>
    have text : (label l).toText.toList = l.toText.toList ++ [':'] := by simp [toText]
    rw [text, ofText?_colon l.bare_toText]
    simp
  | function name =>
    have text : (function name).toText.toList = name.toList ++ [':'] := by simp [toText]
    rw [text, ofText?_colon clear.1, Label.ofText?_eq_none clear.2]
    simp
  | «return» => decide

/-- Clear code whose instructions are lines is read back from its text. -/
theorem ofListing?_listing {code : List Instruction}
    (clear : ∀ i ∈ code, i.Clear ∧ '\n' ∉ i.toText.toList) :
    ofListing? (listing code).toList = some code := by
  have single : lines code = code.map (·.toText.toList) :=
    lines_eq_map fun i mem => (clear i mem).2
  rw [ofListing?, ← lines, single]
  clear single
  induction code with
  | nil => rfl
  | cons i code ih =>
    obtain ⟨first, rest⟩ := List.forall_mem_cons.mp clear
    rw [List.map_cons, List.mapM_cons, ofText?_toText first.1, ih rest]
    rfl

end Instruction

/-! ### Sources -/

/-- The text of the token is taken for nothing else in code: a name is not a `t` or an `L` with
digits behind it, and a string stays on its line. -/
structure Token.Unmistakable (t : Token) : Prop where
  notTemp : t.kind = .identifier → isNumbered 't' t.textOrEmpty.toList = false
  notLabel : t.kind = .identifier → isNumbered 'L' t.textOrEmpty.toList = false
  noLineFeed : t.kind = .string → '\n' ∉ t.textOrEmpty.toList

instance (t : Token) : Decidable t.Unmistakable :=
  decidable_of_iff
    ((t.kind = .identifier → isNumbered 't' t.textOrEmpty.toList = false) ∧
      (t.kind = .identifier → isNumbered 'L' t.textOrEmpty.toList = false) ∧
      (t.kind = .string → '\n' ∉ t.textOrEmpty.toList))
    ⟨fun ⟨notTemp, notLabel, noLineFeed⟩ => ⟨notTemp, notLabel, noLineFeed⟩,
      fun h => ⟨h.notTemp, h.notLabel, h.noLineFeed⟩⟩

theorem Token.Kind.not_mem_operatorText (kind : Token.Kind) : ' ' ∉ kind.operatorText.toList := by
  cases kind <;> decide

/-- Instructions with the texts of such tokens are clear. -/
theorem Instruction.FromTokens.clear {P : Token → Prop} {i : Instruction}
    (h : i.FromTokens fun t => P t ∧ t.Bare) (unmistakable : ∀ t, P t → t.Unmistakable) :
    i.Clear := by
  cases i with
  | load dest value =>
    obtain ⟨t, ⟨-, bare⟩, ⟨kind, rfl⟩ | ⟨kind, rfl⟩ | ⟨kind, rfl⟩⟩ := h
    · exact .inr (bare.number kind)
    · refine .inl ?_
      simp [String.toList_append]
    · exact .inr (bare.name kind)
  | store name source =>
    obtain ⟨t, kind, ⟨own, bare⟩, rfl⟩ := h
    exact ⟨bare.name kind, (unmistakable t own).notTemp kind⟩
  | function name =>
    obtain ⟨t, kind, ⟨own, bare⟩, rfl⟩ := h
    exact ⟨bare.name kind, (unmistakable t own).notLabel kind⟩
  | binary dest left operator right =>
    obtain ⟨level, kind, -, rfl⟩ := h
    exact kind.not_mem_operatorText
  | call callee arguments =>
    rcases h with ⟨t, kind, ⟨own, bare⟩, rfl⟩ | ⟨t, rfl⟩
    · exact bare.name kind
    · exact t.bare_toText
  | not | negate | jumpUnless | jump | label | «return» => trivial

namespace Source

/-- The code of a source whose tokens are taken for nothing else is read back from its text. -/
theorem ofListing?_listing {s : Source} {root : Tree} (parsed : s.tree = .ok root)
    (unmistakable : ∀ tokens, s.tokens = .ok tokens → ∀ t ∈ tokens, t.Unmistakable) :
    Instruction.ofListing? (Instruction.listing root.code).toList = some root.code := by
  obtain ⟨tokens, read, origins⟩ := s.fromTokens_code parsed
  have each := unmistakable tokens read
  refine Instruction.ofListing?_listing fun i mem => ⟨(origins i mem).clear each, fun feed => ?_⟩
  obtain ⟨dest, t, own, kind, inside, -⟩ := (origins i mem).of_lineFeed feed
  exact (each t own).noLineFeed kind inside

theorem unmistakable_of_all {s : Source}
    (h : s.tokens.toOption.all fun tokens => tokens.all fun t => decide t.Unmistakable) :
    ∀ tokens, s.tokens = .ok tokens → ∀ t ∈ tokens, t.Unmistakable := by
  intro tokens read t mem
  rw [read] at h
  exact of_decide_eq_true (List.all_eq_true.mp h t mem)

/-- The text of code tells the code: two sources without names like those of temporaries and labels,
and without line feeds in strings, have the same code if the texts of their code are the same. -/
theorem code_of_listing {s s' : Source} {root root' : Tree} (parsed : s.tree = .ok root)
    (parsed' : s'.tree = .ok root')
    (unmistakable : ∀ tokens, s.tokens = .ok tokens → ∀ t ∈ tokens, t.Unmistakable)
    (unmistakable' : ∀ tokens, s'.tokens = .ok tokens → ∀ t ∈ tokens, t.Unmistakable)
    (same : Instruction.listing root.code = Instruction.listing root'.code) :
    root.code = root'.code := by
  have read := ofListing?_listing parsed unmistakable
  rw [same, ofListing?_listing parsed' unmistakable'] at read
  exact (Option.some.inj read).symm

theorem code_of_listing_brackets : ∃ root root',
    Source.tree ⟨"", "uminus(-call, \"t1 = !t0\")"⟩ = .ok root ∧
    Source.tree ⟨"", "(uminus)(-(call), \"t1 = !t0\");"⟩ = .ok root' ∧
    Instruction.listing root.code = Instruction.listing root'.code ∧ root.code = root'.code := by
  let code : List Instruction := [.load ⟨0⟩ "call", .negate ⟨1⟩ ⟨0⟩,
    .load ⟨2⟩ "\"t1 = !t0\"", .call "uminus" [⟨1⟩, ⟨2⟩]]
  obtain ⟨root, parsed, listing⟩ := Source.exists_tree
    (s := ⟨"", "uminus(-call, \"t1 = !t0\")"⟩)
    (p := fun root => Instruction.listing root.code == Instruction.listing code) (by decide +kernel)
  obtain ⟨root', parsed', listing'⟩ := Source.exists_tree
    (s := ⟨"", "(uminus)(-(call), \"t1 = !t0\");"⟩)
    (p := fun root => Instruction.listing root.code == Instruction.listing code) (by decide +kernel)
  have same := (beq_iff_eq.mp listing).trans (beq_iff_eq.mp listing').symm
  exact ⟨root, root', parsed, parsed', same, code_of_listing parsed parsed'
    (unmistakable_of_all (by decide +kernel)) (unmistakable_of_all (by decide +kernel)) same⟩

end Source

end Scriptlet
