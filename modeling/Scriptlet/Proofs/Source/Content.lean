import Scriptlet.Proofs.Source.Piecewise
import Scriptlet.Proofs.Syntax.SideBySide

/-!
# Sources of the same content

Two sources whose tokens agree one by one in kind and value are treated alike, whatever they are
called, however they are laid out and wherever their tokens stand. Values of doubles are compared
as in arithmetic; no source has a token for a negative number, so that this makes no difference.

## Main definitions

* `Token.Unsigned` — a token whose value is not a double with a sign
* `Pairing.ofTokens` — the places of two lists of tokens correspond one by one

## Main results

* `Cut.unsigned` — tokens of a source have no signs
* `Source.tree_alike` — sources of the same content have the same tree, text and code up to places,
  or the same error at the same token
-/

namespace Scriptlet

/-! ### Values -/

/-- Doubles without a sign are equal where they are so in arithmetic. -/
theorem Binary64.eq_of_sameAs_ofRank {r r' : Nat} (h : (ofRank false r).sameAs (ofRank false r')) :
    ofRank false r = ofRank false r' := by
  unfold ofRank at h ⊢
  split at h <;> split at h
  · next finite finite' =>
    have same : r = r' := by simpa [sameAs] using h
    simp [same]
  · cases h
  · cases h
  · next infinite infinite' => rw [dif_neg infinite, dif_neg infinite']

namespace Token

/-- The value of the token is not a double with a sign. -/
def Unsigned (t : Token) : Prop := ∀ x, t.value = some (.float x) → ∃ rank, x = .ofRank false rank

theorem unplaced_eq_of_sameContent {t u : Token} (h : t.Unsigned) (h' : u.Unsigned)
    (same : t.sameContent u) : t.unplaced = u.unplaced := by
  obtain ⟨kind, value, start, stop⟩ := t
  obtain ⟨kind', value', start', stop'⟩ := u
  simp only [sameContent, hasContent, Bool.and_eq_true, beq_iff_eq] at same
  obtain ⟨rfl, same⟩ := same
  suffices value = value' by rw [this]; rfl
  unfold sameValue at same
  split at same
  · rfl
  · next v w =>
    unfold Value.sameAs at same
    split at same
    case h_3 x y =>
      obtain ⟨r, rfl⟩ := h x rfl
      obtain ⟨r', rfl⟩ := h' y rfl
      rw [Binary64.eq_of_sameAs_ofRank same]
    case h_5 => cases same
    all_goals rw [beq_iff_eq.mp same]
  · cases same

end Token

/-- Doubles among the words of a text are read from digits. -/
theorem Cut.unsigned {p : Position} {text : List Char} {w : List Token} (h : Cut p text w) :
    ∀ t ∈ w, t.Unsigned := by
  induction h with
  | nil => exact List.forall_mem_nil _
  | blank _ _ ih => exact ih
  | word longest _ ih =>
    refine List.forall_mem_cons.mpr ⟨fun x eq => ?_, ih⟩
    obtain rfl := eq
    cases longest.fits with
    | numeral _ numeral =>
      cases numeral
      exact ⟨_, rfl⟩

/-! ### Places -/

/-- The places of the tokens of two lists correspond one by one, and the lists agree to the end. -/
def Pairing.ofTokens (tokens tokens' : List Token) : Pairing where
  starts p p' := ∃ (j : Nat) (t t' : Token),
    tokens[j]? = some t ∧ tokens'[j]? = some t' ∧ p = t.start ∧ p' = t'.start
  rest := []
  rest' := []

theorem Pairing.alike_ofTokens {tokens tokens' : List Token}
    (h : List.Forall₂ (fun t t' => t.unplaced = t'.unplaced) tokens tokens') :
    List.Forall₂ (Token.Alike (.ofTokens tokens tokens')) tokens tokens' := by
  obtain ⟨lengths, each⟩ := List.forall₂_iff_get.mp h
  refine List.forall₂_iff_get.mpr ⟨lengths, fun j lt lt' => ⟨each j lt lt', ?_⟩⟩
  exact ⟨j, _, _, List.getElem?_eq_getElem lt, List.getElem?_eq_getElem lt', rfl, rfl⟩

/-! ### Sources -/

namespace Source

theorem tree_of_tokens {s : Source} {tokens : List Token} (read : s.tokens = .ok tokens) :
    s.tree = (Tree.ofTokens tokens).mapError .parse := by
  rw [Source.tree, read]
  rfl

theorem compile_of_tree {s : Source} {root : Tree} (parsed : s.tree = .ok root) :
    s.compile = .ok (Instruction.listing root.code) := by
  rw [Source.compile, parsed]
  rfl

/-- Tokens of sources that agree in kind and value differ in their places alone. -/
theorem unplaced_of_sameContent {s s' : Source} {tokens tokens' : List Token}
    (read : s.tokens = .ok tokens) (read' : s'.tokens = .ok tokens')
    (same : List.Forall₂ (fun t t' => t.sameContent t') tokens tokens') :
    List.Forall₂ (fun t t' => t.unplaced = t'.unplaced) tokens tokens' := by
  have unsigned {s : Source} {tokens : List Token} (read : s.tokens = .ok tokens) :
      ∀ t ∈ tokens, t.Unsigned := by
    obtain ⟨w, cut, rfl⟩ := Token.readFrom_eq_ok_iff.mp read
    exact List.forall_mem_append.mpr ⟨cut.unsigned, List.forall_mem_singleton.mpr nofun⟩
  rw [List.forall₂_iff_zip] at same ⊢
  refine ⟨same.1, fun {t t'} mem => ?_⟩
  obtain ⟨left, right⟩ := List.of_mem_zip mem
  exact Token.unplaced_eq_of_sameContent (unsigned read t left) (unsigned read' t' right)
    (same.2 mem)

/-- Tokens that are alike, with the ends of input, are read from cursors that are alike. -/
theorem cursors_alike {s s' : Source} {tokens tokens' : List Token} (read : s.tokens = .ok tokens)
    (read' : s'.tokens = .ok tokens') {m : Pairing} (rest : m.rest = []) (rest' : m.rest' = [])
    (alike : List.Forall₂ (Token.Alike m) tokens tokens') :
    (Cursor.ofTokens tokens).Alike m (Cursor.ofTokens tokens') := by
  obtain ⟨w, cut, rfl⟩ := Token.readFrom_eq_ok_iff.mp read
  obtain ⟨w', cut', rfl⟩ := Token.readFrom_eq_ok_iff.mp read'
  -- the ends of input stand last, so that the lists are compared from there
  have reversed := List.forall₂_reverse_iff.mpr alike
  simp only [List.reverse_append, List.reverse_singleton, List.singleton_append] at reversed
  obtain ⟨last, others⟩ := List.forall₂_cons.mp reversed
  rw [cut.ofTokens_eq rfl, cut'.ofTokens_eq rfl]
  exact ⟨⟨w, w', by simp [rest], by simp [rest'], List.forall₂_reverse_iff.mp others⟩, .nil, last⟩

/-- Two sources whose tokens agree one by one in kind and value fare alike: both have trees, which
are written the same and have the same code, or both have errors, for the same reason and with
the same token found, at tokens with the same number. -/
theorem tree_alike {s s' : Source} {tokens tokens' : List Token} (read : s.tokens = .ok tokens)
    (read' : s'.tokens = .ok tokens')
    (same : List.Forall₂ (fun t t' => t.sameContent t') tokens tokens') :
    (∃ root root' code, s.tree = .ok root ∧ s'.tree = .ok root' ∧ root.render = root'.render ∧
      s.compile = .ok code ∧ s'.compile = .ok code) ∨
    ∃ e e', s.tree = .error (.parse e) ∧ s'.tree = .error (.parse e') ∧ e.kind = e'.kind ∧
      e.found = e'.found ∧ ∃ (j : Nat) (t t' : Token), tokens[j]? = some t ∧
        tokens'[j]? = some t' ∧ e.start = t.start ∧ e'.start = t'.start := by
  have alike := Pairing.alike_ofTokens (unplaced_of_sameContent read read' same)
  have tree := tree_of_tokens read
  have tree' := tree_of_tokens read'
  have cursors := cursors_alike read read' rfl rfl alike
  rw [Tree.ofTokens] at tree tree'
  cases parsed : Grammar.script (Cursor.ofTokens tokens) with
  | ok root =>
    -- words of the same content spell trees of the same content
    obtain ⟨⟨v, v', ahead, ahead', words⟩, -, -⟩ := cursors
    obtain rfl := ahead.trans (List.append_nil v)
    obtain rfl := ahead'.trans (List.append_nil v')
    obtain ⟨root', spells', unplaced⟩ := (Grammar.script_eq_ok_iff.mp parsed).moved
      (Token.map_unplaced_eq_of_alike words).symm
    rw [parsed] at tree
    rw [Grammar.script_eq_ok_iff.mpr spells'] at tree'
    have text : root.render = root'.render := by
      rw [← root.render_unplaced, ← unplaced, root'.render_unplaced]
    have code : root.code = root'.code := by
      rw [root.code_eq, ← root.lower_unplaced, ← unplaced, root'.lower_unplaced, root'.code_eq]
    refine .inl ⟨root, root', Instruction.listing root.code, tree, tree', text,
      compile_of_tree tree, ?_⟩
    rw [compile_of_tree tree', code]
  | error f =>
    have sees : f.cursor.Sees (Pairing.ofTokens tokens tokens') := .inr ⟨rfl, rfl⟩
    obtain ⟨f', failed', similar⟩ := Grammar.script_alike cursors parsed sees
    rw [parsed] at tree
    rw [failed'] at tree'
    obtain ⟨kind, found, starts⟩ := similar.toError sees
    exact .inr ⟨f.toError, f'.toError, tree, tree', kind, found, starts⟩

theorem tree_alike_unclosed : ∃ e e',
    Source.tree ⟨"a", "x\nf(.5 /"⟩ = .error (.parse e) ∧
      Source.tree ⟨"b", " x ;f (0.50/  "⟩ = .error (.parse e') ∧ e.kind = e'.kind ∧
      e.found = e'.found := by
  let s : Source := ⟨"a", "x\nf(.5 /"⟩
  let s' : Source := ⟨"b", " x ;f (0.50/  "⟩
  have read : s.tokens = .ok (s.tokens.toOption.getD []) := by decide +kernel
  have read' : s'.tokens = .ok (s'.tokens.toOption.getD []) := by decide +kernel
  have same : List.Forall₂ (fun t t' => t.sameContent t') (s.tokens.toOption.getD [])
      (s'.tokens.toOption.getD []) := by
    decide +kernel
  have fails : s.tree.toOption.isNone := by decide +kernel
  rcases tree_alike read read' same with ⟨_, _, _, ok, -⟩ | ⟨e, e', failed, failed', kind, found, -⟩
  · rw [ok] at fails
    cases fails
  · exact ⟨e, e', failed, failed', kind, found⟩

end Source

end Scriptlet
