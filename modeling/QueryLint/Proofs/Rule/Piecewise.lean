import QueryLint.Proofs.Rule.Ahead
import QueryLint.Proofs.Statement.Reparse

/-!
# Rules that work statement by statement

The rules that look ahead to significant tokens never look past a semicolon. So
what they find in a document is what they find in its pieces, one after the other
(`findings_eq_flatMap`), whether they walk along the document or go through its
statements. A piece that is no statement holds nothing to find.
-/
namespace QueryLint

namespace Lexeme

variable {l : Lexeme} {depth : Nat}

theorem isSignificant_of_separates (h : l.separates depth = true) : l.isSignificant = true := by
  rw [separates, Bool.and_eq_true] at h
  exact isSignificant_of_isPunctuation h.1

end Lexeme

theorem Token.Moves.pieces_map {f : Range → Range} {g : Token → Token} (h : Token.Moves f g)
    (depth : Nat) (ts : List Token) :
    pieces depth (ts.map g) = (pieces depth ts).map (List.map g) := by
  apply QueryLint.pieces_map
  · intro t depth
    exact h.apply_toLexeme t (p := (·.separates depth)) fun _ => Lexeme.isSignificant_of_separates
  · intro t depth
    by_cases ht : t.isSignificant = true
    · rw [h.toLexeme t ht]
    · have hgt : ¬(g t).isSignificant = true := by rwa [h.isSignificant]
      rw [Lexeme.depthAfter_of_not_significant ht, Lexeme.depthAfter_of_not_significant hgt]

theorem pieces_significant (depth : Nat) (ts : List Token) :
    pieces depth (Token.significant ts) = (pieces depth ts).map Token.significant := by
  induction ts generalizing depth with
  | nil => rfl
  | cons t ts ih =>
    by_cases ht : t.isSignificant = true
    · rw [Token.significant_cons_of_pos ht]
      by_cases hseparates : t.separates depth = true
      · rw [pieces_of_separates hseparates, pieces_of_separates hseparates, ih]
        rfl
      · rw [pieces_of_not hseparates, pieces_of_not hseparates, ih]
        cases pieces (t.depthAfter depth) ts with
        | nil => rfl
        | cons piece rest =>
          simp only [List.map_cons, List.modifyHead_cons, Token.significant_cons_of_pos ht]
    · have hseparates : ¬t.separates depth = true :=
        fun h => ht (Lexeme.isSignificant_of_separates h)
      rw [Token.significant_cons_of_neg ht, pieces_of_not hseparates,
        Lexeme.depthAfter_of_not_significant ht, ih]
      cases pieces depth ts with
      | nil => rfl
      | cons piece rest =>
        simp only [List.map_cons, List.modifyHead_cons, Token.significant_cons_of_neg ht]

theorem pieces_cut_tokens (depth : Nat) (ts : List Token) :
    pieces depth ts = [ts] ∨
      ∃ piece semicolon rest, ts = piece ++ semicolon :: rest ∧
        semicolon.toLexeme = Lexeme.semicolon ∧ pieces depth ts = piece :: pieces 0 rest := by
  induction ts generalizing depth with
  | nil => exact Or.inl rfl
  | cons t ts ih =>
    by_cases ht : t.separates depth = true
    · exact Or.inr ⟨[], t, ts, rfl, (Lexeme.separates_iff.mp ht).1, pieces_of_separates ht ts⟩
    · rcases ih (t.depthAfter depth) with hone | ⟨piece, semicolon, rest, rfl, hsemicolon, hpieces⟩
      · refine Or.inl ?_
        rw [pieces_of_not ht, hone]
        rfl
      · refine Or.inr ⟨t :: piece, semicolon, rest, rfl, hsemicolon, ?_⟩
        rw [pieces_of_not ht, hpieces]
        rfl

theorem Finding.Looks.flatMap_along_pieces {admits : (Range → Range) → Prop}
    {look : Token → List Token → Option Finding} (h : Finding.Looks admits look) (depth : Nat)
    (ts : List Token) :
    (pieces depth ts).flatMap (Finding.along look) = Finding.along look ts := by
  induction hn : ts.length using Nat.strongRecOn generalizing depth ts with
  | ind n ih =>
    rcases pieces_cut_tokens depth ts with hone | ⟨piece, semicolon, rest, rfl, hsemicolon, hpieces⟩
    · rw [hone, List.flatMap_singleton]
    · have hrest := ih rest.length (by simp [← hn]; omega) 0 rest rfl
      rw [hpieces, List.flatMap_cons, hrest, h.along_append hsemicolon]

namespace Check

/-- Whether a check looks from one significant token of a statement to the next. -/
def isLocal : Check → Bool
  | selectTrailingComma | isNull | selectModifiers | distinctParentheses => true
  | _ => false

/-- What such a check finds in the tokens of one statement. -/
def findingsIn : Check → List Token → List Finding
  | selectTrailingComma => Finding.along Select.commaAt
  | isNull => Null.findingsFrom false
  | selectModifiers => Finding.along Select.modifierAt
  | distinctParentheses => Finding.along Select.parenthesesAt
  | _ => fun _ => []

/-- Whether a check follows a move of ranges. The rule on modifiers compares lines. -/
def Admits (check : Check) (f : Range → Range) : Prop :=
  check = selectModifiers → Select.KeepsLines f

theorem findingsIn_nil (check : Check) : check.findingsIn [] = [] := by
  cases check <;> rfl

theorem findingsIn_map {check : Check} {f : Range → Range} {g : Token → Token}
    (hf : check.Admits f) (hg : Token.Moves f g) (ts : List Token) :
    check.findingsIn (ts.map g) = (check.findingsIn ts).map (·.mapRange f) := by
  cases check with
  | selectTrailingComma => exact Select.commaAt_looks.along_map trivial hg ts
  | isNull => exact Null.findingsFrom_map hg false ts
  | selectModifiers => exact Select.modifierAt_looks.along_map (hf rfl) hg ts
  | distinctParentheses => exact Select.parenthesesAt_looks.along_map trivial hg ts
  | _ => rfl

theorem findingsIn_significant (check : Check) (ts : List Token) :
    check.findingsIn (Token.significant ts) = check.findingsIn ts := by
  cases check with
  | selectTrailingComma => exact Select.commaAt_looks.along_significant ts
  | isNull => exact Null.findingsFrom_significant false ts
  | selectModifiers => exact Select.modifierAt_looks.along_significant ts
  | distinctParentheses => exact Select.parenthesesAt_looks.along_significant ts
  | _ => rfl

theorem findingsIn_of_not_hasContent (check : Check) {ts : List Token}
    (h : hasContent ts = false) : check.findingsIn ts = [] := by
  have hnone : Token.significant ts = [] := by
    rw [Token.significant, List.filter_eq_nil_iff]
    intro t ht
    have htrivia : t.isTrivia = true := by
      simpa using (List.any_eq_false.mp h) t ht
    simp [Lexeme.isSignificant, htrivia]
  rw [← check.findingsIn_significant, hnone, findingsIn_nil]

end Check

theorem comparisons_eq_flatMap (text : List Char) :
    Null.comparisons (Document.parse text) =
      (pieces 0 (tokenize text)).flatMap (Null.findingsFrom false) := by
  have htokens : (Document.parse text).statements.map (·.tokens) =
      (pieces 0 (tokenize text)).filter hasContent :=
    map_tokens_ofPieces 0 0 _
  have hstatements : Null.comparisons (Document.parse text) =
      ((Document.parse text).statements.map (·.tokens)).flatMap (Null.findingsFrom false) := by
    rw [List.flatMap_map]
    rfl
  rw [hstatements, htokens]
  induction pieces 0 (tokenize text) with
  | nil => rfl
  | cons piece rest ih =>
    by_cases hpiece : hasContent piece = true
    · rw [List.filter_cons_of_pos hpiece, List.flatMap_cons, List.flatMap_cons, ih]
    · have hnone : Null.findingsFrom false piece = [] :=
        Check.isNull.findingsIn_of_not_hasContent (Bool.eq_false_iff.mpr hpiece)
      rw [List.filter_cons_of_neg hpiece, List.flatMap_cons, hnone, List.nil_append, ih]

/-- What a check of statements finds in a document is what it finds in the pieces of
the document. -/
theorem findings_eq_flatMap {check : Check} (hcheck : check.isLocal = true) (text : List Char) :
    check.findings (Document.parse text) = (pieces 0 (tokenize text)).flatMap check.findingsIn := by
  cases check with
  | selectTrailingComma =>
    exact (Select.trailingComma_eq_along _).trans
      (Select.commaAt_looks.flatMap_along_pieces 0 _).symm
  | isNull => exact comparisons_eq_flatMap text
  | selectModifiers =>
    exact (Select.modifiers_eq_along _).trans
      (Select.modifierAt_looks.flatMap_along_pieces 0 _).symm
  | distinctParentheses =>
    exact (Select.distinctParentheses_eq_along _).trans
      (Select.parenthesesAt_looks.flatMap_along_pieces 0 _).symm
  | _ => exact absurd hcheck Bool.false_ne_true

/-- A document without statements holds nothing to find, so the rule need not ask. -/
theorem diagnostics_eq_flatMap {r : Rule} (hcheck : r.check.isLocal = true) (text : List Char) :
    r.diagnostics (Document.parse text) =
      if r.isEnabled then
        ((pieces 0 (tokenize text)).flatMap r.check.findingsIn).map r.diagnose
      else [] := by
  have hblank : (Document.parse text).isBlank = true →
      (pieces 0 (tokenize text)).flatMap r.check.findingsIn = [] := by
    intro hblank
    have hstatements : (Document.parse text).statements = [] := List.isEmpty_iff.mp hblank
    have hcontent : (pieces 0 (tokenize text)).filter hasContent = [] := by
      rw [← map_tokens_ofPieces 0 0]
      exact congrArg (List.map Statement.tokens) hstatements
    rw [List.flatMap_eq_nil_iff]
    intro piece hpiece
    apply r.check.findingsIn_of_not_hasContent
    simpa using List.filter_eq_nil_iff.mp hcontent piece hpiece
  unfold Rule.diagnostics
  rw [findings_eq_flatMap hcheck]
  by_cases hd : (Document.parse text).isBlank = true
  · rw [if_neg (by simp [hd]), hblank hd]
    split_ifs <;> rfl
  · simp only [hd, Bool.false_eq_true, not_false_eq_true, and_true]

theorem flatMap_pieces_map {check : Check} {f : Range → Range} {g : Token → Token}
    (hf : check.Admits f) (hg : Token.Moves f g) (ts : List Token) :
    (pieces 0 (ts.map g)).flatMap check.findingsIn =
      ((pieces 0 ts).flatMap check.findingsIn).map (·.mapRange f) := by
  rw [hg.pieces_map, List.flatMap_map, List.map_flatMap]
  simp only [Check.findingsIn_map hf hg]

theorem cover_start_or (r s : Range) :
    (r.cover s).start = r.start ∨ (r.cover s).start = s.start := by
  change min r.start s.start = _ ∨ min r.start s.start = _
  rw [Position.min_eq]
  split_ifs
  · exact Or.inr rfl
  · exact Or.inl rfl

theorem cover_stop_or (r s : Range) :
    (r.cover s).stop = r.stop ∨ (r.cover s).stop = s.stop := by
  change max r.stop s.stop = _ ∨ max r.stop s.stop = _
  rw [Position.max_eq]
  split_ifs
  · exact Or.inl rfl
  · exact Or.inr rfl

/-- Whether a finding starts with one token and stops with one, and its edits are
where it is. -/
structure Finding.EndsIn (ts : List Token) (x : Finding) : Prop where
  start : ∃ t ∈ ts, t.range.start = x.range.start
  stop : ∃ t ∈ ts, t.range.stop = x.range.stop
  edits : ∀ fix ∈ x.fix, ∀ e ∈ fix.edits, e.range = x.range

theorem Finding.EndsIn.of_cover {ts : List Token} {t u : Token} (ht : t ∈ ts) (hu : u ∈ ts)
    {x : Finding} (hrange : x.range = t.range.cover u.range)
    (hedits : ∀ fix ∈ x.fix, ∀ e ∈ fix.edits, e.range = x.range) : x.EndsIn ts := by
  refine ⟨?_, ?_, hedits⟩
  · rw [hrange]
    rcases cover_start_or t.range u.range with h | h
    · exact ⟨t, ht, h.symm⟩
    · exact ⟨u, hu, h.symm⟩
  · rw [hrange]
    rcases cover_stop_or t.range u.range with h | h
    · exact ⟨t, ht, h.symm⟩
    · exact ⟨u, hu, h.symm⟩

theorem Finding.EndsIn.mono {ts us : List Token} {x : Finding} (h : x.EndsIn ts) (hsub : ts ⊆ us) :
    x.EndsIn us := by
  obtain ⟨t, ht, hstart⟩ := h.start
  obtain ⟨u, hu, hstop⟩ := h.stop
  exact ⟨⟨t, hsub ht, hstart⟩, ⟨u, hsub hu, hstop⟩, h.edits⟩

theorem endsIn_of_mem_findingsIn {check : Check} {ts : List Token} {x : Finding}
    (h : x ∈ check.findingsIn ts) : x.EndsIn ts := by
  cases check with
  | selectTrailingComma =>
    obtain ⟨t, rest, hlook, hsuffix⟩ := Finding.exists_of_mem_along h
    obtain ⟨-, -, rfl⟩ := Select.of_commaAt hlook
    have ht := hsuffix.subset List.mem_cons_self
    exact ⟨⟨t, ht, rfl⟩, ⟨t, ht, rfl⟩, by simp [Fix.delete, Edit.delete]⟩
  | isNull =>
    obtain ⟨t, ht, label, newText, rfl⟩ := exists_of_mem_findingsFrom h
    exact ⟨⟨t, ht, rfl⟩, ⟨t, ht, rfl⟩, by simp [Fix.replace]⟩
  | selectModifiers =>
    obtain ⟨select, rest, hlook, hsuffix⟩ := Finding.exists_of_mem_along h
    obtain ⟨-, modifier, behind, hnext, -, rfl⟩ := Select.exists_of_modifierAt hlook
    have hmodifier := hsuffix.subset (List.mem_cons_of_mem select (Finding.mem_of_nextIf? hnext))
    exact .of_cover (hsuffix.subset List.mem_cons_self) hmodifier rfl (by simp)
  | distinctParentheses =>
    obtain ⟨select, rest, hlook, hsuffix⟩ := Finding.exists_of_mem_along h
    obtain ⟨distinct, hdistinct, close, hclose, newText, rfl⟩ :=
      Select.exists_cover_of_parenthesesAt hlook
    have hrest : rest ⊆ ts := fun t ht => hsuffix.subset (List.mem_cons_of_mem select ht)
    exact .of_cover (hrest hdistinct) (hrest hclose) rfl (by simp [Fix.replace])
  | _ => simp [Check.findingsIn] at h

theorem subset_of_mem_pieces {ts piece : List Token} (h : piece ∈ pieces 0 ts) : piece ⊆ ts := by
  rw [← map_tokensAt_segments, List.mem_map] at h
  obtain ⟨span, -, rfl⟩ := h
  intro t ht
  exact List.mem_of_mem_take (mem_take_of_mem_tokensAt ht)

theorem endsIn_of_mem_pieces {check : Check} {ts : List Token} {x : Finding}
    (h : x ∈ (pieces 0 ts).flatMap check.findingsIn) : x.EndsIn ts := by
  obtain ⟨piece, hpiece, hx⟩ := List.mem_flatMap.mp h
  exact (endsIn_of_mem_findingsIn hx).mono (subset_of_mem_pieces hpiece)

end QueryLint
