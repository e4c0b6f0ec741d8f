import QueryLint.Proofs.Rule.Order
import QueryLint.Proofs.Statement.Partition
import QueryLint.Proofs.Statement.Reparse
import QueryLint.Proofs.Token.Trivia

/-!
# Documents without statements

A document has no statement if its lexemes are trivia and semicolons only. There are no
brackets among those, so every semicolon separates and the pieces hold nothing else. The
characters of such a document are blanks and semicolons, and no other lexeme starts with
one of them; so the characters tell as much as the lexemes do, whatever is wrong with the
text. No rule has anything to report on it.
-/
namespace QueryLint

namespace Lexeme

/-- Where nothing opens a bracket, every semicolon separates. -/
theorem isTrivia_of_mem_pieces {ls : List Lexeme}
    (h : ∀ l ∈ ls, l.isTrivia = true ∨ l = semicolon) :
    ∀ piece ∈ pieces 0 ls, ∀ l ∈ piece, l.isTrivia = true := by
  induction ls with
  | nil => simp [pieces]
  | cons l ls ih =>
    obtain ⟨hl, hls⟩ := List.forall_mem_cons.mp h
    by_cases hsep : l.separates 0 = true
    · rw [pieces_of_separates hsep]
      exact List.forall_mem_cons.mpr ⟨List.forall_mem_nil _, ih hls⟩
    · have htrivia : l.isTrivia = true :=
        hl.resolve_right fun heq => hsep (separates_iff.mpr ⟨heq, rfl⟩)
      have hdepth : l.depthAfter 0 = 0 :=
        depthAfter_of_not_significant (by simp [isSignificant, htrivia])
      obtain ⟨piece, rest, hpieces⟩ := List.exists_cons_of_ne_nil (pieces_ne_nil 0 ls)
      have hrest := ih hls
      rw [hpieces, List.forall_mem_cons] at hrest
      rw [pieces_of_not hsep, hdepth, hpieces, List.modifyHead_cons, List.forall_mem_cons]
      exact ⟨List.forall_mem_cons.mpr ⟨htrivia, hrest.1⟩, hrest.2⟩

theorem ReadBefore.isTrivia_or_semicolon_iff {l : Lexeme} {after : List Char}
    (h : l.ReadBefore after) :
    l.isTrivia = true ∨ l = semicolon ↔ ∀ c ∈ l.chars, Text.isBlank c = true ∨ c = ';' := by
  constructor
  · rintro (htrivia | rfl) c hc
    · simp only [isTrivia, Bool.or_eq_true, beq_iff_eq] at htrivia
      rcases htrivia with hkind | hkind
      · exact Or.inl (Text.isInlineBlank_iff.mp (h.inlineBlank_of_whitespace hkind c hc)).1
      · exact Or.inl (Text.isBlank_of_isLineBreak (h.lineBreak_of_newline hkind c hc))
    · exact Or.inr (List.mem_singleton.mp hc)
  · intro hchars
    obtain ⟨c, front, hfront, hscan⟩ := id h
    have hc : c ∈ l.chars := by simp [hfront]
    rcases hchars c hc with hblank | rfl
    · left
      by_contra htrivia
      have hnot := h.not_blank_head (Bool.eq_false_iff.mpr htrivia) c (by simp [hfront])
      exact Bool.false_ne_true (hnot.symm.trans hblank)
    · right
      rw [scan_semicolon] at hscan
      obtain ⟨kind, chars⟩ := l
      obtain ⟨rfl, hlength⟩ := Scan.mk.inj hscan
      obtain rfl := List.eq_nil_of_length_eq_zero hlength.symm
      exact congrArg (Lexeme.mk _) hfront

end Lexeme

theorem statements_eq_nil_iff (text : List Char) :
    (Document.parse text).statements = [] ↔
      ∀ l ∈ lexemes text, l.isTrivia = true ∨ l = Lexeme.semicolon := by
  constructor
  · intro hnone l hl
    rw [← map_toLexeme_place Position.origin 0 (lexemes text)] at hl
    obtain ⟨t, ht, rfl⟩ := List.mem_map.mp hl
    by_contra hcontent
    rw [← Lexeme.isPunctuation_semicolon_iff, not_or, Bool.not_eq_true, Bool.not_eq_true]
      at hcontent
    exact not_isBlank_of_mem ht hcontent.1 hcontent.2 (List.isEmpty_iff.mpr hnone)
  · intro h
    rw [← List.map_eq_nil_iff, map_lexical_statements, Lexeme.kept, List.filter_eq_nil_iff]
    intro piece hpiece
    simpa [Lexeme.filled] using Lexeme.isTrivia_of_mem_pieces h piece hpiece

theorem lexemes_separators_iff (text : List Char) :
    (∀ l ∈ lexemes text, l.isTrivia = true ∨ l = Lexeme.semicolon) ↔
      ∀ c ∈ text, Text.isBlank c = true ∨ c = ';' := by
  calc (∀ l ∈ lexemes text, l.isTrivia = true ∨ l = Lexeme.semicolon)
    _ ↔ ∀ l ∈ lexemes text, ∀ c ∈ l.chars, Text.isBlank c = true ∨ c = ';' := by
      refine forall₂_congr fun l hl => ?_
      obtain ⟨rest, hread⟩ := exists_readBefore_of_mem hl
      exact hread.isTrivia_or_semicolon_iff
    _ ↔ ∀ c ∈ Lexeme.join (lexemes text), Text.isBlank c = true ∨ c = ';' := by
      rw [Lexeme.join, List.forall_mem_flatMap]
    _ ↔ ∀ c ∈ text, Text.isBlank c = true ∨ c = ';' := by rw [join_lexemes]

/-- A document has no statement just when it is made of blanks and semicolons, and then
nothing is reported on it. -/
theorem statements_eq_nil_iff_separators (text : List Char) :
    ((Document.parse text).statements = [] ↔ ∀ c ∈ text, Text.isBlank c = true ∨ c = ';') ∧
      ((∀ c ∈ text, Text.isBlank c = true ∨ c = ';') → ∀ s : Settings, lint s text = []) := by
  have hstatements := (statements_eq_nil_iff text).trans (lexemes_separators_iff text)
  refine ⟨hstatements, fun htext s => lint_eq_nil_of_isBlank s ?_⟩
  rw [Document.isBlank, hstatements.mpr htext]
  rfl

/-- Separators with blanks before line breaks between them and no line break behind the last,
under rules of several levels. -/
theorem statements_eq_nil_iff_separators_mixed :
    let text := " ; \u2028\r\n;;\t\r;".toList
    let entry : RuleEntry :=
      .instances [.plain .error, .detailed (some .warn) none none, .plain .off]
    let s : Settings := { lint := LintConfig.recommended.withRule "trailing-whitespace" entry }
    (∀ c ∈ text, Text.isBlank c = true ∨ c = ';') ∧
      (Document.parse text).statements = [] ∧ lint s text = [] := by
  intro text entry s
  have hall : text.all (fun c => Text.isBlank c || c == ';') = true := by decide +kernel
  have htext : ∀ c ∈ text, Text.isBlank c = true ∨ c = ';' := by simpa using hall
  obtain ⟨hstatements, hnothing⟩ := statements_eq_nil_iff_separators text
  exact ⟨htext, hstatements.mpr htext, hnothing htext s⟩

end QueryLint
