import QueryLint.Proofs.Rule.Relabel
import QueryLint.Proofs.Token.LineEnding

/-!
# Linting and line endings

Rules look at the characters of names, keywords and marks, and these hold no line
break. What is left of a token without the other characters and its place in
bytes (`Token.outline`) is the same however lines end; so are the diagnostics
(`lint_breakWith`).
-/
namespace QueryLint

def Token.outline (t : Token) : Token :=
  { t with
    chars := if t.kind.isSpelled then t.chars else if t.isLineComment then ['#'] else []
    span := ⟨0, 0⟩ }

section Outline

variable {t : Token}

theorem toLexeme_outline (h : t.kind.isSpelled = true) : t.outline.toLexeme = t.toLexeme := by
  simp [Token.outline, h]

theorem isLineComment_outline (t : Token) : t.outline.isLineComment = t.isLineComment := by
  cases hspelled : t.kind.isSpelled with
  | true => rw [toLexeme_outline hspelled]
  | false =>
    have hchars : t.outline.chars = if t.isLineComment then ['#'] else [] := by
      simp [Token.outline, hspelled]
    have hcomment : t.outline.isComment = t.isComment := rfl
    cases hline : t.isLineComment with
    | true =>
      have hkind : t.isComment = true := by
        rw [Lexeme.isLineComment, Bool.and_eq_true] at hline
        exact hline.1
      rw [hline, if_pos rfl] at hchars
      simp [Lexeme.isLineComment, hcomment, hkind, hchars]
    | false =>
      rw [hline, if_neg Bool.false_ne_true] at hchars
      simp [Lexeme.isLineComment, hchars]

theorem kind_and_outline {k : TokenKind} (hk : k.isSpelled = true) (p : List Char → Bool)
    (t : Token) :
    (t.outline.kind == k && p t.outline.chars) = (t.kind == k && p t.chars) := by
  cases hspelled : t.kind.isSpelled with
  | true => rw [toLexeme_outline hspelled]
  | false =>
    have hkind : (t.kind == k) = false := by
      apply beq_false_of_ne
      rintro rfl
      simp [hk] at hspelled
    have hkind' : (t.outline.kind == k) = false := hkind
    rw [hkind, hkind', Bool.false_and, Bool.false_and]

theorem relabels_outline : Token.Relabels id Token.outline where
  kind _ := rfl
  range _ := rfl
  isLineComment := isLineComment_outline
  isKeyword t word := kind_and_outline rfl (fun cs => Keyword.lower cs == _) t
  isPunctuation t mark _ := kind_and_outline rfl (fun cs => cs == mark.toList) t
  chars t hkind := by
    rw [toLexeme_outline]
    rcases hkind with hkind | hkind <;> rw [hkind] <;> rfl

end Outline

section Tokens

variable {b : List Char} {l : Lexeme}

theorem isLineComment_breakWith (hb : Text.IsReturn b) (l : Lexeme) :
    (l.breakWith b).isLineComment = l.isLineComment := by
  have hdashes : ['-', '-'].isPrefixOf (Text.breakWith b l.chars) =
      ['-', '-'].isPrefixOf l.chars :=
    Text.isPrefixOf_breakWith hb (by simp [Text.isLineBreak]) l.chars
  have hhash : ['#'].isPrefixOf (Text.breakWith b l.chars) = ['#'].isPrefixOf l.chars :=
    Text.isPrefixOf_breakWith hb (by simp [Text.isLineBreak]) l.chars
  unfold Lexeme.isLineComment
  simp only [Lexeme.breakWith, hdashes, hhash]
  rfl

theorem outline_breakWith (hb : Text.IsReturn b) (hreturn : '\r' ∉ l.chars)
    (hspelled : l.kind.isSpelled = true → ∀ x ∈ l.chars, Text.isLineBreak x = false)
    (p : Position) (offset offset' : Nat) :
    ((l.breakWith b).placed p offset').outline = (l.placed p offset).outline := by
  have hcomment : ((l.breakWith b).placed p offset').isLineComment =
      (l.placed p offset).isLineComment := isLineComment_breakWith hb l
  unfold Token.outline
  rw [hcomment]
  simp only [Lexeme.placed, Lexeme.breakWith, Position.advance_breakWith hb hreturn]
  by_cases hkind : l.kind.isSpelled = true
  · simp [hkind, Text.breakWith_eq_self (hspelled hkind)]
  · simp [hkind]

theorem map_outline_place (hb : Text.IsReturn b) {ls : List Lexeme}
    (hls : ∀ l ∈ ls, '\r' ∉ l.chars ∧
      (l.kind.isSpelled = true → ∀ x ∈ l.chars, Text.isLineBreak x = false))
    (p : Position) (offset offset' : Nat) :
    (place p offset' (ls.map (·.breakWith b))).map Token.outline =
      (place p offset ls).map Token.outline := by
  induction ls generalizing p offset offset' with
  | nil => rfl
  | cons l ls ih =>
    obtain ⟨hreturn, hspelled⟩ := hls l List.mem_cons_self
    have hstop : p.advance (l.breakWith b).chars = p.advance l.chars :=
      p.advance_breakWith hb hreturn
    rw [List.map_cons, place_cons, place_cons, List.map_cons, List.map_cons, hstop,
      outline_breakWith hb hreturn hspelled p offset,
      ih fun m hm => hls m (List.mem_cons_of_mem l hm)]

theorem map_outline_tokenize {text : List Char} (hb : Text.IsReturn b) (h : '\r' ∉ text) :
    (tokenize (Text.breakWith b text)).map Token.outline = (tokenize text).map Token.outline := by
  unfold tokenize
  rw [lexemes_breakWith hb h]
  apply map_outline_place hb
  intro l hl
  constructor
  · intro hmem
    apply h
    rw [← join_lexemes text]
    exact List.mem_flatMap.mpr ⟨l, hl, hmem⟩
  · exact not_lineBreak_of_mem_lexemes hl

theorem mapCopied_id (x : Diagnostic) : x.mapCopied id = x := by
  have hfix : Fix.mapText id = id := by
    funext fix
    simp [Fix.mapText]
  unfold Diagnostic.mapCopied
  split_ifs
  · simp [hfix]
  · rfl

theorem lint_breakWith_of_isReturn (hb : Text.IsReturn b) (s : Settings) {text : List Char}
    (h : '\r' ∉ text) : lint s (Text.breakWith b text) = lint s text := by
  have hmap := map_lint_of_relabels relabels_outline (map_outline_tokenize hb h) s
  simpa only [mapCopied_id, List.map_id'] using hmap

end Tokens

/-- Linting does not depend on how lines end: a text without carriage returns has
the same diagnostics, in the same order and with the same fixes, when every line
feed is replaced by a carriage return and a line feed, or by a carriage return. -/
theorem lint_breakWith (s : Settings) (text : List Char) (h : '\r' ∉ text) :
    lint s (Text.breakWith ['\r', '\n'] text) = lint s text ∧
      lint s (Text.breakWith ['\r'] text) = lint s text := by
  constructor
  · exact lint_breakWith_of_isReturn (Or.inl rfl) s h
  · exact lint_breakWith_of_isReturn (Or.inr rfl) s h

/-- An escaped line break in a literal, and blanks and a comma before others. -/
theorem lint_breakWith_escape :
    let s : Settings := {}
    let text := "SELECT \"\"\"a\\\nb\"\"\", \nFROM t\n".toList
    '\r' ∉ text ∧ (lint s text).length = 2 ∧
      lint s "SELECT \"\"\"a\\\r\nb\"\"\", \r\nFROM t\r\n".toList = lint s text := by
  intro s text
  have htext : '\r' ∉ text := by decide
  have hlength : (lint s text).length = 2 := by
    unfold lint Settings.lintDocument Linter.run
    rw [List.length_take, List.length_mergeSort]
    decide +kernel
  exact ⟨htext, hlength, (lint_breakWith s text htext).1⟩

end QueryLint
