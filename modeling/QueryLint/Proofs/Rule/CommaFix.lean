import QueryLint.Proofs.Edit.OneKind
import QueryLint.Proofs.Rule.Ahead
import QueryLint.Proofs.Token.Words

/-!
# The fix of commas before FROM

The fix of a comma before FROM deletes it, and puts nothing in its place, so that the
lexemes on its two sides touch. Between blanks and comments that is harmless, even where
blanks or the parts of a line break grow together. But a significant lexeme that joins
what follows is lost (`comma_fix_removes`): a name or a hexadecimal number goes on with
the letters of FROM, and a dash becomes part of the comment behind it.
-/
namespace QueryLint

theorem isLead_of_from {l : Lexeme} (h : l.isKeyword "FROM" = true) :
    ∃ d ∈ l.chars.head?, Scan.isLead d = true ∧ Text.isNameStart d = true := by
  obtain ⟨d, hd, hletter⟩ := Lexeme.exists_head_of_isKeyword h
    (show (Keyword.lower "FROM".toList).head? = some 'f' by decide)
  refine ⟨d, hd, ?_⟩
  rcases hletter with rfl | rfl <;> decide

theorem isLead_of_follows {l : Lexeme} {d : Char} {front rest : List Char}
    (h : l.ReadBefore rest) (hchars : l.chars = d :: front)
    (hnext : l.isSignificant = false ∨ l.isKeyword "FROM" = true) :
    Scan.isLead d = true ∧ (d = '-' → (front ++ rest).head? = some '-') := by
  rcases hnext with hinsignificant | hfrom
  · exact h.isLead_of_insignificant hchars hinsignificant
  · obtain ⟨x, hx, hlead, hstart⟩ := isLead_of_from hfrom
    obtain rfl : d = x := by simpa [hchars] using hx
    refine ⟨hlead, ?_⟩
    rintro rfl
    exact absurd hstart (by decide)

section Removed

variable {text : List Char} {before after : List Lexeme} {comma l m : Lexeme}

/-- A lexeme that joins trivia or a comment is lost if it is significant, and no other. -/
theorem significant_of_joined {d : Char} {front : List Char}
    (h : lexemes text = before ++ l :: comma :: m :: after) (hcomma : comma.chars = [','])
    (hm : m.isSignificant = false) (hchars : m.chars = d :: front) (hjoins : l.joins d = true) :
    (lexemes (Lexeme.join (before ++ [l]) ++ Lexeme.join (m :: after))).filter
        (·.isSignificant) =
        (before ++ [l]).filter (·.isSignificant) ++ (m :: after).filter (·.isSignificant) ↔
      l.isSignificant = false := by
  obtain ⟨hl, hrest⟩ := readBefore_of_lexemes (lexemes_join_right h)
  obtain ⟨hread, hafter⟩ := readBefore_of_lexemes (readBefore_of_lexemes hrest).2
  have hpart := hread.not_isNamePart_of_insignificant hchars hm
  obtain ⟨hlead, hdash⟩ := hread.isLead_of_insignificant hchars hm
  have hone := hl.append_of_joins hread hchars hpart hdash hjoins
  have htail : Lexeme.join (m :: after) = d :: (front ++ Lexeme.join after) := by
    rw [Lexeme.join_cons, hchars, List.cons_append]
  have hfront : lexemes (Lexeme.join before ++ (l.chars ++ Lexeme.join (m :: after))) =
      before ++ lexemes (l.chars ++ Lexeme.join (m :: after)) := by
    rw [htail]
    apply lexemes_join_front (x := ',') (by decide) hlead hdash h
    · rw [Lexeme.join_cons, hcomma, List.singleton_append]
    · intro hstart
      rw [Text.isNamePart_of_isNameStart hstart] at hpart
      cases hpart
  have hbehind : lexemes (l.chars ++ Lexeme.join (m :: after)) =
      ⟨m.kind, l.chars ++ m.chars⟩ :: after := by
    rw [Lexeme.join_cons, ← List.append_assoc, hone.lexemes_eq, hafter]
  have hinsignificant : Lexeme.isSignificant ⟨m.kind, l.chars ++ m.chars⟩ = false := hm
  rw [Lexeme.join_append, Lexeme.join_cons l, Lexeme.join_nil, List.append_nil, List.append_assoc,
    hfront, hbehind]
  cases hl : l.isSignificant <;> simp [hm, hinsignificant, hl]

theorem significant_of_joined_from {d : Char} {front : List Char}
    (h : lexemes text = before ++ l :: comma :: m :: after) (hcomma : comma.chars = [','])
    (hm : m.isKeyword "FROM" = true) (hchars : m.chars = d :: front) (hjoins : l.joins d = true) :
    (lexemes (Lexeme.join (before ++ [l]) ++ Lexeme.join (m :: after))).filter
        (·.isSignificant) =
        (before ++ [l]).filter (·.isSignificant) ++ (m :: after).filter (·.isSignificant) ↔
      l.isSignificant = false := by
  have hl := (readBefore_of_lexemes (lexemes_join_right h)).1
  obtain ⟨x, hx, hlead, hstart⟩ := isLead_of_from hm
  obtain rfl : d = x := by simpa [hchars] using hx
  have htail : Lexeme.join (m :: after) = d :: (front ++ Lexeme.join after) := by
    rw [Lexeme.join_cons, hchars, List.cons_append]
  have hrest : Lexeme.join (comma :: m :: after) = ',' :: Lexeme.join (m :: after) := by
    rw [Lexeme.join_cons, hcomma, List.singleton_append]
  rw [List.append_cons] at h
  have hne := significant_lexemes_ne (by decide) hlead hstart h hrest ⟨l, by simp, hjoins⟩
    (front ++ Lexeme.join after) ((m :: after).filter (·.isSignificant))
  rw [← htail] at hne
  rw [(hl.startsName_of_joins hstart hjoins).isSignificant hl]
  exact iff_of_false hne (by decide)

/-- The comma is removed, and nothing else, if no significant lexeme before it joins what
follows. -/
theorem significant_removed (h : lexemes text = before ++ [comma] ++ after)
    (hcomma : comma.chars = [','])
    (hafter : ∃ m ∈ after.head?, m.isSignificant = false ∨ m.isKeyword "FROM" = true) :
    (lexemes (Lexeme.join before ++ Lexeme.join after)).filter (·.isSignificant) =
        before.filter (·.isSignificant) ++ after.filter (·.isSignificant) ↔
      ¬∃ l ∈ before.getLast?, l.isSignificant = true ∧
        ∃ d ∈ (Lexeme.join after).head?, l.joins d = true := by
  have hbehind : lexemes (Lexeme.join after) = after := lexemes_join_right h
  rw [List.append_assoc, List.singleton_append] at h
  have hrest : Lexeme.join (comma :: after) = ',' :: Lexeme.join after := by
    rw [Lexeme.join_cons, hcomma, List.singleton_append]
  obtain ⟨m, hm, hnext⟩ := hafter
  obtain ⟨after, rfl⟩ := List.head?_eq_some_iff.mp hm
  have hread := (readBefore_of_lexemes hbehind).1
  obtain ⟨d, front, hchars⟩ : ∃ d front, m.chars = d :: front := by
    obtain ⟨d, front, hchars, -⟩ := hread
    exact ⟨d, front, hchars⟩
  obtain ⟨hlead, hdash⟩ := isLead_of_follows hread hchars hnext
  have htail : Lexeme.join (m :: after) = d :: (front ++ Lexeme.join after) := by
    rw [Lexeme.join_cons, hchars, List.cons_append]
  by_cases hjoins : ∃ l ∈ before.getLast?, l.joins d = true
  · obtain ⟨l, hl, hjoin⟩ := hjoins
    obtain ⟨before, rfl⟩ := List.getLast?_eq_some_iff.mp hl
    have hright : (¬∃ k ∈ (before ++ [l]).getLast?, k.isSignificant = true ∧
        ∃ e ∈ (Lexeme.join (m :: after)).head?, k.joins e = true) ↔ l.isSignificant = false := by
      simp [htail, hjoin]
    rw [hright]
    rw [List.append_assoc, List.singleton_append] at h
    rcases hnext with hinsignificant | hfrom
    · exact significant_of_joined h hcomma hinsignificant hchars hjoin
    · exact significant_of_joined_from h hcomma hfrom hchars hjoin
  · have hkept := lexemes_join_lead (by decide) hlead hdash h hrest hjoins
    rw [← htail, hbehind] at hkept
    rw [hkept, List.filter_append]
    refine iff_of_true rfl ?_
    rintro ⟨l, hl, -, e, he, hjoin⟩
    obtain rfl : d = e := by simpa [htail] using he
    exact hjoins ⟨l, hl, hjoin⟩

end Removed

theorem exists_comma_of_mem_trailingComma {text : List Char} {f : Finding}
    (h : f ∈ Select.trailingComma (Document.parse text)) :
    ∃ before comma after, tokenize text = before ++ comma :: after ∧
      comma.isPunctuation "," = true ∧
      (∃ t ∈ after.head?, t.isSignificant = false ∨ t.isKeyword "FROM" = true) ∧
      f = { range := comma.range, fix := Fix.delete "Remove trailing comma" comma.range } := by
  rw [Select.trailingComma_eq_along] at h
  obtain ⟨comma, after, hlook, ⟨before, hbefore⟩⟩ := Finding.exists_of_mem_along h
  obtain ⟨hcomma, hfrom, rfl⟩ := Select.of_commaAt hlook
  exact ⟨before, comma, after, hbefore.symm, hcomma, Finding.exists_head_of_nextIf? hfrom, rfl⟩

/-- Removal of the comma. Every finding stands at a comma, and its fix can be applied. The
significant lexemes of the fixed text are those of the text without that comma if and only
if the token before it is not significant or does not join what follows the comma. -/
theorem comma_fix_removes (text : List Char) {f : Finding}
    (h : f ∈ Check.selectTrailingComma.findings (Document.parse text)) :
    ∃ before comma after fix fixed,
      tokenize text = before ++ comma :: after ∧ comma.isPunctuation "," = true ∧
      comma.range = f.range ∧ f.fix = some fix ∧ fix.applyTo? text = some fixed ∧
      ((Token.significant (tokenize fixed)).map Token.toLexeme =
          (Token.significant (before ++ after)).map Token.toLexeme ↔
        ¬∃ t ∈ before.getLast?, t.isSignificant = true ∧
          ∃ d ∈ (Lexeme.join (after.map Token.toLexeme)).head?, t.joins d = true) := by
  obtain ⟨before, comma, after, hsplit, hcomma, hnext, rfl⟩ := exists_comma_of_mem_trailingComma h
  obtain ⟨hlexemes, hrange⟩ := lexemes_of_tokenize hsplit
  have happly := Fix.applyTo?_replace hlexemes "Remove trailing comma" ""
  rw [← hrange] at happly
  refine ⟨before, comma, after, _, _, hsplit, hcomma, rfl, rfl, happly, ?_⟩
  have hchars : comma.chars = [','] := congrArg Lexeme.chars (Lexeme.isPunctuation_iff.mp hcomma)
  have hfollows : ∃ l ∈ (after.map Token.toLexeme).head?,
      l.isSignificant = false ∨ l.isKeyword "FROM" = true := by
    obtain ⟨t, ht, hsignificant⟩ := hnext
    exact ⟨t.toLexeme, by simp [Option.mem_def.mp ht], hsignificant⟩
  have hremoved := significant_removed hlexemes hchars hfollows
  simp only [Token.map_toLexeme_significant, List.map_append, List.filter_append]
  rw [tokenize, map_toLexeme_place]
  simpa using hremoved

/-- A decimal number may touch the comma, since it does not go on with FROM. -/
theorem comma_fix_removes_number :
    let text := "select 1,from t".toList
    let range : Range := ⟨⟨0, 8⟩, ⟨0, 9⟩⟩
    let f : Finding := { range, fix := Fix.delete "Remove trailing comma" range }
    f ∈ Check.selectTrailingComma.findings (Document.parse text) ∧
      ∃ before comma after fix fixed,
        tokenize text = before ++ comma :: after ∧ comma.isPunctuation "," = true ∧
        comma.range = f.range ∧ f.fix = some fix ∧ fix.applyTo? text = some fixed ∧
        ((Token.significant (tokenize fixed)).map Token.toLexeme =
            (Token.significant (before ++ after)).map Token.toLexeme ↔
          ¬∃ t ∈ before.getLast?, t.isSignificant = true ∧
            ∃ d ∈ (Lexeme.join (after.map Token.toLexeme)).head?, t.joins d = true) := by
  intro text range f
  have hf : f ∈ Check.selectTrailingComma.findings (Document.parse text) := by decide +kernel
  exact ⟨hf, comma_fix_removes text hf⟩

/-- A name that touches the comma goes on with FROM, and the table becomes another name. -/
theorem comma_fix_joins_name :
    let text := "select a,from t".toList
    let range : Range := ⟨⟨0, 8⟩, ⟨0, 9⟩⟩
    let f : Finding := { range, fix := Fix.delete "Remove trailing comma" range }
    let fixed := "select afrom t".toList
    f ∈ Check.selectTrailingComma.findings (Document.parse text) ∧
      f.fix.bind (·.applyTo? text) = some fixed ∧
      (Token.significant (tokenize text)).map Token.toLexeme =
        [⟨.keyword, "select".toList⟩, ⟨.identifier, ['a']⟩, ⟨.punctuation, [',']⟩,
          ⟨.keyword, "from".toList⟩, ⟨.identifier, ['t']⟩] ∧
      (Token.significant (tokenize fixed)).map Token.toLexeme =
        [⟨.keyword, "select".toList⟩, ⟨.identifier, "afrom".toList⟩, ⟨.identifier, ['t']⟩] := by
  decide +kernel

end QueryLint
