import QueryLint.Proofs.Edit.OneKind
import QueryLint.Proofs.Rule.Ahead
import QueryLint.Proofs.Token.LetterCase
import QueryLint.Proofs.Token.Words

/-!
# The fix of comparisons with NULL

The fix of a comparison with NULL writes IS or IS NOT where the sign stands, with no
blank around it. It gives the sign's place to the keywords, and leaves every other
significant lexeme as it is, unless the sign touches a word: one before it that goes on
with the letters of the keywords, or the NULL behind it, that goes on from them
(`null_fix_substitutes`).
-/
namespace QueryLint

def Lexeme.keyword (word : String) : Lexeme :=
  ⟨.keyword, word.toList⟩

namespace Null

/-- What the fix writes, and the keywords that are to be read from it. -/
inductive Writes : String → List Lexeme → Prop
  | is : Writes "IS" [.keyword "IS"]
  | isNot : Writes "IS NOT" [.keyword "IS", .keyword "NOT"]

inductive Closing : Lexeme → Prop
  | is : Closing (.keyword "IS")
  | not : Closing (.keyword "NOT")

theorem Closing.startsName {l : Lexeme} (h : Closing l) : l.StartsName := by
  cases h with
  | is => exact ⟨'I', ['S'], by decide, by decide⟩
  | not => exact ⟨'N', ['O', 'T'], by decide, by decide⟩

theorem Closing.takesLetters {l : Lexeme} (h : Closing l) : l.takesLetters = true := by
  cases h <;> rfl

theorem Closing.readBefore {l : Lexeme} (h : Closing l) {rest : List Char}
    (hrest : ∀ x ∈ rest.head?, Text.isNamePart x = false) : l.ReadBefore rest := by
  cases h with
  | is =>
    change Lexeme.ReadBefore ⟨.keyword, ['I', 'S']⟩ rest
    exact Lexeme.readBefore_keyword (by decide) (by decide) (by decide +kernel) (by decide) hrest
  | not =>
    change Lexeme.ReadBefore ⟨.keyword, ['N', 'O', 'T']⟩ rest
    exact Lexeme.readBefore_keyword (by decide) (by decide) (by decide +kernel) (by decide) hrest

theorem Writes.lexemes_append {replacement : String} {words : List Lexeme}
    (h : Writes replacement words) :
    ∃ lead last, words = lead.filter (·.isSignificant) ++ [last] ∧ Closing last ∧
      ∀ rest, lexemes (replacement.toList ++ rest) = lead ++ lexemes (last.chars ++ rest) := by
  cases h with
  | is => exact ⟨[], .keyword "IS", rfl, .is, fun rest => rfl⟩
  | isNot =>
    refine ⟨[.keyword "IS", ⟨.whitespace, [' ']⟩], .keyword "NOT", rfl, .not, fun rest => ?_⟩
    have hblank : Lexeme.ReadBefore ⟨.whitespace, [' ']⟩ ("NOT".toList ++ rest) :=
      ⟨' ', [], rfl, rfl⟩
    have his : (Lexeme.keyword "IS").ReadBefore (" NOT".toList ++ rest) :=
      Closing.is.readBefore (by simp [show Text.isNamePart ' ' = false by decide])
    exact his.lexemes_eq.trans (congrArg (Lexeme.keyword "IS" :: ·) hblank.lexemes_eq)

theorem Writes.exists_cons {replacement : String} {words : List Lexeme}
    (h : Writes replacement words) : ∃ tail, replacement.toList = 'I' :: tail := by
  cases h with
  | is => exact ⟨['S'], by decide⟩
  | isNot => exact ⟨['S', ' ', 'N', 'O', 'T'], by decide⟩

theorem writes_of_instead? {t : Token} {replacement : String}
    (h : instead? t = some replacement) :
    ∃ words, Writes replacement words ∧
      (t.isPunctuation "=" = true ∧ words = [.keyword "IS"] ∨
        (t.isPunctuation "!=" = true ∨ t.isPunctuation "<>" = true) ∧
          words = [.keyword "IS", .keyword "NOT"]) := by
  unfold instead? at h
  split_ifs at h with heq hne
  · obtain rfl := Option.some.inj h
    exact ⟨_, .is, Or.inl ⟨heq, rfl⟩⟩
  · obtain rfl := Option.some.inj h
    exact ⟨_, .isNot, Or.inr ⟨hne, rfl⟩⟩

theorem exists_sign_of_instead? {t : Token} {replacement : String}
    (h : instead? t = some replacement) : ∃ c ∈ Scan.signs, ∃ rest, t.chars = c :: rest := by
  have hchars : ∀ mark, t.isPunctuation mark = true → t.chars = mark.toList := by
    intro mark hmark
    rw [Lexeme.isPunctuation_iff.mp hmark]
  unfold instead? at h
  split_ifs at h with heq hne
  · exact ⟨'=', by decide, [], hchars "=" heq⟩
  · rcases hne with hne | hne
    · exact ⟨'!', by decide, ['='], hchars "!=" hne⟩
    · exact ⟨'<', by decide, ['>'], hchars "<>" hne⟩

end Null

theorem Lexeme.joins_first (l : Lexeme) : l.joins 'I' = l.takesLetters := by
  have hletter : Text.isNamePart 'I' = true ∧ Lexer.isHexDigit 'I' = false ∧
      Text.isInlineBlank 'I' = false := by decide
  simp [joins, hletter]

section Replaced

variable {before after : List Lexeme} {sign : Lexeme} {text : List Char}

/-- The last keyword ends where it is to end if NULL does not follow at once. -/
theorem significant_closing {last l : Lexeme} (hlast : Null.Closing last)
    (h : lexemes (Lexeme.join (l :: after)) = l :: after)
    (hnext : l.isSignificant = false ∨ l.isKeyword "NULL" = true) :
    (lexemes (last.chars ++ Lexeme.join (l :: after))).filter (·.isSignificant) =
        last :: (l :: after).filter (·.isSignificant) ↔
      ¬l.isKeyword "NULL" = true := by
  obtain ⟨c, front, hchars, -⟩ := (readBefore_of_lexemes h).1
  have hjoin : Lexeme.join (l :: after) = c :: (front ++ Lexeme.join after) := by
    rw [Lexeme.join_cons, hchars, List.cons_append]
  by_cases hnull : l.isKeyword "NULL" = true
  · have hread : ¬last.ReadBefore (Lexeme.join (l :: after)) := by
      obtain ⟨x, hx, hletter⟩ := Lexeme.exists_head_of_isKeyword hnull
        (show (Keyword.lower "NULL".toList).head? = some 'n' by decide)
      obtain rfl : c = x := by simpa [hchars] using hx
      have hstart : Text.isNameStart c = true := by
        rcases hletter with rfl | rfl <;> decide
      rw [hjoin]
      exact Lexeme.ReadBefore.not_nameStart hlast.takesLetters hstart _
    exact iff_of_false (hlast.startsName.significant_ne hread _) (not_not_intro hnull)
  · have hpart : Text.isNamePart c = false :=
      (readBefore_of_lexemes h).1.not_isNamePart_of_insignificant hchars
        (hnext.resolve_right hnull)
    have hread : last.ReadBefore (Lexeme.join (l :: after)) := by
      apply hlast.readBefore
      rw [hjoin]
      simpa using hpart
    rw [hread.lexemes_eq, h,
      List.filter_cons_of_pos (Lexeme.isSignificant_of_takesLetters hlast.takesLetters)]
    exact iff_of_true rfl hnull

/-- The keywords stand in the place of the sign if no word touches it. -/
theorem significant_replaced {replacement : String} {words : List Lexeme}
    (hwrites : Null.Writes replacement words) (h : lexemes text = before ++ [sign] ++ after)
    {c : Char} (hc : c ∈ Scan.signs) {rest : List Char} (hsign : sign.chars = c :: rest)
    (hafter : ∃ l ∈ after.head?, l.isSignificant = false ∨ l.isKeyword "NULL" = true) :
    (lexemes (Lexeme.join before ++ replacement.toList ++ Lexeme.join after)).filter
        (·.isSignificant) =
        before.filter (·.isSignificant) ++ words ++ after.filter (·.isSignificant) ↔
      ¬(∃ l ∈ before.getLast?, l.takesLetters = true) ∧
        ¬∃ l ∈ after.head?, l.isKeyword "NULL" = true := by
  have hrest : Lexeme.join (sign :: after) = c :: (rest ++ Lexeme.join after) := by
    rw [Lexeme.join_cons, hsign, List.cons_append]
  have hbehind : lexemes (Lexeme.join after) = after := lexemes_join_right h
  rw [← List.append_cons] at h
  obtain ⟨tail, htail⟩ := hwrites.exists_cons
  have hfixed : Lexeme.join before ++ replacement.toList ++ Lexeme.join after =
      Lexeme.join before ++ 'I' :: (tail ++ Lexeme.join after) := by
    rw [htail, List.append_assoc, List.cons_append]
  by_cases htouches : ∃ l ∈ before.getLast?, l.takesLetters = true
  · have hjoins : ∃ l ∈ before.getLast?, l.joins 'I' = true := by
      simpa only [Lexeme.joins_first] using htouches
    have hne := significant_lexemes_ne hc (by decide) (by decide) h hrest hjoins
      (tail ++ Lexeme.join after) (words ++ after.filter (·.isSignificant))
    rw [← hfixed, ← List.append_assoc] at hne
    exact iff_of_false hne fun h => h.1 htouches
  · obtain ⟨lead, last, rfl, hlast, hlexemes⟩ := hwrites.lexemes_append
    obtain ⟨l, hl, hnext⟩ := hafter
    obtain ⟨after, rfl⟩ := List.head?_eq_some_iff.mp hl
    have hclosing := significant_closing hlast hbehind hnext
    have hjoins : ¬∃ l ∈ before.getLast?, l.joins 'I' = true := by
      simpa only [Lexeme.joins_first] using htouches
    have hword := @lexemes_join_lead text _ (tail ++ Lexeme.join (l :: after)) _ _ _ _ hc
      (by decide) (by simp) h hrest hjoins
    rw [← List.cons_append, ← htail, hlexemes, ← List.append_assoc] at hword
    rw [hword]
    simp only [List.filter_append, List.append_assoc, List.append_cancel_left_eq,
      List.singleton_append]
    rw [hclosing]
    constructor
    · intro hnull
      refine ⟨htouches, ?_⟩
      rintro ⟨m, hm, hkeyword⟩
      obtain rfl : l = m := by simpa using hm
      exact hnull hkeyword
    · rintro ⟨-, hnull⟩ hkeyword
      exact hnull ⟨l, rfl, hkeyword⟩

end Replaced

theorem exists_sign_of_mem_comparisons {text : List Char} {f : Finding}
    (h : f ∈ Null.comparisons (Document.parse text)) :
    ∃ before sign after replacement, tokenize text = before ++ sign :: after ∧
      Null.instead? sign = some replacement ∧
      (∃ t ∈ after.head?, t.isSignificant = false ∨ t.isKeyword "NULL" = true) ∧
      f = { range := sign.range,
            fix := Fix.replace ("Replace with " ++ replacement) sign.range replacement } := by
  obtain ⟨s, hs, hf⟩ := List.mem_flatMap.mp h
  obtain ⟨sign, rest, hfinding, ⟨front, hfront⟩⟩ := exists_suffix_of_mem_findingsFrom hf
  obtain ⟨replacement, hinstead, hnext, hf⟩ := exists_of_finding? hfinding
  obtain ⟨before, behind, hsplit⟩ := exists_append_of_statement hs
  obtain ⟨t, ht, hsignificant⟩ := Finding.exists_head_of_nextIf? hnext
  refine ⟨before ++ front, sign, rest ++ behind, replacement, ?_, hinstead, ?_, hf⟩
  · rw [hsplit, ← hfront]
    simp
  · obtain ⟨rest, rfl⟩ := List.head?_eq_some_iff.mp ht
    exact ⟨t, rfl, hsignificant⟩

/-- Substitution of the sign. Every comparison with NULL stands at a sign, and its fix
can be applied. The significant lexemes of the fixed text are those of the text, with the
keyword IS in place of an equality sign and the keywords IS and NOT in place of an
inequality sign, if and only if the sign touches no word: the token before it takes no
letters, and NULL does not follow it at once. -/
theorem null_fix_substitutes (text : List Char) {f : Finding}
    (h : f ∈ Check.isNull.findings (Document.parse text)) :
    ∃ before sign after words fix fixed,
      tokenize text = before ++ sign :: after ∧ sign.range = f.range ∧
      (sign.isPunctuation "=" = true ∧ words = [.keyword "IS"] ∨
        (sign.isPunctuation "!=" = true ∨ sign.isPunctuation "<>" = true) ∧
          words = [.keyword "IS", .keyword "NOT"]) ∧
      f.fix = some fix ∧ fix.applyTo? text = some fixed ∧
      ((Token.significant (tokenize fixed)).map Token.toLexeme =
          (Token.significant before).map Token.toLexeme ++ words ++
            (Token.significant after).map Token.toLexeme ↔
        ¬(∃ t ∈ before.getLast?, t.takesLetters = true) ∧
          ¬∃ t ∈ after.head?, t.isKeyword "NULL" = true) := by
  obtain ⟨before, sign, after, replacement, hsplit, hinstead, hnext, rfl⟩ :=
    exists_sign_of_mem_comparisons h
  obtain ⟨words, hwrites, hwords⟩ := Null.writes_of_instead? hinstead
  obtain ⟨c, hc, rest, hchars⟩ := Null.exists_sign_of_instead? hinstead
  obtain ⟨hlexemes, hrange⟩ := lexemes_of_tokenize hsplit
  have happly := Fix.applyTo?_replace hlexemes ("Replace with " ++ replacement) replacement
  rw [← hrange] at happly
  refine ⟨before, sign, after, words, _, _, hsplit, rfl, hwords, rfl, happly, ?_⟩
  have hfollows : ∃ l ∈ (after.map Token.toLexeme).head?,
      l.isSignificant = false ∨ l.isKeyword "NULL" = true := by
    obtain ⟨t, ht, hsignificant⟩ := hnext
    exact ⟨t.toLexeme, by simp [Option.mem_def.mp ht], hsignificant⟩
  have hreplaced := significant_replaced hwrites hlexemes hc hchars hfollows
  simp only [Token.map_toLexeme_significant]
  rw [tokenize, map_toLexeme_place, hreplaced]
  simp

/-- A number and a comment may touch the sign. -/
theorem null_fix_substitutes_number :
    let text := "select 1<>/**/null".toList
    let range : Range := ⟨⟨0, 8⟩, ⟨0, 10⟩⟩
    let f : Finding := { range, fix := Fix.replace "Replace with IS NOT" range "IS NOT" }
    f ∈ Check.isNull.findings (Document.parse text) ∧
      ∃ before sign after words fix fixed,
        tokenize text = before ++ sign :: after ∧ sign.range = f.range ∧
        (sign.isPunctuation "=" = true ∧ words = [.keyword "IS"] ∨
          (sign.isPunctuation "!=" = true ∨ sign.isPunctuation "<>" = true) ∧
            words = [.keyword "IS", .keyword "NOT"]) ∧
        f.fix = some fix ∧ fix.applyTo? text = some fixed ∧
        ((Token.significant (tokenize fixed)).map Token.toLexeme =
            (Token.significant before).map Token.toLexeme ++ words ++
              (Token.significant after).map Token.toLexeme ↔
          ¬(∃ t ∈ before.getLast?, t.takesLetters = true) ∧
            ¬∃ t ∈ after.head?, t.isKeyword "NULL" = true) := by
  intro text range f
  have hf : f ∈ Check.isNull.findings (Document.parse text) := by decide +kernel
  exact ⟨hf, null_fix_substitutes text hf⟩

/-- A name that touches the sign goes on with the keyword and with NULL, and the
comparison is lost. -/
theorem null_fix_joins_name :
    let text := "select a=NULL".toList
    let range : Range := ⟨⟨0, 8⟩, ⟨0, 9⟩⟩
    let f : Finding := { range, fix := Fix.replace "Replace with IS" range "IS" }
    let fixed := "select aISNULL".toList
    f ∈ Check.isNull.findings (Document.parse text) ∧
      f.fix.bind (·.applyTo? text) = some fixed ∧
      (Token.significant (tokenize text)).map Token.toLexeme =
        [.keyword "select", ⟨.identifier, ['a']⟩, ⟨.punctuation, ['=']⟩, .keyword "NULL"] ∧
      (Token.significant (tokenize fixed)).map Token.toLexeme =
        [.keyword "select", ⟨.identifier, "aISNULL".toList⟩] := by
  decide +kernel

end QueryLint
