import QueryLint.Proofs.Token.Touching
import QueryLint.Proofs.Token.Trivia

/-!
# A word in place of a sign

Where a comma or a comparison sign gives its place to another text, the lexemes before it
stay if the last of them does not join that text (`lexemes_join_lead`). If it joins a
word, the significant lexemes are others (`significant_lexemes_ne`): whatever is read
from a character that names and numbers start with is significant. If it joins trivia or a
comment, they make one lexeme (`Lexeme.ReadBefore.append_of_joins`). On the other side, a
word ends before every lexeme that is not significant.
-/
namespace QueryLint

namespace Lexeme.ReadBefore

variable {l : Lexeme} {c : Char} {front rest : List Char} (h : l.ReadBefore rest)
  (hchars : l.chars = c :: front) (hl : l.isSignificant = false)
include h hchars hl

theorem cases_of_insignificant :
    Text.isBlank c = true ∨ (c = '-' ∧ (front ++ rest).head? = some '-') ∨ c = '#' ∨ c = '/' := by
  have hfits := opening_fits c (front ++ rest).head?
  have hkind := kind_scan_mem c (front ++ rest)
  rw [(readBefore_iff_scan hchars).mp h] at hkind
  generalize opening c (front ++ rest).head? = o at hfits hkind
  have hkinds : ¬∀ kind ∈ o.kinds, isSignificant ⟨kind, []⟩ = true := by
    intro hall
    exact absurd (hl.symm.trans (hall _ hkind)) (by decide)
  cases o with
  | lineFeed =>
    obtain rfl : c = '\n' := hfits
    exact Or.inl (by decide)
  | carriageReturn =>
    obtain rfl : c = '\r' := hfits
    exact Or.inl (by decide)
  | blank => exact Or.inl (Bool.and_eq_true_iff.mp hfits).1
  | lineComment => exact Or.inr (hfits.imp_right Or.inl)
  | blockComment => exact Or.inr (Or.inr (Or.inr hfits.1))
  | _ => exact absurd (by decide) hkinds

theorem not_isNamePart_of_insignificant : Text.isNamePart c = false := by
  rcases h.cases_of_insignificant hchars hl with hblank | ⟨rfl, -⟩ | rfl | rfl
  · exact Text.not_isNamePart_of_isBlank hblank
  · decide
  · decide
  · decide

theorem isLead_of_insignificant :
    Scan.isLead c = true ∧ (c = '-' → (front ++ rest).head? = some '-') := by
  rcases h.cases_of_insignificant hchars hl with hblank | ⟨rfl, hdash⟩ | rfl | rfl
  · refine ⟨by simp [Scan.isLead, hblank], ?_⟩
    rintro rfl
    exact absurd hblank (by decide)
  · exact ⟨by decide, fun _ => hdash⟩
  · exact ⟨by decide, fun h => absurd h (by decide)⟩
  · exact ⟨by decide, fun h => absurd h (by decide)⟩

end Lexeme.ReadBefore

theorem scan_of_numberLiteral {c : Char} {cs : List Char} (h : (scan c cs).kind = .numberLiteral) :
    scan c cs = Scan.number c cs := by
  have hkind := kind_scan_mem c cs
  rw [h] at hkind
  rw [scan_eq_opening]
  generalize opening c cs.head? = o at hkind ⊢
  cases o with
  | digit => rfl
  | point => rfl
  | _ => exact absurd hkind (by decide)

namespace Lexeme

/-- Whether a lexeme starts with a character that names and numbers start with. -/
def StartsName (l : Lexeme) : Prop :=
  ∃ c front, l.chars = c :: front ∧ opening c none ∈ [Opening.letter, .sigil, .digit]

variable {l : Lexeme} {after rest : List Char}

theorem isSignificant_scan {c : Char} (h : opening c none ∈ [Opening.letter, .sigil, .digit])
    (cs chars : List Char) : isSignificant ⟨(scan c cs).kind, chars⟩ = true := by
  have hkind := kind_scan_mem c cs
  rw [opening_of_name h rfl] at hkind
  have hkinds : ∀ o ∈ [Opening.letter, .sigil, .digit], ∀ kind ∈ o.kinds,
      isSignificant ⟨kind, []⟩ = true := by decide
  exact hkinds _ h _ hkind

theorem StartsName.isSignificant (h : l.StartsName) (hread : l.ReadBefore after) :
    l.isSignificant = true := by
  obtain ⟨c, front, hchars, hopening⟩ := h
  have hscan := (readBefore_iff_scan hchars).mp hread
  have hsignificant := isSignificant_scan hopening (front ++ after) l.chars
  rwa [hscan] at hsignificant

theorem StartsName.significant_ne (h : l.StartsName) (hread : ¬l.ReadBefore rest)
    (ls : List Lexeme) : (lexemes (l.chars ++ rest)).filter (·.isSignificant) ≠ l :: ls := by
  obtain ⟨c, front, hchars, hopening⟩ := h
  intro heq
  have hlexemes := lexemes_cons c (front ++ rest)
  rw [hchars, List.cons_append, hlexemes,
    List.filter_cons_of_pos (isSignificant_scan hopening _ _)] at heq
  rw [(List.cons.inj heq).1, ← List.cons_append, ← hchars] at hlexemes
  have hjoin := congrArg join hlexemes
  rw [join_lexemes, join_cons, List.append_cancel_left_eq] at hjoin
  apply hread
  rw [hjoin]
  exact (readBefore_of_lexemes hlexemes).1

theorem readBefore_keyword {c : Char} {front : List Char} (hc : opening c none = .letter)
    (hfront : front.all Text.isNamePart = true)
    (hkeyword : Keyword.isKeyword (c :: front) = true)
    (hmark : Lexer.literalMarks.contains (Keyword.lower (c :: front)) = false)
    (hrest : ∀ x ∈ rest.head?, Text.isNamePart x = false) :
    ReadBefore ⟨.keyword, c :: front⟩ rest := by
  refine ⟨c, front, rfl, ?_⟩
  rw [scan_eq_opening, opening_of_name (by decide) hc]
  apply (Scan.word_eq_iff (Or.inl rfl)).mpr
  refine ⟨List.all_eq_true.mp hfront, fun x hx => ⟨hrest x hx, ?_⟩, ?_⟩
  · intro hquote
    rw [hquote.2] at hmark
    cases hmark
  · simp [Scan.plainWord, hkeyword]

theorem isSignificant_of_takesLetters (h : l.takesLetters = true) : l.isSignificant = true := by
  rcases takesLetters_cases h with (h | ⟨h, -⟩) | ⟨h, -⟩
  · simp [isSignificant, isTrivia, isComment, h]
  · simp [isSignificant, isTrivia, isComment, h]
  · simp [isSignificant, isTrivia, isComment, h]

namespace ReadBefore

theorem startsName_of_takesLetters (h : l.ReadBefore after) (htakes : l.takesLetters = true) :
    l.StartsName := by
  obtain ⟨c, front, hchars, hscan⟩ := h
  refine ⟨c, front, hchars, ?_⟩
  rcases takesLetters_cases htakes with hname | ⟨-, hsigil⟩
  · have hopening : opening c (front ++ after).head? = .letter ∨
        opening c (front ++ after).head? = .sigil := by
      apply opening_of_kind
      rw [hscan]
      simpa [hchars] using hname
    rcases hopening with ho | ho
    · rw [opening_of_name (by decide) ho]
      decide
    · rw [opening_of_name (by decide) ho]
      decide
  · obtain rfl : c = '@' := (List.cons.inj (hchars.symm.trans hsigil)).1
    decide

theorem not_nameStart (htakes : l.takesLetters = true) {x : Char} (hx : Text.isNameStart x = true)
    (rest : List Char) : ¬l.ReadBefore (x :: rest) := by
  intro h
  obtain ⟨c, front, hchars, hopening⟩ := h.startsName_of_takesLetters htakes
  rcases takesLetters_cases htakes with hname | ⟨hkind, hsigil⟩
  · have hgoesOn := (h.name_iff (hname.imp_right And.left) _).mp h
    obtain ⟨rfl | hend, -⟩ := (goesOn_eq_false_iff hchars).mp hgoesOn x rfl
    · exact absurd hopening (by decide)
    · rw [Text.isNamePart_of_isNameStart hx] at hend
      cases hend
  · have hscan := (readBefore_iff_scan hsigil).mp h
    have hne : (x :: rest).head? ≠ some '@' := by
      intro hhead
      obtain rfl := Option.some.inj hhead
      exact absurd hx (by decide)
    rw [scan_eq_opening, opening_sigil] at hscan
    change Scan.parameter (x :: rest) = _ at hscan
    rw [Scan.parameter_of_ne hne, Scan.parameterName_eq, if_pos (by simpa using hx), hkind] at hscan
    cases hscan

theorem exists_hexDigits (h : l.ReadBefore after) (hhex : l.isHexNumber = true) :
    ∃ mark digits, l.chars = '0' :: mark :: digits ∧
      Scan.openedRun Lexer.isHexDigit Lexer.isHexDigit (digits ++ after) = digits.length ∧
      digits ≠ [] := by
  obtain ⟨c, front, hchars, hscan⟩ := h
  obtain ⟨hkind, hmark⟩ : l.kind = .numberLiteral ∧
      ∃ mark ∈ l.chars[1]?, mark = 'x' ∨ mark = 'X' := by
    simpa [isHexNumber, Option.any_eq_true] using hhex
  obtain ⟨mark, hget, hmark⟩ := hmark
  rw [hchars, List.getElem?_cons_succ, ← List.head?_eq_getElem?] at hget
  obtain ⟨digits, rfl⟩ := List.head?_eq_some_iff.mp hget
  have hnumber : Scan.number c (mark :: (digits ++ after)) =
      ⟨.numberLiteral, digits.length + 1⟩ := by
    rw [← hkind, ← List.length_cons, ← hscan, List.cons_append]
    exact (scan_of_numberLiteral (by rw [← List.cons_append, hscan, hkind])).symm
  rw [Scan.number_cons] at hnumber
  split_ifs at hnumber with hhex
  · obtain ⟨⟨rfl, -⟩, hrun⟩ := hhex
    have hextra := congrArg Scan.extra hnumber
    dsimp only at hextra
    refine ⟨mark, digits, hchars, by omega, ?_⟩
    rintro rfl
    exact hrun (by simpa using hextra)
  · have hle := @Scan.decimal_le_of_not mark (digits ++ after)
      (by rcases hmark with rfl | rfl <;> rfl) (by rcases hmark with rfl | rfl <;> decide)
      (by rcases hmark with rfl | rfl <;> decide) (by rcases hmark with rfl | rfl <;> simp) c []
    rw [List.nil_append, hnumber] at hle
    simp at hle

theorem not_hexDigit (hhex : l.isHexNumber = true) {x : Char} (hx : Lexer.isHexDigit x = true)
    (rest : List Char) : ¬l.ReadBefore (x :: rest) := by
  intro h
  obtain ⟨mark, digits, -, hrun, hne⟩ := h.exists_hexDigits hhex
  have hstart : (digits ++ x :: rest).head?.any Lexer.isHexDigit = true := by
    by_contra hstart
    rw [Scan.openedRun_of_not_starts hstart] at hrun
    exact hne (List.eq_nil_of_length_eq_zero hrun.symm)
  rw [Scan.openedRun_of_starts hstart, Scan.runLength_append_eq_iff] at hrun
  rw [hrun.2 x rfl] at hx
  cases hx

end ReadBefore

/-- What joins a letter starts a name or a hexadecimal number. -/
theorem joins_cases {d : Char} (hd : Text.isNameStart d = true) (h : l.joins d = true) :
    l.takesLetters = true ∨ l.isHexNumber = true ∧ Lexer.isHexDigit d = true := by
  have hblank : Text.isInlineBlank d = false := by
    rw [Bool.eq_false_iff]
    intro hblank
    have hname := Text.isNamePart_of_isNameStart hd
    rw [Text.not_isNamePart_of_isBlank (Bool.and_eq_true_iff.mp hblank).1] at hname
    cases hname
  have hne : d ≠ '\n' ∧ d ≠ '-' := by
    constructor <;> rintro rfl <;> exact absurd hd (by decide)
  simpa [joins, hblank, hne, Text.isNamePart_of_isNameStart hd] using h

theorem ReadBefore.not_joins {d : Char} (hd : Text.isNameStart d = true) (h : l.joins d = true)
    (rest : List Char) : ¬l.ReadBefore (d :: rest) := by
  rcases joins_cases hd h with htakes | ⟨hhex, hdigit⟩
  · exact not_nameStart htakes hd rest
  · exact not_hexDigit hhex hdigit rest

theorem ReadBefore.startsName_of_joins (hread : l.ReadBefore after) {d : Char}
    (hd : Text.isNameStart d = true) (h : l.joins d = true) : l.StartsName := by
  rcases joins_cases hd h with htakes | ⟨hhex, -⟩
  · exact hread.startsName_of_takesLetters htakes
  · obtain ⟨mark, digits, hchars, -⟩ := hread.exists_hexDigits hhex
    exact ⟨'0', mark :: digits, hchars, by decide⟩

theorem ReadBefore.takesLetters_of_singleton (h : l.ReadBefore after) {e : Char}
    (he : e ∈ ['@', 'x', 'X']) (hchars : l.chars = [e]) : l.takesLetters = true := by
  have hscan := (readBefore_iff_scan hchars).mp h
  rw [List.nil_append, scan_eq_opening, List.length_nil] at hscan
  by_cases hsigil : e = '@'
  · subst hsigil
    rw [opening_sigil] at hscan
    have hkind : l.kind ∈ [TokenKind.identifier, .punctuation] := by
      have hmem := Scan.parameter_kind after
      rwa [show (Scan.parameter after).kind = l.kind from congrArg Scan.kind hscan] at hmem
    rcases List.mem_pair.mp hkind with hkind | hkind
    · simp [takesLetters, hchars, hkind]
    · simp [takesLetters, isPunctuation, hchars, hkind]
  · have hletter : opening e none = .letter ∧ e ≠ '\x60' := by
      have he : e = 'x' ∨ e = 'X' := by simpa [hsigil] using he
      rcases he with rfl | rfl <;> decide
    rw [opening_of_name (by decide) hletter.1] at hscan
    change Scan.word e after = _ at hscan
    rcases Scan.word_cases e after with ⟨quote, behind, -, -, heq⟩ | heq
    · have hextra := congrArg Scan.extra (heq.symm.trans hscan)
      simp [Scan.markedLiteral] at hextra
    · have hkind : l.kind = .keyword ∨ l.kind = .identifier := by
        have hplain := congrArg Scan.kind (heq.symm.trans hscan)
        dsimp only [Scan.plainWord] at hplain
        split_ifs at hplain
        · exact Or.inl hplain.symm
        · exact Or.inr hplain.symm
      rcases hkind with hkind | hkind <;> simp [takesLetters, hchars, hkind, hletter.2]

end Lexeme

namespace Lexeme

/-- What joins neither a letter nor a digit becomes part of the lexeme behind it. -/
theorem joins_cases_of_not {l : Lexeme} {d : Char} (hd : Text.isNamePart d = false)
    (h : l.joins d = true) :
    l.kind = .whitespace ∧ Text.isInlineBlank d = true ∨ l.chars = ['\r'] ∧ d = '\n' ∨
      l.chars = ['-'] ∧ d = '-' := by
  have hhex : Lexer.isHexDigit d = false := by
    rw [Bool.eq_false_iff]
    intro hhex
    rw [Text.isNamePart_of_isHexDigit hhex] at hd
    cases hd
  simp only [joins, hd, hhex, isPunctuation, Bool.and_false, Bool.false_or, Bool.or_eq_true,
    Bool.and_eq_true, beq_iff_eq] at h
  rcases h with (h | h) | ⟨⟨-, h⟩, hdash⟩
  · exact Or.inl h
  · exact Or.inr (Or.inl h)
  · exact Or.inr (Or.inr ⟨h, hdash⟩)

namespace ReadBefore

variable {l m : Lexeme} {after rest : List Char}

theorem blanks_append (h : l.ReadBefore after) (hl : l.kind = .whitespace)
    (hm : m.ReadBefore rest) (hblank : m.kind = .whitespace) :
    ReadBefore ⟨m.kind, l.chars ++ m.chars⟩ rest := by
  have hrun : ∀ {k : Lexeme} {behind : List Char}, k.ReadBefore behind → k.kind = .whitespace →
      ∃ c front, k.chars = c :: front ∧ (∀ x ∈ c :: front, Text.isInlineBlank x = true) ∧
        ∀ x ∈ behind.head?, Text.isInlineBlank x = false := by
    intro k behind hread hkind
    obtain ⟨x, hx, hinline⟩ := hread.whitespace_iff.mp hkind
    obtain ⟨front, hchars⟩ := List.head?_eq_some_iff.mp hx
    have hscan := (readBefore_iff_scan hchars).mp hread
    rw [scan_of_isInlineBlank hinline] at hscan
    obtain ⟨hfront, hbehind⟩ := Scan.runLength_append_eq_iff.mp (congrArg Scan.extra hscan)
    exact ⟨x, front, hchars, List.forall_mem_cons.mpr ⟨hinline, hfront⟩, hbehind⟩
  obtain ⟨c, front, hchars, hfront, -⟩ := hrun h hl
  obtain ⟨d, back, hback, hall, hrest⟩ := hrun hm hblank
  have hinline := (List.forall_mem_cons.mp hfront).1
  refine ⟨c, front ++ m.chars, by rw [hchars, List.cons_append], ?_⟩
  rw [scan_of_isInlineBlank hinline, hblank]
  congr 1
  refine Scan.runLength_append_eq_iff.mpr ⟨?_, hrest⟩
  rw [hback, List.forall_mem_append]
  exact ⟨(List.forall_mem_cons.mp hfront).2, hall⟩

theorem dash_cons {front : List Char} (hm : m.ReadBefore rest) (hchars : m.chars = '-' :: front)
    (hdash : (front ++ rest).head? = some '-') : ReadBefore ⟨m.kind, '-' :: m.chars⟩ rest := by
  have hopening : ∀ cs : List Char, cs.head? = some '-' → scan '-' cs = Scan.lineComment cs := by
    intro cs hcs
    rw [scan_eq_opening, hcs]
    rfl
  have hscan := (readBefore_iff_scan hchars).mp hm
  rw [hopening _ hdash] at hscan
  refine ⟨'-', m.chars, rfl, ?_⟩
  rw [hopening _ (by rw [hchars]; rfl), hchars, List.cons_append,
    Scan.lineComment_cons (by decide), hscan]
  rw [show m.kind = .comment from (congrArg Scan.kind hscan).symm]
  rfl

/-- Trivia and comments that follow a lexeme they join make one lexeme with it. -/
theorem append_of_joins (h : l.ReadBefore after) (hm : m.ReadBefore rest) {d : Char}
    {front : List Char} (hchars : m.chars = d :: front) (hd : Text.isNamePart d = false)
    (hdash : d = '-' → (front ++ rest).head? = some '-') (hjoins : l.joins d = true) :
    ReadBefore ⟨m.kind, l.chars ++ m.chars⟩ rest := by
  rcases joins_cases_of_not hd hjoins with ⟨hl, hblank⟩ | ⟨hl, rfl⟩ | ⟨hl, rfl⟩
  · exact h.blanks_append hl hm (hm.whitespace_iff.mpr ⟨d, by rw [hchars]; rfl, hblank⟩)
  · have hfeed := hm.chars_of_feed (by rw [hchars]; rfl)
    have hkind := hm.newline_iff.mpr ⟨'\n', by rw [hfeed]; rfl, by decide⟩
    rw [hl, hfeed, hkind]
    exact ⟨'\r', ['\n'], rfl, rfl⟩
  · rw [hl]
    exact hm.dash_cons hchars (hdash rfl)

end ReadBefore
end Lexeme

section Texts

variable {text rest tail : List Char} {x d : Char} {l : Lexeme} {before ms : List Lexeme}

/-- The lexemes before the last one stay where a sign behind it gives its place to another
text, if that does not go on with the name of one character. -/
theorem lexemes_join_front (hx : x ∈ Scan.signs) (hd : Scan.isLead d = true)
    (hdash : d = '-' → tail.head? = some '-') (h : lexemes text = before ++ l :: ms)
    (hrest : Lexeme.join ms = x :: rest)
    (hname : Text.isNameStart d = true → l.takesLetters = false) :
    lexemes (Lexeme.join before ++ (l.chars ++ d :: tail)) =
      before ++ lexemes (l.chars ++ d :: tail) := by
  induction before generalizing text with
  | nil => rfl
  | cons k before ih =>
    obtain ⟨hread, hlexemes⟩ := readBefore_of_lexemes h
    change k.ReadBefore (Lexeme.join (before ++ l :: ms)) at hread
    have hl : l.ReadBefore (x :: rest) := by
      rw [← hrest]
      exact (readBefore_of_lexemes (lexemes_join_right hlexemes)).1
    rw [Lexeme.join_append, Lexeme.join_cons, hrest, ← List.append_assoc] at hread
    have hkept : k.ReadBefore (Lexeme.join before ++ l.chars ++ d :: tail) := by
      rcases hread.meets hx hd hdash with hkept | ⟨hnil, -⟩ | ⟨-, hafter, hstart⟩
      · exact hkept
      · obtain ⟨c, front, hchars, -⟩ := hl
        simp [hchars] at hnil
      · obtain ⟨e, he, hafter⟩ := hafter
        have hchars : l.chars = [e] := by
          rcases List.append_eq_singleton_iff.mp hafter with ⟨-, hchars⟩ | ⟨-, hnil⟩
          · exact hchars
          · obtain ⟨c, front, hchars, -⟩ := hl
            rw [hchars] at hnil
            cases hnil
        have htakes := hl.takesLetters_of_singleton he hchars
        rw [hname hstart] at htakes
        cases htakes
    rw [List.append_assoc] at hkept
    rw [Lexeme.join_cons, List.append_assoc, hkept.lexemes_eq, ih hlexemes]
    rfl

theorem lexemes_join_lead (hx : x ∈ Scan.signs) (hd : Scan.isLead d = true)
    (hdash : d = '-' → tail.head? = some '-') (h : lexemes text = before ++ ms)
    (hrest : Lexeme.join ms = x :: rest) (hlast : ¬∃ l ∈ before.getLast?, l.joins d = true) :
    lexemes (Lexeme.join before ++ d :: tail) = before ++ lexemes (d :: tail) := by
  cases before using List.reverseRecOn with
  | nil => rfl
  | append_singleton before l =>
    have hjoins : l.joins d = false := by
      rw [Bool.eq_false_iff]
      exact fun hjoins => hlast ⟨l, by simp, hjoins⟩
    rw [List.append_assoc, List.singleton_append] at h
    have hname : Text.isNameStart d = true → l.takesLetters = false := by
      intro hstart
      simp only [Lexeme.joins, Bool.or_eq_false_iff, Text.isNamePart_of_isNameStart hstart,
        Bool.and_true] at hjoins
      exact hjoins.1.1.1.1
    have hread : l.ReadBefore ([] ++ x :: rest) := by
      rw [List.nil_append, ← hrest]
      exact (readBefore_of_lexemes (lexemes_join_right h)).1
    have hkept : l.ReadBefore (d :: tail) := by
      rcases hread.meets hx hd hdash with hkept | ⟨-, hjoined⟩ | ⟨-, ⟨e, -, hnil⟩, -⟩
      · exact hkept
      · rw [hjoins] at hjoined
        cases hjoined
      · cases hnil
    rw [Lexeme.join_append, List.append_assoc, Lexeme.join_cons, Lexeme.join_nil, List.append_nil,
      lexemes_join_front hx hd hdash h hrest hname, hkept.lexemes_eq, List.append_assoc]
    rfl

theorem significant_lexemes_ne (hx : x ∈ Scan.signs) (hd : Scan.isLead d = true)
    (hstart : Text.isNameStart d = true) (h : lexemes text = before ++ ms)
    (hrest : Lexeme.join ms = x :: rest) (hlast : ∃ l ∈ before.getLast?, l.joins d = true)
    (tail : List Char) (ls : List Lexeme) :
    (lexemes (Lexeme.join before ++ d :: tail)).filter (·.isSignificant) ≠
      before.filter (·.isSignificant) ++ ls := by
  have hdash : d = '-' → tail.head? = some '-' := by
    rintro rfl
    exact absurd hstart (by decide)
  induction before generalizing text with
  | nil => simp at hlast
  | cons l before ih =>
    obtain ⟨hread, hlexemes⟩ := readBefore_of_lexemes h
    change l.ReadBefore (Lexeme.join (before ++ ms)) at hread
    rw [Lexeme.join_append, hrest] at hread
    rw [Lexeme.join_cons, List.append_assoc]
    by_cases hread' : l.ReadBefore (Lexeme.join before ++ d :: tail)
    · have hlater : ∃ m ∈ before.getLast?, m.joins d = true := by
        obtain ⟨m, hm, hjoins⟩ := hlast
        cases before with
        | nil =>
          obtain rfl : l = m := by simpa using hm
          exact absurd hread' (Lexeme.ReadBefore.not_joins hstart hjoins tail)
        | cons k before => exact ⟨m, by simpa using hm, hjoins⟩
      have hne := ih hlexemes hlater
      rw [hread'.lexemes_eq, List.filter_cons, List.filter_cons]
      split_ifs
      · exact fun heq => hne (List.cons.inj heq).2
      · exact hne
    · have hname : l.StartsName := by
        rcases (hread.meets hx hd hdash).resolve_left hread' with
          ⟨-, hjoins⟩ | ⟨hchars | hchars, -⟩
        · exact hread.startsName_of_joins hstart hjoins
        · exact ⟨'@', [], hchars, by decide⟩
        · exact ⟨'0', [], hchars, by decide⟩
      rw [List.filter_cons_of_pos (hname.isSignificant hread)]
      exact hname.significant_ne hread' _

end Texts
end QueryLint
