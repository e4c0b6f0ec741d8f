import QueryLint.Proofs.Token.LineEnd
import QueryLint.Proofs.Token.Names

/-!
# Another text in place of a sign

Where a comma or a comparison sign gives its place to a blank, a comment or a word, a
lexeme that ended before it mostly ends before the new text as well (`scan_meets`). A
literal or a comment was closed before the sign, since it would have held it. What does
not end there joins the first character of the new text (`Lexeme.joins`): a name takes
letters, a hexadecimal number takes digits, blanks take blanks, and two dashes make a
comment. A lexeme further in front can only look ahead through a name of one character:
a sigil through another one, and a zero through the letter of hexadecimal numbers.
-/
namespace QueryLint

namespace Text

theorem not_isNamePart_of_isBlank {c : Char} (h : isBlank c = true) : isNamePart c = false := by
  obtain ⟨r, hr, hfirst, hlast⟩ := exists_range_of_inRanges h
  have htables : ∀ r ∈ blankRanges, ∀ n ∈ List.range' r.1 (r.2 + 1 - r.1),
      inRanges letterRanges n = false ∧ inRanges numberRanges n = false ∧ n ≠ '_'.toNat := by
    decide +kernel
  obtain ⟨hletter, hnumber, hunderscore⟩ :=
    htables r hr c.toNat (List.mem_range'_1.mpr ⟨hfirst, by omega⟩)
  have hne : c ≠ '_' := fun heq => hunderscore (congrArg Char.toNat heq)
  simp [isNamePart, isLetter, isNumber, hletter, hnumber, hne]

theorem isNamePart_of_isHexDigit {c : Char} (h : Lexer.isHexDigit c = true) :
    isNamePart c = true := by
  have hranges : (0x30 ≤ c.toNat ∧ c.toNat ≤ 0x39) ∨ (0x61 ≤ c.toNat ∧ c.toNat ≤ 0x7A) ∨
      (0x41 ≤ c.toNat ∧ c.toNat ≤ 0x5A) := by
    simp only [Lexer.isHexDigit, Char.isDigit, Bool.or_eq_true, Bool.and_eq_true, decide_eq_true_eq,
      Char.le_def, UInt32.le_iff_toNat_le, ge_iff_le] at h
    rcases h with (⟨hfirst, hlast⟩ | ⟨hfirst, hlast⟩) | ⟨hfirst, hlast⟩
    · exact Or.inl ⟨hfirst, hlast⟩
    · exact Or.inr (Or.inl ⟨hfirst, hlast.trans (by decide)⟩)
    · exact Or.inr (Or.inr ⟨hfirst, hlast.trans (by decide)⟩)
  unfold isNamePart
  rcases hranges with ⟨hfirst, hlast⟩ | ⟨hfirst, hlast⟩ | ⟨hfirst, hlast⟩
  · have hnumber : isNumber c = true := inRanges_of_mem_head hfirst hlast
    simp [hnumber]
  · have hletter : isLetter c = true := by
      unfold isLetter letterRanges
      rw [inRanges, if_neg (by omega), inRanges_of_mem_head hfirst hlast, Bool.or_true]
    simp [hletter]
  · have hletter : isLetter c = true := inRanges_of_mem_head hfirst hlast
    simp [hletter]

end Text

namespace Lexeme

/-- Whether a lexeme is one that letters right behind it would be part of. -/
def takesLetters (l : Lexeme) : Bool :=
  l.kind == .keyword || (l.kind == .identifier && l.chars.head? != some '\x60') ||
    l.isPunctuation "@"

def isHexNumber (l : Lexeme) : Bool :=
  l.kind == .numberLiteral && l.chars[1]?.any fun x => x == 'x' || x == 'X'

/-- Whether a lexeme and the character right behind it would be read as one. -/
def joins (l : Lexeme) (d : Char) : Bool :=
  (l.takesLetters && Text.isNamePart d) || (l.isHexNumber && Lexer.isHexDigit d) ||
    (l.kind == .whitespace && Text.isInlineBlank d) || (l.chars == ['\r'] && d == '\n') ||
    (l.isPunctuation "-" && d == '-')

theorem takesLetters_cases {l : Lexeme} (h : l.takesLetters = true) :
    (l.kind = .keyword ∨ l.kind = .identifier ∧ l.chars.head? ≠ some '\x60') ∨
      l.kind = .punctuation ∧ l.chars = ['@'] := by
  simpa [takesLetters, isPunctuation] using h

end Lexeme

namespace Scan

/-- The characters that close or escape in a literal or a comment. -/
def delimiters : List Char := ['\'', '"', '\x60', '\\', '/']

/-- A character that ends no line, literal or comment and escapes nothing. -/
def isOrdinary (d : Char) : Bool :=
  !Text.isBlank d && !delimiters.contains d

/-- The comma, and the first characters of the signs that compare with NULL. -/
def signs : List Char := [',', '=', '!', '<']

theorem isOrdinary_of_mem_signs : ∀ d ∈ signs, isOrdinary d = true :=
  List.all_eq_true.mp (by decide)

theorem isOrdinary.not_isBlank {d : Char} (h : isOrdinary d = true) : Text.isBlank d = false := by
  simp only [isOrdinary, Bool.and_eq_true, Bool.not_eq_true'] at h
  exact h.1

theorem isOrdinary.not_isLineBreak {d : Char} (h : isOrdinary d = true) :
    ¬Text.isLineBreak d = true :=
  Bool.eq_false_iff.mp (Text.not_isLineBreak_of_not_isBlank (isOrdinary.not_isBlank h))

theorem isOrdinary.ne {d e : Char} (h : isOrdinary d = true)
    (he : e ∈ delimiters) : d ≠ e := by
  rintro rfl
  simp [isOrdinary, he] at h

section Closed

variable {x : Char} (hx : isOrdinary x = true) {cs : List Char}
include hx

theorem single_stops {quote : Char} (hquote : quote ∈ delimiters) {escapes : Bool}
    (h : (single quote escapes (cs ++ [x])).2 ≤ cs.length) (ds : List Char) :
    single quote escapes (cs ++ ds) = single quote escapes (cs ++ [x]) := by
  have hplain : single quote escapes [x] = (false, 1) := by
    have hne : x ≠ '\\' := isOrdinary.ne hx (by decide)
    have hescape : ¬(escapes && x == '\\') = true := by simp [hne]
    rw [single_of_plain (isOrdinary.not_isLineBreak hx) (isOrdinary.ne hx hquote) hescape]
    rfl
  fun_induction single quote escapes cs with
  | case1 =>
    rw [List.nil_append, hplain] at h
    cases h
  | case2 c cs hc =>
    rw [List.cons_append, single_of_lineBreak hc, List.cons_append, single_of_lineBreak hc]
  | case3 cs hc => rw [List.cons_append, single_of_quote hc, List.cons_append, single_of_quote hc]
  | case4 c hc hq he =>
    rw [List.singleton_append, single_of_escape hc hq he (isOrdinary.not_isLineBreak hx)] at h
    simp at h
  | case5 c hc hq he d cs hd =>
    simp only [List.cons_append]
    rw [single_of_escape_lineBreak hc hq he hd, single_of_escape_lineBreak hc hq he hd]
  | case6 c hc hq he d cs hd r ih =>
    simp only [List.cons_append] at h ⊢
    rw [single_of_escape hc hq he hd] at h ⊢
    rw [single_of_escape hc hq he hd, ih (by simpa using h)]
  | case7 c cs hc hq he r ih =>
    rw [List.cons_append, single_of_plain hc hq he] at h
    rw [List.cons_append, single_of_plain hc hq he, List.cons_append, single_of_plain hc hq he,
      ih (by simpa using h)]

theorem triple_stops {quote : Char} (hquote : quote ∈ delimiters) {escapes : Bool}
    (h : (triple quote escapes (cs ++ [x])).2 ≤ cs.length) (ds : List Char) :
    triple quote escapes (cs ++ ds) = triple quote escapes (cs ++ [x]) := by
  cases hclosed : (triple quote escapes cs).1 with
  | true => rw [triple_extend hclosed, triple_extend hclosed]
  | false =>
    rw [triple_concat (isOrdinary.ne hx hquote) hclosed] at h
    dsimp only at h
    omega

theorem string_stops {quote : Char} (hquote : quote ∈ delimiters) {escapes : Bool}
    (h : (string quote escapes (cs ++ [x])).extra ≤ cs.length) {ds : List Char}
    (hds : ds.head? ≠ some quote) :
    string quote escapes (cs ++ ds) = string quote escapes (cs ++ [x]) := by
  have hpair : [quote, quote].isPrefixOf (cs ++ ds) = [quote, quote].isPrefixOf cs :=
    isPrefixOf_pair_append_of_ne hds
  have hpair' : [quote, quote].isPrefixOf (cs ++ [x]) = [quote, quote].isPrefixOf cs :=
    isPrefixOf_pair_append_of_ne (by simpa using isOrdinary.ne hx hquote)
  by_cases hopens : [quote, quote].isPrefixOf cs = true
  · have hlen := length_of_isPrefixOf_pair hopens
    rw [string_of_pair (hpair'.trans hopens), List.drop_append_of_le_length hlen] at h
    rw [string_of_pair (hpair.trans hopens), string_of_pair (hpair'.trans hopens),
      List.drop_append_of_le_length hlen, List.drop_append_of_le_length hlen,
      triple_stops hx hquote]
    dsimp only at h
    rw [List.length_drop]
    omega
  · rw [string_of_not_pair (by rwa [hpair'])] at h
    rw [string_of_not_pair (by rwa [hpair]), string_of_not_pair (by rwa [hpair']),
      single_stops hx hquote h]

theorem quotedName_stops (h : (quotedName (cs ++ [x])).extra ≤ cs.length) (ds : List Char) :
    quotedName (cs ++ ds) = quotedName (cs ++ [x]) := by
  unfold quotedName at *
  rw [single_stops hx (by decide) h]

theorem lineComment_stops (h : (lineComment (cs ++ [x])).extra ≤ cs.length) (ds : List Char) :
    lineComment (cs ++ ds) = lineComment (cs ++ [x]) := by
  unfold lineComment at *
  rw [List.takeWhile_append] at h
  rw [List.takeWhile_append, List.takeWhile_append]
  split_ifs at h ⊢ with hall
  · have hline : [x].takeWhile (fun c => !Text.isLineBreak c) = [x] := by
      simp [isOrdinary.not_isLineBreak hx]
    have htrim : Text.trimBlankEnd [x] = [x] := by
      simp [Text.trimBlankEnd, isOrdinary.not_isBlank hx]
    rw [hline, Text.trimBlankEnd_append, htrim] at h
    simp at h
  · rfl

theorem blockComment_stops (hcs : cs ≠ []) (h : (blockComment (cs ++ [x])).extra ≤ cs.length)
    (ds : List Char) : blockComment (cs ++ ds) = blockComment (cs ++ [x]) := by
  obtain ⟨c, cs, rfl⟩ := List.exists_cons_of_ne_nil hcs
  have hclose : blockClose? (cs ++ [x]) = blockClose? cs :=
    blockClose?_concat (isOrdinary.ne hx (by decide))
  unfold blockComment at *
  simp only [List.cons_append, List.drop_succ_cons, List.drop_zero, hclose] at *
  cases hshort : blockClose? cs with
  | some n => rw [blockClose?_extend hshort]
  | none =>
    rw [hshort] at h
    simp at h

theorem word_stops (c : Char) (hrun : runLength Text.isNamePart cs < cs.length)
    (h : (word c (cs ++ [x])).extra ≤ cs.length) {ds : List Char}
    (hds : ∀ quote ∈ ds.head?, ¬(quote = '\'' ∨ quote = '"')) :
    word c (cs ++ ds) = word c (cs ++ [x]) := by
  have hle := Nat.le_of_lt hrun
  have hword : ∀ ds, word c (cs ++ ds) =
      wordBefore (c :: cs.take (runLength Text.isNamePart cs)) (runLength Text.isNamePart cs)
        (cs.drop (runLength Text.isNamePart cs) ++ ds) := by
    intro ds
    rw [word_eq, runLength_extend hrun, List.take_append_of_le_length hle,
      List.drop_append_of_le_length hle]
  obtain ⟨q, behind, hbehind⟩ := List.exists_cons_of_ne_nil
    (show cs.drop (runLength Text.isNamePart cs) ≠ [] by simpa using hrun)
  have hlength : runLength Text.isNamePart cs + 1 + behind.length = cs.length := by
    have := congrArg List.length hbehind
    simp only [List.length_drop, List.length_cons] at this
    omega
  rw [hword, hbehind, List.cons_append] at h
  rw [hword, hword, hbehind, List.cons_append, List.cons_append]
  by_cases hmark : Marks (c :: cs.take (runLength Text.isNamePart cs)) q
  · have hquote : q ∈ delimiters := by
      rcases hmark.1 with rfl | rfl <;> decide
    rw [wordBefore_marked hmark] at h
    rw [wordBefore_marked hmark, wordBefore_marked hmark]
    unfold markedLiteral at h ⊢
    dsimp only at h
    rw [string_stops hx hquote (by omega) fun hhead => hds q hhead hmark.1]
  · rw [wordBefore_plain (by simpa using hmark), wordBefore_plain (by simpa using hmark)]

end Closed

/-- The first characters of trivia, of comments, and of the words FROM and IS. -/
def isLead (d : Char) : Bool :=
  Text.isBlank d || ['-', '#', '/', 'f', 'F', 'I'].contains d

section Lead

variable {d : Char} (hd : isLead d = true)
include hd

theorem isLead.ne {e : Char} (he : isLead e = false) : d ≠ e := by
  rintro rfl
  rw [hd] at he
  cases he

theorem isLead.isNameStart (h : Text.isNamePart d = true) : Text.isNameStart d = true := by
  rcases Bool.or_eq_true_iff.mp hd with hblank | hmem
  · rw [Text.not_isNamePart_of_isBlank hblank] at h
    cases h
  · have hall : ['-', '#', '/', 'f', 'F', 'I'].all
        (fun e => !Text.isNamePart e || Text.isNameStart e) = true := by decide
    simpa [h] using List.all_eq_true.mp hall d (List.contains_iff_mem.mp hmem)

theorem isLead.not_isDigit : d.isDigit = false := by
  rcases Bool.or_eq_true_iff.mp hd with hblank | hmem
  · rw [Bool.eq_false_iff]
    intro hdigit
    have hname : Text.isNamePart d = true :=
      Text.isNamePart_of_isHexDigit (by rw [Lexer.isHexDigit, hdigit]; rfl)
    rw [Text.not_isNamePart_of_isBlank hblank] at hname
    cases hname
  · have hall : ['-', '#', '/', 'f', 'F', 'I'].all (fun e => !e.isDigit) = true := by decide
    simpa using List.all_eq_true.mp hall d (List.contains_iff_mem.mp hmem)

end Lead

/-- What becomes of a scan `F` behind the character `c` if `d` and `tail` stand behind its
text: it ends before `d`, or it reads a lexeme that ends there and joins `d`, or it looks
ahead through a name of one character that `d` goes on. -/
def Meets (c : Char) (F : List Char → Scan) (cs : List Char) (d : Char) (tail : List Char) : Prop :=
  (F (cs ++ d :: tail)).extra ≤ cs.length ∨
    (F cs).extra = cs.length ∧ Lexeme.joins ⟨(F cs).kind, c :: cs⟩ d = true ∨
    (F cs).extra = 0 ∧ (c = '@' ∨ c = '0') ∧ (∃ e ∈ ['@', 'x', 'X'], cs = [e]) ∧
      Text.isNameStart d = true

section Meets

variable {c d : Char} {cs tail : List Char}

theorem runLength_le_of_not {p : Char → Bool} (hp : p d = false) (cs tail : List Char) :
    runLength p (cs ++ d :: tail) ≤ cs.length := by
  unfold runLength
  rw [List.takeWhile_append, List.takeWhile_cons_of_neg (by simp [hp]), List.append_nil]
  split_ifs
  · exact Nat.le_refl _
  · exact runLength_le p cs

theorem openedRun_le_of_not {s p : Char → Bool} (hp : p d = false) (cs tail : List Char) :
    openedRun s p (cs ++ d :: tail) ≤ cs.length := by
  unfold openedRun
  split_ifs
  · exact runLength_le_of_not hp cs tail
  · exact Nat.zero_le _

theorem runLength_meets {p : Char → Bool} (cs tail : List Char) :
    runLength p (cs ++ d :: tail) ≤ cs.length ∨ runLength p cs = cs.length ∧ p d = true := by
  rcases Nat.lt_or_eq_of_le (runLength_le p cs) with hlt | hall
  · rw [runLength_extend hlt]
    exact Or.inl (runLength_le p cs)
  · cases hp : p d with
    | true => exact Or.inr ⟨hall, rfl⟩
    | false => exact Or.inl (runLength_le_of_not hp cs tail)

theorem openedRun_meets {s p : Char → Bool} (cs tail : List Char) :
    openedRun s p (cs ++ d :: tail) ≤ cs.length ∨ openedRun s p cs = cs.length ∧ p d = true := by
  cases cs with
  | nil =>
    cases hp : p d with
    | true => exact Or.inr ⟨rfl, rfl⟩
    | false => exact Or.inl (openedRun_le_of_not hp [] tail)
  | cons x cs =>
    rcases Nat.lt_or_eq_of_le (openedRun_le s p (x :: cs)) with hlt | hall
    · rw [openedRun_extend hlt]
      exact Or.inl (openedRun_le s p _)
    · cases hp : p d with
      | true => exact Or.inr ⟨hall, rfl⟩
      | false => exact Or.inl (openedRun_le_of_not hp (x :: cs) tail)

theorem blanks_meets :
    Meets c (fun cs => ⟨.whitespace, runLength Text.isInlineBlank cs⟩) cs d tail := by
  rcases runLength_meets cs tail with hle | ⟨hall, hblank⟩
  · exact Or.inl hle
  · exact Or.inr (Or.inl ⟨hall, by simp [Lexeme.joins, hblank]⟩)

theorem parameterName_meets (hd : isLead d = true) {sigils : Nat} {name : List Char}
    (hcs : sigils = 0 ∧ cs = name ∨ sigils = 1 ∧ cs = '@' :: name)
    (hparameter : ∀ ds, ds.head? ≠ some '@' →
      parameter (cs ++ ds) = parameterName sigils (name ++ ds)) :
    Meets '@' parameter cs d tail := by
  have hlength : sigils + name.length = cs.length := by
    rcases hcs with ⟨rfl, rfl⟩ | ⟨rfl, rfl⟩
    · exact Nat.zero_add _
    · exact Nat.add_comm 1 _
  have hshort := hparameter [] (by simp)
  rw [List.append_nil, List.append_nil] at hshort
  have hlong := hparameter (d :: tail) (by simpa using isLead.ne hd (by decide))
  unfold Meets
  rw [hshort, hlong]
  unfold parameterName
  rcases @openedRun_meets d Text.isNameStart Text.isNamePart name tail with hle | ⟨hall, hpart⟩
  · left
    dsimp only
    split_ifs
    · exact Nat.zero_le _
    · dsimp only
      omega
  · right
    rw [hall]
    by_cases hname : name.length = 0
    · obtain rfl := List.eq_nil_of_length_eq_zero hname
      rcases hcs with ⟨-, rfl⟩ | ⟨-, rfl⟩
      · exact Or.inl ⟨rfl, by simp [Lexeme.joins, Lexeme.takesLetters, Lexeme.isPunctuation, hpart]⟩
      · exact Or.inr ⟨rfl, Or.inl rfl, ⟨'@', by simp⟩, isLead.isNameStart hd hpart⟩
    · rw [if_neg hname]
      exact Or.inl ⟨hlength, by simp [Lexeme.joins, Lexeme.takesLetters, hpart]⟩

theorem parameter_meets (hd : isLead d = true) : Meets '@' parameter cs d tail := by
  by_cases hhead : cs.head? = some '@'
  · obtain ⟨name, rfl⟩ := List.head?_eq_some_iff.mp hhead
    exact parameterName_meets hd (Or.inr ⟨rfl, rfl⟩) fun ds _ => parameter_sigil (name ++ ds)
  · refine parameterName_meets hd (Or.inl ⟨rfl, rfl⟩) ?_
    intro ds hds
    apply parameter_of_ne
    cases cs with
    | nil => exact hds
    | cons x cs => exact hhead

theorem exponentLength_le_of_not (hdigit : d.isDigit = false) (he : ¬(d = 'e' ∨ d = 'E'))
    (hsign : d = '+' ∨ d = '-' → tail.head?.any Char.isDigit = false) (cs : List Char) :
    exponentLength (cs ++ d :: tail) ≤ cs.length := by
  have hdigits : ∀ lead cs, exponentDigits lead (cs ++ d :: tail) ≤ lead + cs.length := by
    intro lead cs
    have hrun := @openedRun_le_of_not d Char.isDigit Char.isDigit hdigit cs tail
    unfold exponentDigits
    dsimp only
    split_ifs <;> omega
  match cs with
  | [] => rw [List.nil_append, exponentLength_of_ne he, List.length_nil]
  | [e] =>
    by_cases he : e = 'e' ∨ e = 'E'
    · by_cases hd : d = '+' ∨ d = '-'
      · rw [List.singleton_append, exponentLength_sign he hd, exponentDigits_eq, hsign hd]
        exact Nat.zero_le _
      · rw [List.singleton_append, exponentLength_digits he (by simpa using hd)]
        exact hdigits 1 []
    · rw [List.singleton_append, exponentLength_of_ne he]
      exact Nat.zero_le _
  | e :: x :: cs =>
    by_cases he : e = 'e' ∨ e = 'E'
    · by_cases hx : x = '+' ∨ x = '-'
      · rw [List.cons_append, List.cons_append, exponentLength_sign he hx]
        have hle := hdigits 2 cs
        simp only [List.length_cons]
        omega
      · rw [List.cons_append, exponentLength_digits he (by simpa using hx)]
        have hle := hdigits 1 (x :: cs)
        simp only [List.length_cons] at hle ⊢
        omega
    · rw [List.cons_append, exponentLength_of_ne he]
      exact Nat.zero_le _

theorem mantissaLength_le_of_not (hdigit : d.isDigit = false) (hpoint : d ≠ '.') (c : Char)
    (cs : List Char) : mantissaLength c (cs ++ d :: tail) ≤ cs.length := by
  have hrun := @runLength_le_of_not d Char.isDigit hdigit cs tail
  unfold mantissaLength
  dsimp only
  split_ifs
  · exact hrun
  · rw [List.drop_append_of_le_length hrun]
    have hfraction : ∀ ds, fractionLength (ds ++ d :: tail) ≤ ds.length := by
      intro ds
      cases ds with
      | nil => simp [fractionLength, hpoint]
      | cons x ds =>
        have hdigits := @runLength_le_of_not d Char.isDigit hdigit ds tail
        simp only [List.cons_append, fractionLength, List.length_cons]
        split_ifs <;> omega
    have hle := hfraction (cs.drop (runLength Char.isDigit (cs ++ d :: tail)))
    rw [List.length_drop] at hle
    omega

theorem decimal_le_of_not (hdigit : d.isDigit = false) (hpoint : d ≠ '.')
    (he : ¬(d = 'e' ∨ d = 'E')) (hsign : d = '+' ∨ d = '-' → tail.head?.any Char.isDigit = false)
    (c : Char) (cs : List Char) : (decimal c (cs ++ d :: tail)).extra ≤ cs.length := by
  have hmantissa := @mantissaLength_le_of_not d tail hdigit hpoint c cs
  have hexponent := exponentLength_le_of_not hdigit he hsign
    (cs.drop (mantissaLength c (cs ++ d :: tail)))
  unfold decimal
  dsimp only
  rw [List.drop_append_of_le_length hmantissa]
  rw [List.length_drop] at hexponent
  omega

theorem number_meets (hd : isLead d = true) (hdash : d = '-' → tail.head? = some '-') :
    Meets c (number c) cs d tail := by
  have hdecimal : ∀ cs, (decimal c (cs ++ d :: tail)).extra ≤ cs.length := by
    apply decimal_le_of_not (isLead.not_isDigit hd) (isLead.ne hd (by decide))
    · rintro (rfl | rfl) <;> exact absurd hd (by decide)
    · rintro (rfl | rfl)
      · exact absurd hd (by decide)
      · rw [hdash rfl]
        rfl
  cases cs with
  | nil =>
    left
    rw [List.nil_append, number_cons, if_neg]
    · exact hdecimal []
    · rintro ⟨⟨-, rfl | rfl⟩, -⟩ <;> exact absurd hd (by decide)
  | cons x cs =>
    by_cases hmark : c = '0' ∧ (x = 'x' ∨ x = 'X')
    · rcases @openedRun_meets d Lexer.isHexDigit Lexer.isHexDigit cs tail with hle | ⟨hall, hhex⟩
      · left
        rw [List.cons_append, number_cons]
        split_ifs
        · dsimp only
          rw [List.length_cons]
          omega
        · exact hdecimal (x :: cs)
      · right
        by_cases hnil : cs.length = 0
        · obtain rfl := List.eq_nil_of_length_eq_zero hnil
          right
          refine ⟨?_, Or.inr hmark.1, ?_,
            isLead.isNameStart hd (Text.isNamePart_of_isHexDigit hhex)⟩
          · rw [hmark.1]
            rcases hmark.2 with rfl | rfl <;> rfl
          · exact ⟨x, by simp [hmark.2], rfl⟩
        · left
          rw [number_cons, if_pos ⟨hmark, by rwa [hall]⟩, hall]
          refine ⟨by simp [Nat.add_comm], ?_⟩
          rcases hmark.2 with rfl | rfl <;> simp [Lexeme.joins, Lexeme.isHexNumber, hhex]
    · left
      rw [List.cons_append, number_cons, if_neg fun h => hmark h.1]
      exact hdecimal (x :: cs)

theorem word_meets {x : Char} (hx : isOrdinary x = true) (hd : isLead d = true)
    (hc : Text.isNameStart c = true) (h : (word c (cs ++ [x])).extra ≤ cs.length) :
    Meets c (word c) cs d tail := by
  have hquote : ¬(d = '\'' ∨ d = '"') := by
    rintro (rfl | rfl) <;> exact absurd hd (by decide)
  rcases Nat.lt_or_eq_of_le (runLength_le Text.isNamePart cs) with hlt | hall
  · left
    rw [word_stops hx c hlt h (by simpa using hquote)]
    exact h
  · have hplain : word c cs = plainWord (c :: cs) cs.length := by
      rw [word_eq, hall, List.take_length, List.drop_length]
      rfl
    cases hpart : Text.isNamePart d with
    | true =>
      right
      left
      have hbacktick : c ≠ '\x60' := by
        rintro rfl
        exact absurd hc (by decide)
      rw [hplain]
      refine ⟨rfl, ?_⟩
      unfold plainWord
      split_ifs <;> simp [Lexeme.joins, Lexeme.takesLetters, hbacktick, hpart]
    | false =>
      left
      have hname := List.takeWhile_eq_self_iff.mp ((List.takeWhile_prefix _).eq_of_length hall)
      have hrun : runLength Text.isNamePart (cs ++ d :: tail) = cs.length :=
        runLength_append_eq_iff.mpr ⟨hname, by simpa using hpart⟩
      rw [word_eq, hrun, List.take_left, List.drop_left, wordBefore_plain]
      · exact Nat.le_refl _
      · rintro quote hhead ⟨hmark, -⟩
        obtain rfl : d = quote := by simpa using hhead
        exact hquote hmark

theorem punctuation_meets (hd : isLead d = true) : Meets c (punctuation c) cs d tail := by
  left
  have hoperator : ∀ pair ∈ Lexer.operators, pair.2 ≠ d := by
    have hall : Lexer.operators.all (fun pair => !isLead pair.2) = true := by decide
    rintro pair hpair rfl
    simpa [hd] using List.all_eq_true.mp hall pair hpair
  unfold punctuation
  cases cs with
  | nil =>
    rw [if_neg]
    · split_ifs <;> exact Nat.le_refl _
    · intro h
      exact hoperator (c, d) (by simpa using h) rfl
  | cons x cs => split_ifs <;> simp

end Meets

end Scan

theorem opening_sign {x : Char} (hx : x ∈ Scan.signs) (c : Char) (cs : List Char) :
    opening c (cs ++ [x]).head? = opening c cs.head? := by
  cases cs with
  | cons y cs => rfl
  | nil =>
    have hall : Scan.signs.all (fun x => x != '-' && (x != '*' && !x.isDigit)) = true := by decide
    obtain ⟨hdash, hstar, hdigit⟩ : x ≠ '-' ∧ x ≠ '*' ∧ x.isDigit = false := by
      simpa using List.all_eq_true.mp hall x hx
    exact opening_none (by simp [hdash]) (by simp [hstar]) (by simp [hdigit])

/-- What takes its place opens at most a comment. -/
theorem opening_lead {c d : Char} {cs : List Char} (hd : Scan.isLead d = true)
    (hdash : ¬(c = '-' ∧ cs = [] ∧ d = '-')) (tail : List Char) :
    opening c (cs ++ d :: tail).head? = opening c cs.head? := by
  cases cs with
  | cons y cs => rfl
  | nil =>
    have hstar : d ≠ '*' := Scan.isLead.ne hd (by decide)
    exact opening_none (by simpa using hdash) (by simp [hstar])
      (by simp [Scan.isLead.not_isDigit hd])

/-- A lexeme that ends before a sign ends before what takes its place, or joins it, or
looks ahead through a name that does. -/
theorem scan_meets {x c d : Char} {cs tail : List Char} (hx : x ∈ Scan.signs)
    (hd : Scan.isLead d = true) (hdash : d = '-' → tail.head? = some '-')
    (h : (scan c (cs ++ [x])).extra ≤ cs.length) : Scan.Meets c (scan c) cs d tail := by
  by_cases hcomment : c = '-' ∧ cs = [] ∧ d = '-'
  · obtain ⟨rfl, rfl, rfl⟩ := hcomment
    exact Or.inr (Or.inl (by decide))
  have hordinary := Scan.isOrdinary_of_mem_signs x hx
  have hfits := opening_fits c cs.head?
  have hsign := scan_eq_opening c (cs ++ [x])
  have hlead := scan_eq_opening c (cs ++ d :: tail)
  have hshort := scan_eq_opening c cs
  rw [opening_sign hx] at hsign
  rw [opening_lead hd hcomment] at hlead
  generalize opening c cs.head? = o at hfits hsign hlead hshort
  suffices hread : Scan.Meets c (fun cs => o.scan c cs) cs d tail by
    unfold Scan.Meets at hread ⊢
    rw [hlead, hshort]
    exact hread
  rw [hsign] at h
  cases o with
  | lineFeed => exact Or.inl (Nat.zero_le _)
  | carriageReturn =>
    obtain rfl : c = '\r' := hfits
    cases cs with
    | nil =>
      by_cases hfeed : d = '\n'
      · exact Or.inr (Or.inl ⟨rfl, by simp [Lexeme.joins, hfeed]⟩)
      · left
        simp [Opening.scan, hfeed]
    | cons y cs =>
      left
      dsimp only [Opening.scan]
      split_ifs <;> simp
  | blank => exact Scan.blanks_meets
  | lineComment =>
    left
    dsimp only [Opening.scan] at h ⊢
    rw [Scan.lineComment_stops hordinary h]
    exact h
  | blockComment =>
    have hne : cs ≠ [] := by
      rintro rfl
      exact absurd hfits.2 (by simp)
    left
    dsimp only [Opening.scan] at h ⊢
    rw [Scan.blockComment_stops hordinary hne h]
    exact h
  | quote =>
    have hquote : c ∈ Scan.delimiters := by rcases hfits with rfl | rfl <;> decide
    have hne : d ≠ c := by
      rcases hfits with rfl | rfl <;> exact Scan.isLead.ne hd (by decide)
    left
    dsimp only [Opening.scan] at h ⊢
    rw [Scan.string_stops hordinary hquote h (by simpa using hne)]
    exact h
  | backtick =>
    left
    dsimp only [Opening.scan] at h ⊢
    rw [Scan.quotedName_stops hordinary h]
    exact h
  | sigil =>
    obtain rfl : c = '@' := hfits
    exact Scan.parameter_meets hd
  | digit => exact Scan.number_meets hd hdash
  | point => exact Scan.number_meets hd hdash
  | letter => exact Scan.word_meets hordinary hd hfits h
  | mark => exact Scan.punctuation_meets hd

namespace Lexeme.ReadBefore

variable {l : Lexeme} {after rest : List Char}

/-- What becomes of a lexeme where a sign behind it gives its place to another text. -/
theorem meets {x d : Char} {tail : List Char} (hx : x ∈ Scan.signs) (hd : Scan.isLead d = true)
    (hdash : d = '-' → tail.head? = some '-') (h : l.ReadBefore (after ++ x :: rest)) :
    l.ReadBefore (after ++ d :: tail) ∨ after = [] ∧ l.joins d = true ∨
      (l.chars = ['@'] ∨ l.chars = ['0']) ∧ (∃ e ∈ ['@', 'x', 'X'], after = [e]) ∧
        Text.isNameStart d = true := by
  rw [List.append_cons] at h
  obtain ⟨c, front, hchars, hscan⟩ := h.truncate
  rw [← List.append_assoc] at hscan
  have hle : (scan c (front ++ after ++ [x])).extra ≤ (front ++ after).length := by
    rw [hscan, List.length_append]
    exact Nat.le_add_right _ _
  have hmeets := @scan_meets x c d (front ++ after) tail hx hd hdash hle
  rw [scan_truncate hle] at hscan
  unfold Scan.Meets at hmeets
  rw [hscan] at hmeets
  rcases hmeets with hle' | ⟨hlength, hjoins⟩ | ⟨hzero, hc, hafter, hstart⟩
  · left
    refine ⟨c, front, hchars, ?_⟩
    rw [← List.append_assoc, scan_truncate hle', hscan]
  · obtain rfl : after = [] := by
      dsimp only at hlength
      rw [List.length_append] at hlength
      exact List.eq_nil_of_length_eq_zero (by omega)
    rw [List.append_nil, ← hchars] at hjoins
    exact Or.inr (Or.inl ⟨rfl, hjoins⟩)
  · obtain rfl : front = [] := List.eq_nil_of_length_eq_zero hzero
    refine Or.inr (Or.inr ⟨?_, hafter, hstart⟩)
    rcases hc with rfl | rfl <;> simp [hchars]

end Lexeme.ReadBefore
end QueryLint
