import QueryLint.Proofs.Token.Reach

/-!
# Cutting a text behind a lexeme

A lexeme stays what it is when the text is cut anywhere behind it
(`scan_truncate`): the look-ahead of a scan for the end of a comment, closing
quotes, a line feed, an exponent or an operator either finds what it looks for
inside the lexeme, or does not find it in the shorter text either.
-/
namespace QueryLint

namespace Text

theorem trimBlankEnd_append (cs ds : List Char) :
    trimBlankEnd (cs ++ ds) =
      if trimBlankEnd ds = [] then trimBlankEnd cs else cs ++ trimBlankEnd ds := by
  unfold trimBlankEnd
  rw [List.reverse_append, List.dropWhile_append]
  by_cases h : ds.reverse.dropWhile isBlank = []
  · simp [h]
  · simp [h]

end Text

namespace Scan

variable {cs ds : List Char}

theorem runLength_truncate {p : Char → Bool} (h : runLength p (cs ++ ds) ≤ cs.length) :
    runLength p (cs ++ ds) = runLength p cs := by
  unfold runLength at *
  rw [List.takeWhile_append] at *
  split_ifs at * with hall
  · simp only [List.length_append] at h ⊢
    omega
  · rfl

theorem openedRun_truncate {s p : Char → Bool} (h : openedRun s p (cs ++ ds) ≤ cs.length) :
    openedRun s p (cs ++ ds) = openedRun s p cs := by
  cases cs with
  | nil => exact Nat.le_zero.mp h
  | cons c cs =>
    by_cases hc : (c :: cs).head?.any s = true
    · have hc' : (c :: cs ++ ds).head?.any s = true := hc
      rw [openedRun_of_starts hc'] at h ⊢
      rw [openedRun_of_starts hc, runLength_truncate h]
    · have hc' : ¬(c :: cs ++ ds).head?.any s = true := hc
      rw [openedRun_of_not_starts hc, openedRun_of_not_starts hc']

theorem lineComment_truncate (h : (lineComment (cs ++ ds)).extra ≤ cs.length) :
    lineComment (cs ++ ds) = lineComment cs := by
  unfold lineComment at *
  dsimp only at h
  rw [List.takeWhile_append] at *
  split_ifs at * with hall
  · have hcs : cs.takeWhile (fun c => !Text.isLineBreak c) = cs :=
      (List.takeWhile_prefix _).eq_of_length hall
    rw [Text.trimBlankEnd_append] at *
    rw [hcs]
    split_ifs at * with hblank
    · rfl
    · have hpos := List.length_pos_iff.mpr hblank
      simp only [List.length_append] at h
      omega
  · rfl

theorem blockComment_truncate (hcs : cs ≠ []) (h : (blockComment (cs ++ ds)).extra ≤ cs.length) :
    blockComment (cs ++ ds) = blockComment cs := by
  obtain ⟨c, cs, rfl⟩ := List.exists_cons_of_ne_nil hcs
  unfold blockComment at *
  simp only [List.cons_append, List.drop_succ_cons, List.drop_zero] at *
  cases hclose : blockClose? (cs ++ ds) with
  | some n =>
    rw [hclose] at h
    have hn : n ≤ cs.length := by simpa using h
    rw [(blockClose?_append_eq_some_iff hn).mp hclose]
  | none =>
    rw [hclose] at h
    have hds : ds = [] := by
      apply List.eq_nil_of_length_eq_zero
      simp only [List.length_cons, List.length_append] at h
      omega
    subst hds
    rw [List.append_nil] at *
    rw [hclose]

section Literals

variable {quote : Char} {escapes : Bool}

theorem single_eq_of_zero (h : (single quote escapes cs).2 = 0) :
    single quote escapes cs = (false, 0) := by
  revert h
  fun_cases single quote escapes cs <;> simp

theorem single_truncate (h : (single quote escapes (cs ++ ds)).2 ≤ cs.length) :
    single quote escapes (cs ++ ds) = single quote escapes cs := by
  fun_induction single quote escapes cs with
  | case1 => exact single_eq_of_zero (Nat.le_zero.mp h)
  | case2 c cs hc => rw [List.cons_append, single_of_lineBreak hc]
  | case3 cs hc => rw [List.cons_append, single_of_quote hc]
  | case4 c hc hq he =>
    cases ds with
    | nil => rw [List.append_nil, single_of_escape_nil hc hq he]
    | cons d ds =>
      by_cases hd : Text.isLineBreak d = true
      · exact single_of_escape_lineBreak hc hq he hd
      · rw [List.cons_append, List.nil_append, single_of_escape hc hq he hd] at h
        simp at h
  | case5 c hc hq he d cs hd =>
    rw [List.cons_append, List.cons_append, single_of_escape_lineBreak hc hq he hd]
  | case6 c hc hq he d cs hd r ih =>
    rw [List.cons_append, List.cons_append, single_of_escape hc hq he hd] at h ⊢
    rw [ih (by simpa using h)]
    rfl
  | case7 c cs hc hq he r ih =>
    rw [List.cons_append, single_of_plain hc hq he] at h ⊢
    rw [ih (by simpa using h)]
    rfl

theorem isPrefixOf_pair_append {c : Char} (h : [c, c].isPrefixOf cs = true) :
    [c, c].isPrefixOf (cs ++ ds) = true :=
  List.isPrefixOf_iff_prefix.mpr ((List.isPrefixOf_iff_prefix.mp h).trans (List.prefix_append _ _))

theorem isPrefixOf_pair_truncate {c : Char} (h : [c, c].isPrefixOf (cs ++ ds) = true)
    (hcs : 2 ≤ cs.length) : [c, c].isPrefixOf cs = true :=
  List.isPrefixOf_iff_prefix.mpr
    (List.prefix_of_prefix_length_le (List.isPrefixOf_iff_prefix.mp h) (List.prefix_append _ _) hcs)

theorem not_closed_append {c : Char} (hc : ¬(c = quote ∧ [quote, quote].isPrefixOf cs = true))
    (h : (triple quote escapes (c :: (cs ++ ds))).2 ≤ cs.length + 1) :
    ¬(c = quote ∧ [quote, quote].isPrefixOf (cs ++ ds) = true) := by
  rintro ⟨rfl, hclose⟩
  rw [triple_of_close hclose] at h
  exact hc ⟨rfl, isPrefixOf_pair_truncate hclose (by omega)⟩

theorem triple_pos (h : cs ≠ []) : 0 < (triple quote escapes cs).2 := by
  fun_cases triple quote escapes cs <;> simp_all

theorem triple_truncate (h : (triple quote escapes (cs ++ ds)).2 ≤ cs.length) :
    triple quote escapes (cs ++ ds) = triple quote escapes cs := by
  fun_induction triple quote escapes cs with
  | case1 =>
    cases ds with
    | nil => rw [List.append_nil, triple]
    | cons d ds => exact absurd (triple_pos (List.cons_ne_nil d ds)) (Nat.not_lt.mpr h)
  | case2 c cs hc =>
    obtain ⟨rfl, hc⟩ := hc
    exact triple_of_close (isPrefixOf_pair_append hc)
  | case3 c he hc =>
    cases ds with
    | nil => exact triple_of_escape_nil he
    | cons d ds =>
      have hd := not_closed_append hc h
      rw [List.cons_append, List.nil_append, triple_of_escape hd he] at h
      simp at h
  | case4 c he d cs r hc ih =>
    have hd := not_closed_append hc h
    rw [List.cons_append] at hd
    rw [List.cons_append, List.cons_append, triple_of_escape hd he] at h ⊢
    rw [ih (by simpa using h)]
    rfl
  | case5 c cs hc he r ih =>
    have hd := not_closed_append hc h
    rw [List.cons_append, triple_of_plain hd he] at h ⊢
    rw [ih (by simpa using h)]
    rfl

theorem string_truncate (h : (string quote escapes (cs ++ ds)).extra ≤ cs.length) :
    string quote escapes (cs ++ ds) = string quote escapes cs := by
  unfold string at *
  by_cases hopen : [quote, quote].isPrefixOf (cs ++ ds) = true
  · rw [if_pos hopen] at h ⊢
    dsimp only at h ⊢
    have hlen : 2 ≤ cs.length := by omega
    rw [List.drop_append_of_le_length hlen] at h ⊢
    rw [if_pos (isPrefixOf_pair_truncate hopen hlen), triple_truncate]
    simp only [List.length_drop]
    omega
  · rw [if_neg hopen] at h ⊢
    have hopen' : ¬[quote, quote].isPrefixOf cs = true :=
      fun h' => hopen (isPrefixOf_pair_append h')
    rw [if_neg hopen', single_truncate h]

theorem quotedName_truncate (h : (quotedName (cs ++ ds)).extra ≤ cs.length) :
    quotedName (cs ++ ds) = quotedName cs := by
  unfold quotedName at *
  rw [single_truncate h]

end Literals

theorem parameterName_truncate {sigils : Nat}
    (h : (parameterName sigils (cs ++ ds)).extra ≤ sigils + cs.length) :
    parameterName sigils (cs ++ ds) = parameterName sigils cs := by
  have hrun : openedRun Text.isNameStart Text.isNamePart (cs ++ ds) ≤ cs.length := by
    unfold parameterName at h
    dsimp only at h
    split_ifs at h with hzero
    · omega
    · simpa using h
  unfold parameterName
  rw [openedRun_truncate hrun]

theorem parameter_truncate (h : (parameter (cs ++ ds)).extra ≤ cs.length) :
    parameter (cs ++ ds) = parameter cs := by
  cases cs with
  | nil =>
    rw [List.nil_append] at *
    by_cases hsigil : ds.head? = some '@'
    · obtain ⟨ds, rfl⟩ := List.head?_eq_some_iff.mp hsigil
      rw [parameter_sigil] at *
      exact @parameterName_truncate [] ds 1 (Nat.le_succ_of_le h)
    · rw [parameter_of_ne hsigil] at *
      exact @parameterName_truncate [] ds 0 h
  | cons c cs =>
    by_cases hsigil : c = '@'
    · subst hsigil
      rw [List.cons_append, parameter_sigil] at *
      rw [parameter_sigil, parameterName_truncate (by simpa [Nat.add_comm] using h)]
    · have hne : (c :: cs).head? ≠ some '@' := by simpa using hsigil
      have hne' : (c :: cs ++ ds).head? ≠ some '@' := by simpa using hsigil
      rw [parameter_of_ne hne'] at *
      rw [parameter_of_ne hne, parameterName_truncate (by simpa using h)]

theorem exponentDigits_truncate {lead : Nat}
    (h : exponentDigits lead (cs ++ ds) ≤ lead + cs.length) :
    exponentDigits lead (cs ++ ds) = exponentDigits lead cs := by
  have hrun : openedRun Char.isDigit Char.isDigit (cs ++ ds) ≤ cs.length := by
    unfold exponentDigits at h
    dsimp only at h
    split_ifs at h <;> omega
  unfold exponentDigits
  rw [openedRun_truncate hrun]

theorem exponentDigits_eq_zero {lead : Nat} (h : exponentDigits lead cs ≤ lead) :
    exponentDigits lead cs = 0 := by
  unfold exponentDigits at *
  dsimp only at *
  split_ifs at h ⊢ <;> omega

theorem exponentLength_truncate (h : exponentLength (cs ++ ds) ≤ cs.length) :
    exponentLength (cs ++ ds) = exponentLength cs := by
  cases cs with
  | nil => exact Nat.le_zero.mp h
  | cons e cs =>
    rw [List.cons_append] at h ⊢
    simp only [List.length_cons] at h
    by_cases he : e = 'e' ∨ e = 'E'
    · by_cases hsign : ∃ sign ∈ (cs ++ ds).head?, sign = '+' ∨ sign = '-'
      · obtain ⟨sign, hhead, hsign⟩ := hsign
        cases cs with
        | nil =>
          obtain ⟨ds, rfl⟩ := List.head?_eq_some_iff.mp hhead
          rw [List.nil_append, exponentLength_sign he hsign] at h ⊢
          rw [exponentDigits_eq_zero (Nat.le_succ_of_le h)]
          simp [exponentLength]
        | cons x cs =>
          obtain rfl : x = sign := by simpa using hhead
          rw [List.cons_append, exponentLength_sign he hsign] at h ⊢
          rw [exponentLength_sign he hsign, exponentDigits_truncate]
          simp only [List.length_cons] at h
          omega
      · have hsign' : ∀ sign ∈ (cs ++ ds).head?, ¬(sign = '+' ∨ sign = '-') :=
          fun sign hhead h => hsign ⟨sign, hhead, h⟩
        rw [exponentLength_digits he hsign'] at h ⊢
        rw [exponentDigits_truncate (by omega), exponentLength_digits he]
        intro sign hhead
        exact hsign' sign (by simp_all [List.head?_append])
    · rw [exponentLength_of_ne he, exponentLength_of_ne he]

theorem fractionLength_truncate (h : fractionLength (cs ++ ds) ≤ cs.length) :
    fractionLength (cs ++ ds) = fractionLength cs := by
  cases cs with
  | nil => exact Nat.le_zero.mp h
  | cons c cs =>
    simp only [List.cons_append, fractionLength] at h ⊢
    split_ifs at h ⊢
    · rw [runLength_truncate (by simp only [List.length_cons] at h; omega)]
    · rfl

theorem mantissaLength_truncate {c : Char} (h : mantissaLength c (cs ++ ds) ≤ cs.length) :
    mantissaLength c (cs ++ ds) = mantissaLength c cs := by
  unfold mantissaLength at h ⊢
  dsimp only at h ⊢
  have hdigits : runLength Char.isDigit (cs ++ ds) ≤ cs.length := by
    split_ifs at h <;> omega
  have hrun := runLength_truncate hdigits
  rw [hrun] at h hdigits ⊢
  rw [List.drop_append_of_le_length hdigits] at h ⊢
  split_ifs at h ⊢
  · rfl
  · rw [fractionLength_truncate]
    simp only [List.length_drop]
    omega

theorem decimal_truncate {c : Char} (h : (decimal c (cs ++ ds)).extra ≤ cs.length) :
    decimal c (cs ++ ds) = decimal c cs := by
  unfold decimal at *
  dsimp only at h
  have hmantissa : mantissaLength c (cs ++ ds) ≤ cs.length := by omega
  have hlength := mantissaLength_truncate hmantissa
  rw [hlength] at h hmantissa ⊢
  rw [List.drop_append_of_le_length hmantissa] at h ⊢
  rw [exponentLength_truncate]
  simp only [List.length_drop]
  omega

theorem number_truncate {c : Char} (h : (number c (cs ++ ds)).extra ≤ cs.length) :
    number c (cs ++ ds) = number c cs := by
  cases cs with
  | nil =>
    rw [number_nil, List.nil_append] at *
    cases ds with
    | nil => exact number_nil c
    | cons x ds =>
      rw [number_cons] at h ⊢
      split_ifs at h ⊢
      · simp at h
      · exact @decimal_truncate [] (x :: ds) c h
  | cons x cs =>
    rw [List.cons_append, number_cons] at h ⊢
    rw [number_cons]
    by_cases hmark : c = '0' ∧ (x = 'x' ∨ x = 'X')
    · have hle : openedRun Lexer.isHexDigit Lexer.isHexDigit (cs ++ ds) ≤ cs.length := by
        by_cases hzero : openedRun Lexer.isHexDigit Lexer.isHexDigit (cs ++ ds) = 0
        · omega
        · rw [if_pos ⟨hmark, hzero⟩, List.length_cons] at h
          dsimp only at h
          omega
      rw [openedRun_truncate hle] at h ⊢
      split_ifs at h ⊢
      · rfl
      · exact @decimal_truncate (x :: cs) ds c h
    · rw [if_neg fun h => hmark h.1] at h ⊢
      rw [if_neg fun h => hmark h.1]
      exact @decimal_truncate (x :: cs) ds c h

theorem wordBefore_truncate {word : List Char} {extra : Nat}
    (h : (wordBefore word extra (cs ++ ds)).extra ≤ extra + cs.length) :
    wordBefore word extra (cs ++ ds) = wordBefore word extra cs := by
  by_cases hmark : ∃ quote ∈ (cs ++ ds).head?, Marks word quote
  · obtain ⟨quote, hhead, hmark⟩ := hmark
    cases cs with
    | nil =>
      obtain ⟨ds, rfl⟩ := List.head?_eq_some_iff.mp hhead
      rw [List.nil_append, wordBefore_marked hmark] at h
      simp only [markedLiteral, List.length_nil] at h
      omega
    | cons x cs =>
      obtain rfl : x = quote := by simpa using hhead
      rw [List.cons_append, wordBefore_marked hmark] at h ⊢
      rw [wordBefore_marked hmark]
      unfold markedLiteral at h ⊢
      simp only [List.length_cons] at h
      rw [string_truncate (by omega)]
  · have hplain : ∀ quote ∈ (cs ++ ds).head?, ¬Marks word quote :=
      fun quote hhead hq => hmark ⟨quote, hhead, hq⟩
    rw [wordBefore_plain hplain, wordBefore_plain]
    intro quote hhead
    exact hplain quote (by simp_all [List.head?_append])

theorem word_truncate {c : Char} (h : (word c (cs ++ ds)).extra ≤ cs.length) :
    word c (cs ++ ds) = word c cs := by
  rw [word_eq] at h ⊢
  have hrun := Nat.le_trans (wordBefore_le _ _ _).1 h
  have hlength := runLength_truncate hrun
  rw [hlength] at h hrun ⊢
  rw [List.drop_append_of_le_length hrun, List.take_append_of_le_length hrun] at h ⊢
  rw [wordBefore_truncate, word_eq]
  simp only [List.length_drop]
  omega

theorem punctuation_truncate {c : Char} (h : (punctuation c (cs ++ ds)).extra ≤ cs.length) :
    punctuation c (cs ++ ds) = punctuation c cs := by
  cases cs with
  | cons d cs => rfl
  | nil =>
    rw [List.nil_append] at h ⊢
    unfold punctuation at h ⊢
    by_cases hop : ds.head?.any (fun d => Lexer.operators.contains (c, d)) = true
    · rw [if_pos hop] at h
      simp at h
    · rw [if_neg hop]
      simp

end Scan

namespace Scan

theorem lineComment_cons {c : Char} (h : Text.isBlank c = false) (cs : List Char) :
    lineComment (c :: cs) = ⟨.comment, (lineComment cs).extra + 1⟩ := by
  have hc : Text.isLineBreak c = false := Text.not_isLineBreak_of_not_isBlank h
  have hline : (c :: cs).takeWhile (fun c => !Text.isLineBreak c) =
      [c] ++ cs.takeWhile (fun c => !Text.isLineBreak c) := by
    simp [hc]
  have hone : Text.trimBlankEnd [c] = [c] := by
    simp [Text.trimBlankEnd, h]
  unfold lineComment
  rw [hline, Text.trimBlankEnd_append, hone]
  split_ifs with hnil
  · simp [hnil]
  · simp [Nat.add_comm]

theorem lineComment_pos {c : Char} (h : Text.isBlank c = false) (cs : List Char) :
    0 < (lineComment (c :: cs)).extra := by
  rw [lineComment_cons h]
  exact Nat.succ_pos _

theorem blockComment_pos (c : Char) (cs : List Char) : 0 < (blockComment (c :: cs)).extra := by
  unfold blockComment
  split <;> simp

theorem number_point_pos {d : Char} (h : d.isDigit = true) (cs : List Char) :
    0 < (number '.' (d :: cs)).extra := by
  rw [number_cons, if_neg (by simp)]
  have hpos : 0 < mantissaLength '.' (d :: cs) := by
    simp [mantissaLength, runLength, h]
  unfold decimal
  dsimp only
  omega

end Scan

/-- The openings that need a second character read it. -/
theorem opening_truncate {c : Char} {cs ds : List Char}
    (h : (scan c (cs ++ ds)).extra ≤ cs.length) :
    opening c (cs ++ ds).head? = opening c cs.head? := by
  cases cs with
  | cons x cs => rfl
  | nil =>
    rw [List.nil_append] at h ⊢
    have hzero : ¬0 < (scan c ds).extra := Nat.not_lt.mpr h
    rw [scan_eq_opening] at hzero
    refine opening_none ?_ ?_ ?_
    · rintro ⟨rfl, hhead⟩
      obtain ⟨ds, rfl⟩ := List.head?_eq_some_iff.mp hhead
      exact hzero (Scan.lineComment_pos (by decide) ds)
    · rintro ⟨rfl, hhead⟩
      obtain ⟨ds, rfl⟩ := List.head?_eq_some_iff.mp hhead
      exact hzero (Scan.blockComment_pos '*' ds)
    · rintro ⟨rfl, hhead⟩
      rw [opening_point hhead] at hzero
      cases ds with
      | nil => simp at hhead
      | cons d ds => exact hzero (Scan.number_point_pos (by simpa using hhead) ds)

/-- A lexeme that lies in the beginning `cs` of a text is a lexeme of `cs`. -/
theorem scan_truncate {c : Char} {cs ds : List Char} (h : (scan c (cs ++ ds)).extra ≤ cs.length) :
    scan c (cs ++ ds) = scan c cs := by
  have hopening := opening_truncate h
  rw [scan_eq_opening, hopening] at h ⊢
  rw [scan_eq_opening]
  have hfits := opening_fits c cs.head?
  generalize opening c cs.head? = o at hfits h ⊢
  cases o with
  | lineFeed => rfl
  | carriageReturn =>
    cases cs with
    | cons x cs => rfl
    | nil =>
      dsimp only [Opening.scan] at h ⊢
      rw [List.nil_append] at h ⊢
      by_cases hfeed : ds.head? = some '\n'
      · rw [if_pos hfeed] at h
        simp at h
      · rw [if_neg hfeed]
        rfl
  | blank =>
    dsimp only [Opening.scan] at h ⊢
    rw [Scan.runLength_truncate h]
  | lineComment => exact Scan.lineComment_truncate h
  | blockComment =>
    refine Scan.blockComment_truncate ?_ h
    rintro rfl
    simp [Opening.Fits] at hfits
  | quote => exact Scan.string_truncate h
  | backtick => exact Scan.quotedName_truncate h
  | sigil => exact Scan.parameter_truncate h
  | digit => exact Scan.number_truncate h
  | point => exact Scan.number_truncate h
  | letter => exact Scan.word_truncate h
  | mark => exact Scan.punctuation_truncate h

end QueryLint
