import QueryLint.Proofs.Token.Truncate

/-!
# Text that settles a lexeme

A lexeme that ends before the end of a text may still change when the text goes
on: `1e` holds the number `1`, and `1e5` does not. The characters that a scan
looks through for more are few: exponent and hexadecimal letters, signs, a
second `@`, and blanks behind a comment. Any other character settles every
lexeme that ends before it, whatever follows that character, and so do the two
dashes of a comment, since a sign belongs to an exponent only if a digit follows
(`settling_of_settles`, `settling_dashes`).
-/
namespace QueryLint
namespace Scan

/-- A character that no scan looks past once its lexeme has ended. -/
def settles (d : Char) : Bool :=
  !Text.isInlineBlank d && !(['e', 'E', 'x', 'X', '+', '-', '@'].contains d)

variable {cs ds : List Char}

theorem runLength_extend {p : Char → Bool} (h : runLength p cs < cs.length) :
    runLength p (cs ++ ds) = runLength p cs := by
  unfold runLength at *
  rw [List.takeWhile_append, if_neg (Nat.ne_of_lt h)]

theorem openedRun_extend {s p : Char → Bool} (h : openedRun s p cs < cs.length) :
    openedRun s p (cs ++ ds) = openedRun s p cs := by
  cases cs with
  | nil => simp at h
  | cons c cs =>
    by_cases hc : (c :: cs).head?.any s = true
    · have hc' : (c :: cs ++ ds).head?.any s = true := hc
      rw [openedRun_of_starts hc] at h ⊢
      rw [openedRun_of_starts hc', runLength_extend h]
    · have hc' : ¬(c :: cs ++ ds).head?.any s = true := hc
      rw [openedRun_of_not_starts hc, openedRun_of_not_starts hc']

theorem lineComment_extend {d : Char} (hd : Text.isInlineBlank d = false)
    (h : (lineComment (cs ++ [d])).extra ≤ cs.length) :
    lineComment (cs ++ [d] ++ ds) = lineComment (cs ++ [d]) := by
  unfold lineComment at *
  dsimp only at h
  by_cases hline : ((cs ++ [d]).takeWhile fun c => !Text.isLineBreak c).length = (cs ++ [d]).length
  · have hall := (List.takeWhile_prefix _).eq_of_length hline
    have hbreak : Text.isLineBreak d = false := by
      simpa using List.takeWhile_eq_self_iff.mp hall d (by simp)
    have hblank : Text.isBlank d = false := by simpa [Text.isInlineBlank, hbreak] using hd
    have htrim : Text.trimBlankEnd (cs ++ [d]) = cs ++ [d] := by simp [Text.trimBlankEnd, hblank]
    rw [hall, htrim, List.length_append, List.length_singleton] at h
    omega
  · rw [List.takeWhile_append, if_neg hline]

theorem blockClose?_extend {n : Nat} (h : blockClose? cs = some n) :
    blockClose? (cs ++ ds) = some n :=
  (blockClose?_append_eq_some_iff (blockClose?_le h).2).mpr h

theorem blockComment_extend (h : (blockComment cs).extra < cs.length) :
    blockComment (cs ++ ds) = blockComment cs := by
  cases cs with
  | nil => simp at h
  | cons c cs =>
    unfold blockComment at *
    simp only [List.cons_append, List.drop_succ_cons, List.drop_zero] at *
    cases hclose : blockClose? cs with
    | some n => rw [blockClose?_extend hclose]
    | none =>
      rw [hclose] at h
      simp at h

section Literals

variable {quote : Char} {escapes : Bool}

theorem single_extend (h : (single quote escapes cs).2 < cs.length) :
    single quote escapes (cs ++ ds) = single quote escapes cs := by
  fun_induction single quote escapes cs with
  | case1 => simp at h
  | case2 c cs hc => rw [List.cons_append, single_of_lineBreak hc]
  | case3 cs hc => rw [List.cons_append, single_of_quote hc]
  | case4 c hc hq he => simp at h
  | case5 c hc hq he d cs hd =>
    rw [List.cons_append, List.cons_append, single_of_escape_lineBreak hc hq he hd]
  | case6 c hc hq he d cs hd r ih =>
    rw [List.cons_append, List.cons_append, single_of_escape hc hq he hd, ih (by simpa using h)]
    rfl
  | case7 c cs hc hq he r ih =>
    rw [List.cons_append, single_of_plain hc hq he, ih (by simpa using h)]
    rfl

theorem not_closed_extend {c : Char} (hc : ¬(c = quote ∧ [quote, quote].isPrefixOf cs = true))
    (h : 2 ≤ cs.length) : ¬(c = quote ∧ [quote, quote].isPrefixOf (cs ++ ds) = true) :=
  fun hclose => hc ⟨hclose.1, isPrefixOf_pair_truncate hclose.2 h⟩

theorem length_of_triple_closed (h : (triple quote escapes cs).1 = true) : 3 ≤ cs.length := by
  fun_induction triple quote escapes cs with
  | case1 => simp at h
  | case2 c cs hc =>
    have hlen := length_of_isPrefixOf_pair hc.2
    simp only [List.length_cons]
    omega
  | case3 => simp at h
  | case4 c he d cs r hc ih =>
    have hlen := ih h
    simp only [List.length_cons]
    omega
  | case5 c cs hc he r ih => exact Nat.le_succ_of_le (ih h)

theorem triple_extend (h : (triple quote escapes cs).1 = true) :
    triple quote escapes (cs ++ ds) = triple quote escapes cs := by
  fun_induction triple quote escapes cs with
  | case1 => simp at h
  | case2 c cs hc =>
    obtain ⟨rfl, hc⟩ := hc
    exact triple_of_close (isPrefixOf_pair_append hc)
  | case3 c he hc => simp at h
  | case4 c he d cs r hc ih =>
    have hlen := length_of_triple_closed h
    have hd := @not_closed_extend (d :: cs) ds quote c hc (by simp only [List.length_cons]; omega)
    rw [List.cons_append] at hd
    rw [List.cons_append, List.cons_append, triple_of_escape hd he, ih h]
    rfl
  | case5 c cs hc he r ih =>
    have hlen := length_of_triple_closed h
    have hd := @not_closed_extend cs ds quote c hc (by omega)
    rw [List.cons_append, triple_of_plain hd he, ih h]
    rfl

theorem string_extend (hquote : Text.isLineBreak quote = false)
    (h : (string quote escapes cs).extra < cs.length) :
    string quote escapes (cs ++ ds) = string quote escapes cs := by
  unfold string at *
  by_cases hopen : [quote, quote].isPrefixOf cs = true
  · have hlen := length_of_isPrefixOf_pair hopen
    rw [if_pos hopen] at h ⊢
    dsimp only at h ⊢
    have hclosed : (triple quote escapes (cs.drop 2)).1 = true := by
      by_contra hleft
      have hreach := triple_open (Bool.eq_false_iff.mpr hleft)
      rw [List.length_drop] at hreach
      omega
    rw [if_pos (isPrefixOf_pair_append hopen), List.drop_append_of_le_length hlen,
      triple_extend hclosed]
  · rw [if_neg hopen] at h ⊢
    have hopen' : ¬[quote, quote].isPrefixOf (cs ++ ds) = true := by
      intro hlonger
      match cs with
      | [] => simp at h
      | [c] =>
        obtain ⟨rfl, -⟩ : quote = c ∧ _ := by simpa using hlonger
        rw [single_of_quote (by simp [hquote])] at h
        simp at h
      | c :: d :: cs => exact hopen (isPrefixOf_pair_truncate hlonger (by simp))
    rw [if_neg hopen', single_extend h]

theorem quotedName_extend (h : (quotedName cs).extra < cs.length) :
    quotedName (cs ++ ds) = quotedName cs := by
  unfold quotedName at *
  rw [single_extend h]

end Literals

theorem parameterName_extend {sigils : Nat} (hname : cs ≠ [])
    (h : (parameterName sigils cs).extra < sigils + cs.length) :
    parameterName sigils (cs ++ ds) = parameterName sigils cs := by
  have hrun : openedRun Text.isNameStart Text.isNamePart cs < cs.length := by
    unfold parameterName at h
    dsimp only at h
    split_ifs at h with hzero
    · have := List.length_pos_iff.mpr hname
      omega
    · simpa using h
  unfold parameterName
  rw [openedRun_extend hrun]

theorem parameter_extend {d : Char} (hd : d ≠ '@') (h : (parameter (cs ++ [d])).extra ≤ cs.length) :
    parameter (cs ++ [d] ++ ds) = parameter (cs ++ [d]) := by
  by_cases hsigil : cs.head? = some '@'
  · obtain ⟨cs, rfl⟩ := List.head?_eq_some_iff.mp hsigil
    rw [List.cons_append, parameter_sigil] at h
    rw [List.cons_append, List.cons_append, parameter_sigil, parameter_sigil,
      parameterName_extend (by simp)]
    simp only [List.length_cons, List.length_append, List.length_nil] at h ⊢
    omega
  · have hhead : (cs ++ [d]).head? ≠ some '@' := by
      cases cs with
      | nil => simpa using hd
      | cons c cs => simpa using hsigil
    have hhead' : (cs ++ [d] ++ ds).head? ≠ some '@' := by
      cases cs with
      | nil => simpa using hd
      | cons c cs => simpa using hsigil
    rw [parameter_of_ne hhead] at h
    rw [parameter_of_ne hhead, parameter_of_ne hhead', parameterName_extend (by simp)]
    simp only [List.length_append, List.length_cons, List.length_nil]
    omega

theorem exponentDigits_extend {lead : Nat} (hcs : cs ≠ [])
    (h : exponentDigits lead cs < lead + cs.length) :
    exponentDigits lead (cs ++ ds) = exponentDigits lead cs := by
  have hrun : openedRun Char.isDigit Char.isDigit cs < cs.length := by
    have := List.length_pos_iff.mpr hcs
    unfold exponentDigits at h
    dsimp only at h
    split_ifs at h <;> omega
  unfold exponentDigits
  rw [openedRun_extend hrun]

theorem exponentLength_extend {d : Char} (he : ¬(d = 'e' ∨ d = 'E'))
    (hs : ∀ e ∈ cs.getLast?, e = 'e' ∨ e = 'E' → ¬(d = '+' ∨ d = '-'))
    (h : exponentLength (cs ++ [d]) ≤ cs.length) :
    exponentLength (cs ++ [d] ++ ds) = exponentLength (cs ++ [d]) := by
  cases cs with
  | nil => exact (exponentLength_of_ne he _).trans (exponentLength_of_ne he _).symm
  | cons e cs =>
    rw [List.cons_append] at h
    rw [List.cons_append, List.cons_append]
    simp only [List.length_cons] at h
    by_cases he : e = 'e' ∨ e = 'E'
    · by_cases hsign : ∃ sign ∈ cs.head?, sign = '+' ∨ sign = '-'
      · obtain ⟨sign, hhead, hsign⟩ := hsign
        obtain ⟨cs, rfl⟩ := List.head?_eq_some_iff.mp hhead
        rw [List.cons_append, exponentLength_sign he hsign] at h
        rw [List.cons_append, List.cons_append, exponentLength_sign he hsign,
          exponentLength_sign he hsign, exponentDigits_extend (by simp)]
        simp only [List.length_cons, List.length_append, List.length_nil] at h ⊢
        omega
      · have hplain : ∀ zs, ∀ sign ∈ (cs ++ [d] ++ zs).head?, ¬(sign = '+' ∨ sign = '-') := by
          intro zs sign hhead
          cases cs with
          | nil =>
            obtain rfl : d = sign := by simpa using hhead
            exact hs e rfl he
          | cons x cs =>
            obtain rfl : x = sign := by simpa using hhead
            exact fun hx => hsign ⟨x, rfl, hx⟩
        have hplain' := hplain []
        rw [List.append_nil] at hplain'
        rw [exponentLength_digits he hplain'] at h
        rw [exponentLength_digits he hplain', exponentLength_digits he (hplain ds),
          exponentDigits_extend (by simp)]
        simp only [List.length_append, List.length_cons, List.length_nil]
        omega
    · rw [exponentLength_of_ne he, exponentLength_of_ne he]

theorem fractionLength_extend (h : fractionLength cs < cs.length) :
    fractionLength (cs ++ ds) = fractionLength cs := by
  cases cs with
  | nil => simp at h
  | cons c cs =>
    simp only [List.cons_append, fractionLength] at h ⊢
    split_ifs at h ⊢
    · rw [runLength_extend (by simp only [List.length_cons] at h; omega)]
    · rfl

theorem mantissaLength_extend {c : Char} (h : mantissaLength c cs < cs.length) :
    mantissaLength c (cs ++ ds) = mantissaLength c cs := by
  unfold mantissaLength at h ⊢
  dsimp only at h ⊢
  have hdigits : runLength Char.isDigit cs < cs.length := by
    split_ifs at h <;> omega
  rw [runLength_extend hdigits, List.drop_append_of_le_length hdigits.le]
  split_ifs at h ⊢
  · rfl
  · rw [fractionLength_extend]
    simp only [List.length_drop]
    omega

theorem decimal_extend {c d : Char} (he : ¬(d = 'e' ∨ d = 'E'))
    (hs : ∀ e ∈ cs.getLast?, e = 'e' ∨ e = 'E' → ¬(d = '+' ∨ d = '-'))
    (h : (decimal c (cs ++ [d])).extra ≤ cs.length) :
    decimal c (cs ++ [d] ++ ds) = decimal c (cs ++ [d]) := by
  unfold decimal at *
  dsimp only at h
  have hle : mantissaLength c (cs ++ [d]) ≤ cs.length := by omega
  have hlength : mantissaLength c (cs ++ [d] ++ ds) = mantissaLength c (cs ++ [d]) :=
    mantissaLength_extend (by simp only [List.length_append, List.length_singleton]; omega)
  rw [hlength, List.append_assoc, List.drop_append_of_le_length hle,
    List.drop_append_of_le_length hle, ← List.append_assoc]
  rw [List.drop_append_of_le_length hle] at h
  have hs' : ∀ e ∈ (cs.drop (mantissaLength c (cs ++ [d]))).getLast?,
      e = 'e' ∨ e = 'E' → ¬(d = '+' ∨ d = '-') := by
    intro e hlast
    rw [List.getLast?_drop] at hlast
    split_ifs at hlast
    · simp at hlast
    · exact hs e hlast
  rw [exponentLength_extend he hs']
  simp only [List.length_drop]
  omega

theorem number_extend {c d : Char} (hx : ¬(d = 'x' ∨ d = 'X')) (he : ¬(d = 'e' ∨ d = 'E'))
    (hs : ∀ e ∈ cs.getLast?, e = 'e' ∨ e = 'E' → ¬(d = '+' ∨ d = '-'))
    (h : (number c (cs ++ [d])).extra ≤ cs.length) :
    number c (cs ++ [d] ++ ds) = number c (cs ++ [d]) := by
  cases cs with
  | nil =>
    rw [List.nil_append, number_cons, if_neg fun hmark => hx hmark.1.2] at h
    rw [List.nil_append, List.cons_append, number_cons, number_cons,
      if_neg fun hmark => hx hmark.1.2, if_neg fun hmark => hx hmark.1.2]
    exact @decimal_extend [] ds c d he hs h
  | cons x cs =>
    rw [List.cons_append, number_cons] at h
    rw [List.cons_append, List.cons_append, number_cons, number_cons]
    by_cases hmark : c = '0' ∧ (x = 'x' ∨ x = 'X')
    · have hlt : openedRun Lexer.isHexDigit Lexer.isHexDigit (cs ++ [d]) < (cs ++ [d]).length := by
        simp only [List.length_append, List.length_cons, List.length_nil] at h ⊢
        by_cases hzero : openedRun Lexer.isHexDigit Lexer.isHexDigit (cs ++ [d]) = 0
        · omega
        · rw [if_pos ⟨hmark, hzero⟩] at h
          dsimp only at h
          omega
      rw [openedRun_extend hlt]
      split_ifs at h ⊢
      · rfl
      · exact @decimal_extend (x :: cs) ds c d he hs h
    · rw [if_neg fun h => hmark h.1] at h
      rw [if_neg fun h => hmark h.1, if_neg fun h => hmark h.1]
      exact @decimal_extend (x :: cs) ds c d he hs h

theorem wordBefore_extend {word : List Char} {extra : Nat} (hcs : cs ≠ [])
    (h : (wordBefore word extra cs).extra < extra + cs.length) :
    wordBefore word extra (cs ++ ds) = wordBefore word extra cs := by
  obtain ⟨quote, cs, rfl⟩ := List.exists_cons_of_ne_nil hcs
  by_cases hmark : Marks word quote
  · have hquote : Text.isLineBreak quote = false := by
      rcases hmark.1 with rfl | rfl <;> decide
    rw [wordBefore_marked hmark] at h
    rw [List.cons_append, wordBefore_marked hmark, wordBefore_marked hmark]
    unfold markedLiteral at h ⊢
    simp only [List.length_cons] at h
    rw [string_extend hquote (by omega)]
  · rw [wordBefore_plain (by simpa using hmark), wordBefore_plain (by simpa using hmark)]

theorem word_extend {c : Char} (h : (word c cs).extra < cs.length) :
    word c (cs ++ ds) = word c cs := by
  rw [word_eq] at h
  have hrun := Nat.lt_of_le_of_lt (wordBefore_le _ _ _).1 h
  have hle := Nat.le_of_lt hrun
  rw [word_eq, word_eq, runLength_extend hrun, List.drop_append_of_le_length hle,
    List.take_append_of_le_length hle, wordBefore_extend]
  · intro hnil
    have := List.drop_eq_nil_iff.mp hnil
    omega
  · simp only [List.length_drop]
    omega

end Scan

/-- A lexeme that ends before a settling character stays what it is, whatever
follows that character. A sign settles it too, if it stands behind no exponent
letter. -/
theorem scan_extend {c d : Char} {cs : List Char} (hblank : Text.isInlineBlank d = false)
    (hlook : d ∉ ['e', 'E', 'x', 'X', '@'])
    (hs : ∀ e ∈ cs.getLast?, e = 'e' ∨ e = 'E' → ¬(d = '+' ∨ d = '-'))
    (h : (scan c (cs ++ [d])).extra ≤ cs.length) (ds : List Char) :
    scan c (cs ++ [d] ++ ds) = scan c (cs ++ [d]) := by
  have hx : ¬(d = 'x' ∨ d = 'X') := by rintro (rfl | rfl) <;> simp at hlook
  have he : ¬(d = 'e' ∨ d = 'E') := by rintro (rfl | rfl) <;> simp at hlook
  have hsigil : d ≠ '@' := by rintro rfl; simp at hlook
  have hlt : (scan c (cs ++ [d])).extra < (cs ++ [d]).length := by
    rw [List.length_append, List.length_singleton]
    omega
  have hhead : (cs ++ [d] ++ ds).head? = (cs ++ [d]).head? := by
    cases cs <;> rfl
  rw [scan_eq_opening] at h hlt
  rw [scan_eq_opening, scan_eq_opening, hhead]
  have hfits := opening_fits c (cs ++ [d]).head?
  generalize opening c (cs ++ [d]).head? = o at hfits h hlt ⊢
  cases o with
  | lineFeed => rfl
  | carriageReturn =>
    dsimp only [Opening.scan]
    rw [hhead]
  | blank =>
    dsimp only [Opening.scan] at hlt ⊢
    rw [Scan.runLength_extend hlt]
  | lineComment => exact Scan.lineComment_extend hblank h
  | blockComment => exact Scan.blockComment_extend hlt
  | quote =>
    refine Scan.string_extend ?_ hlt
    rcases hfits with rfl | rfl <;> decide
  | backtick => exact Scan.quotedName_extend hlt
  | sigil => exact Scan.parameter_extend hsigil h
  | digit => exact Scan.number_extend hx he hs h
  | point => exact Scan.number_extend hx he hs h
  | letter => exact Scan.word_extend hlt
  | mark =>
    dsimp only [Opening.scan]
    unfold Scan.punctuation
    rw [hhead]

/-- Characters that settle every lexeme that ends before them. -/
def Settling (mark : List Char) : Prop :=
  ∀ c cs, (scan c (cs ++ mark)).extra ≤ cs.length →
    ∀ ds, scan c (cs ++ mark ++ ds) = scan c (cs ++ mark)

theorem settling_of_settles {d : Char} (hd : Scan.settles d = true) : Settling [d] := by
  obtain ⟨hblank, hlook⟩ : Text.isInlineBlank d = false ∧
      d ∉ ['e', 'E', 'x', 'X', '+', '-', '@'] := by
    simpa [Scan.settles] using hd
  intro c cs h ds
  refine scan_extend hblank ?_ ?_ h ds
  · have hfewer : ['e', 'E', 'x', 'X', '@'].Sublist ['e', 'E', 'x', 'X', '+', '-', '@'] := by decide
    exact fun hmem => hlook (hfewer.subset hmem)
  · rintro e - - (rfl | rfl) <;> simp at hlook

theorem settling_dashes : Settling ['-', '-'] := by
  intro c cs h ds
  have hconcat : cs ++ ['-', '-'] = cs ++ ['-'] ++ ['-'] := List.append_cons cs '-' ['-']
  rw [hconcat] at h ⊢
  refine scan_extend (by decide) (by decide) ?_ ?_ ds
  · intro e hlast
    obtain rfl : '-' = e := by simpa using hlast
    decide
  · rw [List.length_append]
    omega

end QueryLint
