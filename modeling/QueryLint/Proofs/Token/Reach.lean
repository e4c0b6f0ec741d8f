import QueryLint.Proofs.Token.Opening
import QueryLint.Proofs.Token.Rows

/-!
# How far a lexeme reaches

No scan reaches past its text, however the text ends: in the middle of an
escape, an exponent or an open literal. Lemma by lemma this follows the scans,
and `scan_extra_le` puts them together.
-/
namespace QueryLint

namespace Text

theorem length_trimBlankEnd_le (cs : List Char) : (trimBlankEnd cs).length ≤ cs.length :=
  (isPrefix_trimBlankEnd cs).length_le

end Text

namespace Scan

theorem runLength_le (p : Char → Bool) (cs : List Char) : runLength p cs ≤ cs.length :=
  (List.takeWhile_sublist p).length_le

theorem of_mem_take_runLength {p : Char → Bool} {cs : List Char} {x : Char}
    (h : x ∈ cs.take (runLength p cs)) : p x = true := by
  have htake : cs.take (runLength p cs) = cs.takeWhile p :=
    (List.prefix_iff_eq_take.mp (List.takeWhile_prefix p)).symm
  rw [htake] at h
  exact List.mem_takeWhile_imp h

theorem runLength_append_eq_iff {p : Char → Bool} {front rest : List Char} :
    runLength p (front ++ rest) = front.length ↔
      (∀ x ∈ front, p x = true) ∧ ∀ x ∈ rest.head?, p x = false := by
  unfold runLength
  rw [List.takeWhile_append]
  constructor
  · intro h
    split_ifs at h with hall
    · refine ⟨fun x hx => ?_, fun x hx => ?_⟩
      · have hself := (List.takeWhile_prefix p).eq_of_length hall
        exact List.takeWhile_eq_self_iff.mp hself x hx
      · obtain ⟨rest, rfl⟩ := List.head?_eq_some_iff.mp hx
        by_contra hp
        rw [Bool.not_eq_false] at hp
        rw [List.takeWhile_cons_of_pos hp] at h
        simp at h
    · exact absurd h hall
  · rintro ⟨hall, hrest⟩
    have hnil : rest.takeWhile p = [] := by
      cases rest with
      | nil => rfl
      | cons x rest => exact List.takeWhile_cons_of_neg (by simp [hrest x rfl])
    rw [List.takeWhile_eq_self_iff.mpr hall, if_pos rfl, hnil, List.append_nil]

theorem lineComment_le (cs : List Char) : (lineComment cs).extra ≤ cs.length :=
  Nat.le_trans (Text.length_trimBlankEnd_le _) (List.takeWhile_sublist _).length_le

theorem blockClose?_le {cs : List Char} {n : Nat} (h : blockClose? cs = some n) :
    2 ≤ n ∧ n ≤ cs.length := by
  obtain ⟨hmark, hfirst⟩ := blockClose?_eq_some_iff.mp h
  refine ⟨hmark.length_le.trans (List.length_take_le n cs), ?_⟩
  by_contra hlt
  rw [Nat.not_le] at hlt
  apply hfirst cs.length hlt
  rwa [List.take_length, ← List.take_of_length_le (Nat.le_of_lt hlt)]

theorem blockClose?_append_eq_some_iff {cs ds : List Char} {n : Nat} (hn : n ≤ cs.length) :
    blockClose? (cs ++ ds) = some n ↔ blockClose? cs = some n := by
  have htake : ∀ m ≤ n, (cs ++ ds).take m = cs.take m := fun m hm =>
    List.take_append_of_le_length (hm.trans hn)
  rw [blockClose?_eq_some_iff, blockClose?_eq_some_iff, htake n (Nat.le_refl n)]
  refine and_congr_right fun _ => forall₂_congr fun m hm => ?_
  rw [htake m (Nat.le_of_lt hm)]

theorem blockComment_le {cs : List Char} (h : cs ≠ []) : (blockComment cs).extra ≤ cs.length := by
  unfold blockComment
  split
  · rename_i n hn
    have hle := (blockClose?_le hn).2
    have hpos := List.length_pos_iff.mpr h
    simp only [List.length_drop] at hle
    dsimp only
    omega
  · exact Nat.le_refl _

theorem single_le (quote : Char) (escapes : Bool) (cs : List Char) :
    (single quote escapes cs).2 ≤ cs.length := by
  fun_induction single quote escapes cs with
  | case6 c _ _ _ d ds _ r ih => simp only [List.length_cons, r]; omega
  | case7 c cs _ _ _ r ih => simp only [List.length_cons, r]; omega
  | _ => simp

theorem triple_le (quote : Char) (escapes : Bool) (cs : List Char) :
    (triple quote escapes cs).2 ≤ cs.length := by
  fun_induction triple quote escapes cs with
  | case2 c cs h =>
    have hle := length_of_isPrefixOf_pair h.2
    simp only [List.length_cons]
    omega
  | case4 c _ d ds r _ ih => simp only [List.length_cons, r]; omega
  | case5 c cs _ _ r ih => simp only [List.length_cons, r]; omega
  | _ => simp

/-- A literal in three quotes that is left open takes all of its text. -/
theorem triple_open {quote : Char} {escapes : Bool} {cs : List Char}
    (h : (triple quote escapes cs).1 = false) : (triple quote escapes cs).2 = cs.length := by
  fun_induction triple quote escapes cs with
  | case1 => rfl
  | case2 => simp at h
  | case3 => rfl
  | case4 c hc d ds r _ ih => exact congrArg (· + 2) (ih h)
  | case5 c cs _ _ r ih => exact congrArg (· + 1) (ih h)

theorem string_le (quote : Char) (escapes : Bool) (cs : List Char) :
    (string quote escapes cs).extra ≤ cs.length := by
  unfold string
  split_ifs with h
  · have hle := triple_le quote escapes (cs.drop 2)
    have hlen := length_of_isPrefixOf_pair h
    simp only [List.length_drop] at hle
    dsimp only
    omega
  · exact single_le quote escapes cs

theorem openedRun_le (s p : Char → Bool) (cs : List Char) : openedRun s p cs ≤ cs.length := by
  unfold openedRun
  split_ifs
  · exact runLength_le p cs
  · exact Nat.zero_le _

theorem parameterName_le (sigils : Nat) (name : List Char) :
    (parameterName sigils name).extra ≤ sigils + name.length := by
  have hrun := openedRun_le Text.isNameStart Text.isNamePart name
  unfold parameterName
  dsimp only
  split_ifs <;> dsimp only <;> omega

theorem parameter_le (cs : List Char) : (parameter cs).extra ≤ cs.length := by
  rcases parameter_cases cs with ⟨name, rfl, heq⟩ | heq
  · rw [heq, List.length_cons, Nat.add_comm]
    exact parameterName_le 1 name
  · have hle := parameterName_le 0 cs
    rw [heq]
    omega

theorem exponentDigits_le (lead : Nat) (cs : List Char) :
    exponentDigits lead cs ≤ lead + cs.length := by
  have hrun := openedRun_le Char.isDigit Char.isDigit cs
  unfold exponentDigits
  dsimp only
  split_ifs <;> omega

theorem exponentLength_le (cs : List Char) : exponentLength cs ≤ cs.length := by
  rcases exponentLength_cases cs with ⟨e, sign, ds, rfl, -, -, heq⟩ | ⟨e, ds, rfl, -, heq⟩ | heq
  · have hle := exponentDigits_le 2 ds
    simp only [heq, List.length_cons]
    omega
  · have hle := exponentDigits_le 1 ds
    simp only [heq, List.length_cons]
    omega
  · rw [heq]
    exact Nat.zero_le _

theorem fractionLength_le (cs : List Char) : fractionLength cs ≤ cs.length := by
  cases cs with
  | nil => simp [fractionLength]
  | cons c cs =>
    have h := runLength_le Char.isDigit cs
    simp only [fractionLength, List.length_cons]
    split_ifs <;> omega

theorem mantissaLength_le (c : Char) (cs : List Char) : mantissaLength c cs ≤ cs.length := by
  have hdigits := runLength_le Char.isDigit cs
  have hfraction := fractionLength_le (cs.drop (runLength Char.isDigit cs))
  simp only [List.length_drop] at hfraction
  unfold mantissaLength
  dsimp only
  split_ifs <;> omega

theorem decimal_le (c : Char) (cs : List Char) : (decimal c cs).extra ≤ cs.length := by
  have hmantissa := mantissaLength_le c cs
  have hexponent := exponentLength_le (cs.drop (mantissaLength c cs))
  simp only [List.length_drop] at hexponent
  unfold decimal
  dsimp only
  omega

theorem number_le (c : Char) (cs : List Char) : (number c cs).extra ≤ cs.length := by
  cases cs with
  | nil => exact number_nil c ▸ decimal_le c []
  | cons x cs =>
    have hrun := openedRun_le Lexer.isHexDigit Lexer.isHexDigit cs
    rw [number_cons]
    split_ifs
    · simp only [List.length_cons]
      omega
    · exact decimal_le c (x :: cs)

theorem wordBefore_le (word : List Char) (extra : Nat) (rest : List Char) :
    extra ≤ (wordBefore word extra rest).extra ∧
      (wordBefore word extra rest).extra ≤ extra + rest.length := by
  rcases wordBefore_cases word extra rest with ⟨quote, behind, rfl, -, heq⟩ | heq
  · have hle := string_le quote (!(Keyword.lower word).contains 'r') behind
    simp only [heq, markedLiteral, List.length_cons]
    omega
  · rw [heq]
    exact ⟨Nat.le_refl _, Nat.le_add_right _ _⟩

theorem word_le (c : Char) (cs : List Char) : (word c cs).extra ≤ cs.length := by
  have hrun := runLength_le Text.isNamePart cs
  have hle := (wordBefore_le (c :: cs.take (runLength Text.isNamePart cs))
    (runLength Text.isNamePart cs) (cs.drop (runLength Text.isNamePart cs))).2
  rw [word_eq]
  simp only [List.length_drop] at hle
  omega

theorem punctuation_le (c : Char) (cs : List Char) : (punctuation c cs).extra ≤ cs.length := by
  unfold punctuation
  split_ifs with h
  · cases cs with
    | nil => simp at h
    | cons d ds => simp
  · exact Nat.zero_le _
  · exact Nat.zero_le _

end Scan

theorem scan_extra_le (c : Char) (cs : List Char) : (scan c cs).extra ≤ cs.length := by
  have hfits := opening_fits c cs.head?
  have hhead : ∀ {x : Char}, cs.head? = some x → cs ≠ [] := by
    rintro x hx rfl
    simp at hx
  rw [scan_eq_opening]
  generalize opening c cs.head? = o at hfits ⊢
  cases o with
  | lineFeed => exact Nat.zero_le _
  | carriageReturn =>
    dsimp only [Opening.scan]
    split_ifs with h
    · exact List.length_pos_iff.mpr (hhead h)
    · exact Nat.zero_le _
  | blank => exact Scan.runLength_le _ _
  | lineComment => exact Scan.lineComment_le _
  | blockComment => exact Scan.blockComment_le (hhead hfits.2)
  | quote => exact Scan.string_le _ _ _
  | backtick => exact Scan.single_le _ _ _
  | sigil => exact Scan.parameter_le _
  | digit => exact Scan.number_le _ _
  | point => exact Scan.number_le _ _
  | letter => exact Scan.word_le _ _
  | mark => exact Scan.punctuation_le _ _

end QueryLint
