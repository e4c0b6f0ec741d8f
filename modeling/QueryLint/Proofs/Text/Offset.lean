import QueryLint.Proofs.Text.Walk

/-!
# From a position back to its offset

A walk over the beginning of a text ends on the line that the last line start
before it opens (`exists_lastLine`), and behind that start no line breaks. So
looking the position up in the table of line starts and counting columns leads
back to the place where the walk ended, unless the walk ended between a carriage
return and its line feed.
-/
namespace QueryLint
namespace Text

theorem not_isLineBreak_of_lineStartsFrom {offset : Nat} {cs : List Char}
    (h : lineStartsFrom offset cs = []) : ∀ c ∈ cs, isLineBreak c = false := by
  induction cs generalizing offset with
  | nil => simp
  | cons c cs ih =>
    simp only [lineStartsFrom] at h
    split_ifs at h with hline
    intro x hx
    rcases List.mem_cons.mp hx with rfl | hx
    · rw [Bool.eq_false_iff]
      intro hbreak
      simp only [isLineBreak, Bool.or_eq_true, beq_iff_eq] at hbreak
      rcases hbreak with rfl | rfl
      · simp [endsLine] at hline
      · exact lineStartsFrom_ne_nil (Position.head?_of_not_endsLine hline rfl) _ h
    · exact ih h x hx

theorem isLineBreak_of_endsLine {c : Char} {cs : List Char} (h : endsLine c cs = true) :
    isLineBreak c = true := by
  simp only [endsLine, Bool.or_eq_true, Bool.and_eq_true] at h
  rw [isLineBreak, Bool.or_eq_true]
  exact h.imp_right And.left

theorem exists_lastLine {offset start : Nat} {cs : List Char}
    (h : (lineStartsFrom offset cs).getLast? = some start) :
    ∃ front line, cs = front ++ line ∧ start = offset + byteLength front ∧
      (∀ c ∈ line, isLineBreak c = false) ∧ ∃ c ∈ front.getLast?, isLineBreak c = true := by
  induction cs generalizing offset with
  | nil => simp [lineStartsFrom] at h
  | cons c cs ih =>
    have hlater : (lineStartsFrom (offset + c.utf8Size) cs).getLast? = some start →
        ∃ front line, c :: cs = front ++ line ∧ start = offset + byteLength front ∧
          (∀ c ∈ line, isLineBreak c = false) ∧ ∃ c ∈ front.getLast?, isLineBreak c = true := by
      intro hlast
      obtain ⟨front, line, rfl, hstart, hline, x, hx, hbreak⟩ := ih hlast
      refine ⟨c :: front, line, rfl, ?_, hline, x, ?_, hbreak⟩
      · rw [hstart, byteLength, Nat.add_assoc]
      · rw [List.getLast?_cons, Option.mem_def.mp hx]
        rfl
    simp only [lineStartsFrom] at h
    split_ifs at h with hends
    · rw [List.getLast?_cons] at h
      cases hlast : (lineStartsFrom (offset + c.utf8Size) cs).getLast? with
      | some later =>
        rw [hlast, Option.getD_some] at h
        exact hlater (hlast.trans h)
      | none =>
        rw [hlast, Option.getD_none, Option.some.injEq] at h
        refine ⟨[c], cs, rfl, ?_, ?_, c, rfl, isLineBreak_of_endsLine hends⟩
        · rw [← h, byteLength, byteLength, Nat.add_zero]
        · exact not_isLineBreak_of_lineStartsFrom (List.getLast?_eq_none_iff.mp hlast)
    · exact hlater h

namespace LineIndex

theorem columnBytes_columnUnits {line : List Char} (h : ∀ c ∈ line, isLineBreak c = false)
    (after : List Char) :
    columnBytes (columnUnits line) (line ++ after) = byteLength line := by
  induction line with
  | nil => cases after <;> simp [columnUnits, columnBytes, byteLength]
  | cons c line ih =>
    obtain ⟨hc, hline⟩ := List.forall_mem_cons.mp h
    have hpos := charUnits_pos c
    rw [columnUnits_cons hc, List.cons_append, columnBytes, if_neg (by simp [hc]; omega),
      Nat.add_sub_cancel_left, ih hline, byteLength]

/-- The line on which the walk over `before` ends starts behind a line break, or at the beginning
of the text, and goes up to the end of `before`. -/
theorem exists_line_of_advance {before after : List Char} (h : ¬SplitsBreak before after) :
    ∃ front line, before = front ++ line ∧ (∀ c ∈ line, isLineBreak c = false) ∧
      (∀ c ∈ front.getLast?, isLineBreak c = true) ∧
      (ofText (before ++ after)).lineStart? (Position.origin.advance before).line =
        some (byteLength front) ∧
      (Position.origin.advance before).character = columnUnits line := by
  have hstarts : (ofText (before ++ after)).starts =
      (0 :: lineStartsFrom 0 before) ++ lineStartsFrom (0 + byteLength before) after :=
    congrArg (0 :: ·) (lineStartsFrom_append h 0)
  unfold lineStart?
  rw [hstarts, Position.advance_eq_lineStarts Position.origin 0 before]
  cases hlast : (lineStartsFrom 0 before).getLast? with
  | none =>
    have hnil := List.getLast?_eq_none_iff.mp hlast
    refine ⟨[], before, rfl, not_isLineBreak_of_lineStartsFrom hnil, by simp, ?_, ?_⟩
    · simp [hnil, Position.origin, byteLength]
    · simp [Position.origin]
  | some start =>
    obtain ⟨front, line, heq, rfl, hline, c, hc, hbreak⟩ := exists_lastLine hlast
    have hfront : ∀ c ∈ front.getLast?, isLineBreak c = true := by
      intro x hx
      obtain rfl : c = x := Option.some.inj (hc.symm.trans hx)
      exact hbreak
    refine ⟨front, line, heq, hline, hfront, ?_, ?_⟩
    · have hopen : (0 :: lineStartsFrom 0 before).getLast? = some (byteLength front) := by
        rw [List.getLast?_cons, hlast, Option.getD_some, Nat.zero_add]
      rw [List.getLast?_eq_getElem?, List.length_cons, Nat.add_sub_cancel] at hopen
      simp only [Position.origin, Nat.zero_add] at hopen ⊢
      rw [List.getElem?_append_left (by simp), hopen]
    · simp only [Nat.zero_add, Nat.sub_zero]
      rw [heq, dropBytes_append]

/-- Where the walk over `before` ends, the line index finds the end of `before`. -/
theorem offset_advance {before after : List Char} (h : ¬SplitsBreak before after) :
    (ofText (before ++ after)).offset (Position.origin.advance before) = byteLength before := by
  obtain ⟨front, line, rfl, hline, -, hstart, hcolumn⟩ := exists_line_of_advance h
  unfold offset
  rw [hstart, hcolumn]
  change byteLength front +
    columnBytes _ (dropBytes (byteLength front) (front ++ line ++ after)) = _
  rw [List.append_assoc, dropBytes_append, columnBytes_columnUnits hline, byteLength_append]

end LineIndex
end Text
end QueryLint
