import QueryLint.Text.CharRange

/-!
# Blank characters and line breaks

Blank is the Unicode property White_Space. A line ends at a line feed, at a
carriage return, or at the pair of both; all three are blank, and a run of
blanks inside one line is a run of `isInlineBlank` characters.
-/
namespace QueryLint
namespace Text

def blankRanges : List CharRange :=
  [(0x9, 0xD), (0x20, 0x20), (0x85, 0x85), (0xA0, 0xA0), (0x1680, 0x1680), (0x2000, 0x200A),
   (0x2028, 0x2029), (0x202F, 0x202F), (0x205F, 0x205F), (0x3000, 0x3000)]

def isBlank (c : Char) : Bool :=
  inRanges blankRanges c.toNat

def isLineBreak (c : Char) : Bool :=
  c == '\n' || c == '\r'

/-- Whether the character `c`, followed by `rest`, completes a line break: a
carriage return leaves that to a line feed right after it. -/
def endsLine (c : Char) (rest : List Char) : Bool :=
  c == '\n' || (c == '\r' && rest.head? != some '\n')

def isInlineBlank (c : Char) : Bool :=
  isBlank c && !isLineBreak c

theorem isBlank_of_isLineBreak {c : Char} (h : isLineBreak c = true) : isBlank c = true := by
  simp only [isLineBreak, Bool.or_eq_true, beq_iff_eq] at h
  rcases h with rfl | rfl <;> decide

theorem not_isLineBreak_of_not_isBlank {c : Char} (h : isBlank c = false) :
    isLineBreak c = false := by
  rw [Bool.eq_false_iff]
  intro hbreak
  rw [isBlank_of_isLineBreak hbreak] at h
  cases h

theorem isInlineBlank_iff {c : Char} :
    isInlineBlank c = true ↔ isBlank c = true ∧ isLineBreak c = false := by
  simp [isInlineBlank]

def trimBlank (cs : List Char) : List Char :=
  ((cs.dropWhile isBlank).reverse.dropWhile isBlank).reverse

def trimBlankEnd (cs : List Char) : List Char :=
  (cs.reverse.dropWhile isBlank).reverse

theorem trimBlankEnd_cons {c : Char} (h : isBlank c = false) (cs : List Char) :
    trimBlankEnd (c :: cs) = c :: trimBlankEnd cs := by
  simp only [trimBlankEnd, List.reverse_cons, List.dropWhile_append]
  split
  · rename_i hblank
    rw [List.isEmpty_iff.mp hblank, List.dropWhile_cons, h]
    rfl
  · simp

theorem isPrefix_trimBlankEnd (cs : List Char) : trimBlankEnd cs <+: cs := by
  rw [← List.reverse_suffix, trimBlankEnd, List.reverse_reverse]
  exact List.dropWhile_suffix isBlank

end Text
end QueryLint
