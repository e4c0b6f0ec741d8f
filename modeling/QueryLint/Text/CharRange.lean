/-!
# Ranges of characters

A property of characters is kept as an ascending table of inclusive code point
ranges. Looking a code point up stops at the first range that starts above it,
so the common low code points are answered by the first few entries.
-/
namespace QueryLint
namespace Text

/-- An inclusive range of code points, first and last. -/
abbrev CharRange := Nat × Nat

/-- Whether `n` lies in one of the ranges of an ascending table. -/
def inRanges : List CharRange → Nat → Bool
  | [], _ => false
  | (first, last) :: table, n =>
    if n < first then false else n ≤ last || inRanges table n

theorem inRanges_of_mem_head {first last n : Nat} {table : List CharRange}
    (hfirst : first ≤ n) (hlast : n ≤ last) : inRanges ((first, last) :: table) n = true := by
  simp [inRanges, Nat.not_lt.mpr hfirst, hlast]

theorem exists_range_of_inRanges {table : List CharRange} {n : Nat}
    (h : inRanges table n = true) : ∃ r ∈ table, r.1 ≤ n ∧ n ≤ r.2 := by
  induction table with
  | nil => simp [inRanges] at h
  | cons r table ih =>
    obtain ⟨first, last⟩ := r
    by_cases hlow : n < first
    · simp [inRanges, hlow] at h
    · simp only [inRanges, hlow, if_false, Bool.or_eq_true, decide_eq_true_eq] at h
      rcases h with h | h
      · exact ⟨(first, last), by simp, by omega, h⟩
      · obtain ⟨r, hr, hn⟩ := ih h
        exact ⟨r, by simp [hr], hn⟩

end Text
end QueryLint
