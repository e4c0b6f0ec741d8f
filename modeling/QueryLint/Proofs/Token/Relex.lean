import QueryLint.Proofs.Token.Settle
import QueryLint.Proofs.Token.Tiling

/-!
# Reading part of a text again

Lexemes are read one after the other, so the text behind some of them reads as
the rest of them. The text before does too: cut off at the end of a lexeme, or
with other text behind characters that settle what comes before them.
-/
namespace QueryLint

/-- Whether a lexeme is what is read first where its characters stand in front
of `after`. -/
def Lexeme.ReadBefore (l : Lexeme) (after : List Char) : Prop :=
  ∃ c front, l.chars = c :: front ∧ scan c (front ++ after) = ⟨l.kind, front.length⟩

namespace Lexeme.ReadBefore

variable {l : Lexeme} {after rest : List Char}

theorem chars_ne_nil (h : l.ReadBefore after) : l.chars ≠ [] := by
  obtain ⟨c, front, hchars, -⟩ := h
  simp [hchars]

theorem lexemes_eq (h : l.ReadBefore after) :
    lexemes (l.chars ++ after) = l :: lexemes after := by
  obtain ⟨c, front, hchars, hscan⟩ := h
  rw [hchars, List.cons_append, lexemes_cons, hscan, List.take_left, List.drop_left, ← hchars]

theorem truncate (h : l.ReadBefore (after ++ rest)) : l.ReadBefore after := by
  obtain ⟨c, front, hchars, hscan⟩ := h
  refine ⟨c, front, hchars, ?_⟩
  rw [← List.append_assoc] at hscan
  rw [← scan_truncate, hscan]
  rw [hscan, List.length_append]
  exact Nat.le_add_right _ _

/-- What follows settling characters can be replaced. -/
theorem resume {mark : List Char} (hmark : Settling mark)
    (h : l.ReadBefore (after ++ (mark ++ rest))) (tail : List Char) :
    l.ReadBefore (after ++ (mark ++ tail)) := by
  rw [← List.append_assoc] at h
  obtain ⟨c, front, hchars, hscan⟩ := h.truncate
  refine ⟨c, front, hchars, ?_⟩
  rw [← List.append_assoc] at hscan
  rw [← List.append_assoc after, ← List.append_assoc, ← List.append_assoc, hmark, hscan]
  rw [hscan, List.length_append]
  exact Nat.le_add_right _ _

end Lexeme.ReadBefore

theorem readBefore_of_lexemes {text : List Char} {l : Lexeme} {ls : List Lexeme}
    (h : lexemes text = l :: ls) :
    l.ReadBefore (Lexeme.join ls) ∧ lexemes (Lexeme.join ls) = ls := by
  obtain ⟨c, cs, rfl, rfl, hrest⟩ := lexemes_eq_cons h
  have hjoin : Lexeme.join ls = cs.drop (scan c cs).extra := by
    rw [← hrest, join_lexemes]
  rw [hjoin]
  refine ⟨⟨c, cs.take (scan c cs).extra, rfl, ?_⟩, hrest⟩
  rw [List.take_append_drop, List.length_take, Nat.min_eq_left (scan_extra_le c cs)]

theorem lexemes_join_right {text : List Char} {ls ms : List Lexeme}
    (h : lexemes text = ls ++ ms) : lexemes (Lexeme.join ms) = ms := by
  induction ls generalizing text with
  | nil =>
    rw [List.nil_append] at h
    rw [← h, join_lexemes]
  | cons l ls ih => exact ih (readBefore_of_lexemes h).2

theorem exists_readBefore_of_mem {text : List Char} {l : Lexeme} (h : l ∈ lexemes text) :
    ∃ rest, l.ReadBefore rest := by
  obtain ⟨before, after, hsplit⟩ := List.append_of_mem h
  exact ⟨_, (readBefore_of_lexemes (lexemes_join_right hsplit)).1⟩

theorem lexemes_join_left {text : List Char} {ls ms : List Lexeme}
    (h : lexemes text = ls ++ ms) : lexemes (Lexeme.join ls) = ls := by
  induction ls generalizing text with
  | nil => exact lexemes_nil
  | cons l ls ih =>
    obtain ⟨hread, hrest⟩ := readBefore_of_lexemes h
    change l.ReadBefore (Lexeme.join (ls ++ ms)) at hread
    rw [Lexeme.join_append] at hread
    rw [Lexeme.join_cons, hread.truncate.lexemes_eq, ih hrest]

/-- Behind settling characters at the end of a lexeme, a text can go on in any
other way. -/
theorem lexemes_join_resume {text mark : List Char} (hmark : Settling mark)
    {ls ms : List Lexeme} {rest : List Char} (h : lexemes text = ls ++ ms)
    (hrest : Lexeme.join ms = mark ++ rest) (tail : List Char) :
    lexemes (Lexeme.join ls ++ (mark ++ tail)) = ls ++ lexemes (mark ++ tail) := by
  induction ls generalizing text with
  | nil => rfl
  | cons l ls ih =>
    obtain ⟨hread, hlexemes⟩ := readBefore_of_lexemes h
    change l.ReadBefore (Lexeme.join (ls ++ ms)) at hread
    rw [Lexeme.join_append, hrest] at hread
    rw [Lexeme.join_cons, List.append_assoc, (hread.resume hmark tail).lexemes_eq, ih hlexemes]
    rfl

end QueryLint
