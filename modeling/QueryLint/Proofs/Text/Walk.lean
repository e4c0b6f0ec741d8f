import QueryLint.Proofs.Text.Bytes
import QueryLint.Text.LineIndex
import Mathlib.Data.List.Basic
import Mathlib.Data.List.TakeWhile
import Mathlib.Tactic.SplitIfs

/-!
# Walking over a text and looking up its line index

A position can be had in two ways: by walking over the text before it, line break
by line break, or from the table of line starts. The two agree at every cut that
does not part the two characters of one line break (`position_append`). The same
cuts are those at which a walk can be interrupted (`advance_append`).
-/
namespace QueryLint

namespace Text

/-- Whether a cut between two texts parts a carriage return from its line feed. -/
def SplitsBreak (before after : List Char) : Prop :=
  before.getLast? = some '\r' ∧ after.head? = some '\n'

theorem SplitsBreak.cons {before after : List Char} (h : SplitsBreak before after) (c : Char) :
    SplitsBreak (c :: before) after := by
  refine ⟨?_, h.2⟩
  rw [List.getLast?_cons, h.1]
  rfl

namespace SplitsBreak

variable {before mid after : List Char}

theorem not_of_nil : ¬SplitsBreak before [] := fun h => by simpa using h.2

theorem of_append_left (h : SplitsBreak (before ++ mid) after) (hmid : mid ≠ []) :
    SplitsBreak mid after := by
  refine ⟨?_, h.2⟩
  rw [← List.getLast?_append_of_ne_nil before hmid]
  exact h.1

theorem append_right (h : SplitsBreak before mid) (after : List Char) :
    SplitsBreak before (mid ++ after) := by
  refine ⟨h.1, ?_⟩
  rw [List.head?_append, h.2]
  rfl

end SplitsBreak

theorem endsLine_append {c : Char} {before after : List Char}
    (h : ¬SplitsBreak (c :: before) after) : endsLine c (before ++ after) = endsLine c before := by
  cases before with
  | cons d before => rfl
  | nil =>
    by_cases hc : c = '\r'
    · have hafter : (after.head? != some '\n') = true :=
        bne_iff_ne.mpr fun hfeed => h ⟨congrArg some hc, hfeed⟩
      simp only [endsLine, List.nil_append, hafter]
      rfl
    · have hc' : (c == '\r') = false := by simpa using hc
      simp only [endsLine, hc', Bool.false_and]

theorem lineStartsFrom_append {before after : List Char} (h : ¬SplitsBreak before after)
    (offset : Nat) :
    lineStartsFrom offset (before ++ after) =
      lineStartsFrom offset before ++ lineStartsFrom (offset + byteLength before) after := by
  induction before generalizing offset with
  | nil => rfl
  | cons c cs ih =>
    have hcs : ¬SplitsBreak cs after := fun hs => h (hs.cons c)
    simp only [List.cons_append, lineStartsFrom, byteLength, endsLine_append h, ih hcs,
      Nat.add_assoc]
    split_ifs <;> rfl

theorem lt_of_mem_lineStartsFrom {offset start : Nat} {cs : List Char}
    (h : start ∈ lineStartsFrom offset cs) :
    offset < start ∧ start ≤ offset + byteLength cs := by
  induction cs generalizing offset with
  | nil => simp [lineStartsFrom] at h
  | cons c cs ih =>
    have hc := c.utf8Size_pos
    simp only [lineStartsFrom] at h
    simp only [byteLength]
    split_ifs at h
    · rcases List.mem_cons.mp h with rfl | h
      · omega
      · have := ih h
        omega
    · have := ih h
      omega

theorem lineStartsFrom_ne_nil {cs : List Char} (h : cs.head? = some '\n') (offset : Nat) :
    lineStartsFrom offset cs ≠ [] := by
  obtain ⟨cs, rfl⟩ := List.head?_eq_some_iff.mp h
  simp [lineStartsFrom, endsLine]

theorem columnUnits_cons {c : Char} (h : isLineBreak c = false) (cs : List Char) :
    LineIndex.columnUnits (c :: cs) = charUnits c + LineIndex.columnUnits cs := by
  simp [LineIndex.columnUnits, h]

end Text

namespace Position

theorem lt_of_lt_of_le {a b c : Position} (hab : a < b) (hbc : b ≤ c) : a < c := by
  simp only [lt_def, le_def] at *
  omega

theorem head?_of_not_endsLine {c : Char} {cs : List Char} (h : ¬Text.endsLine c cs = true)
    (hc : c = '\r') : cs.head? = some '\n' := by
  subst hc
  simpa [Text.endsLine] using h

theorem lt_advance (p : Position) {cs : List Char} (h : cs ≠ []) : p < p.advance cs := by
  induction cs with
  | nil => exact absurd rfl h
  | cons c cs ih =>
    simp only [advance]
    split_ifs with hline hreturn
    · exact lt_of_lt_of_le (b := ⟨p.line + 1, 0⟩) (Or.inl (Nat.lt_succ_self _)) (le_advance _ _)
    · refine ih ?_
      rintro rfl
      simpa using head?_of_not_endsLine hline (by simpa using hreturn)
    · refine lt_of_lt_of_le (b := ⟨p.line, p.character + Text.charUnits c⟩) ?_ (le_advance _ _)
      exact Or.inr ⟨rfl, Nat.lt_add_of_pos_right (Text.charUnits_pos c)⟩

theorem advance_le_byteLength (p : Position) (cs : List Char) :
    (p.advance cs).line + (p.advance cs).character ≤
      p.line + p.character + Text.byteLength cs := by
  induction cs generalizing p with
  | nil => simp [Text.byteLength]
  | cons c cs ih =>
    have hpos := c.utf8Size_pos
    have hunits := Text.charUnits_le_utf8Size c
    simp only [advance, Text.byteLength]
    split_ifs
    · have := ih ⟨p.line + 1, 0⟩
      dsimp only at this
      omega
    · have := ih p
      omega
    · have := ih ⟨p.line, p.character + Text.charUnits c⟩
      dsimp only at this
      omega

theorem advance_append {before after : List Char} (h : ¬Text.SplitsBreak before after)
    (p : Position) : p.advance (before ++ after) = (p.advance before).advance after := by
  induction before generalizing p with
  | nil => rfl
  | cons c cs ih =>
    have hcs : ¬Text.SplitsBreak cs after := fun hs => h (hs.cons c)
    simp only [List.cons_append, advance, Text.endsLine_append h, ih hcs]
    split_ifs <;> rfl

theorem line_advance_of_onLine {cs : List Char} (h : ∀ c ∈ cs, Text.isLineBreak c = false)
    (p : Position) : (p.advance cs).line = p.line := by
  induction cs generalizing p with
  | nil => rfl
  | cons c cs ih =>
    have hc := h c List.mem_cons_self
    obtain ⟨hfeed, hreturn⟩ : ¬(c = '\n') ∧ ¬(c = '\r') := by
      simpa [Text.isLineBreak] using hc
    have hrest := ih fun d hd => h d (List.mem_cons_of_mem c hd)
    simp [advance, Text.endsLine, hfeed, hreturn, hrest]

/-- A walk counts the line starts behind it, and its column is that of the text
behind the last of them. -/
theorem advance_eq_lineStarts (p : Position) (offset : Nat) (cs : List Char) :
    p.advance cs =
      match (Text.lineStartsFrom offset cs).getLast? with
      | none => ⟨p.line, p.character + Text.LineIndex.columnUnits cs⟩
      | some start =>
        ⟨p.line + (Text.lineStartsFrom offset cs).length,
          Text.LineIndex.columnUnits (Text.dropBytes (start - offset) cs)⟩ := by
  induction cs generalizing p offset with
  | nil => simp [Text.lineStartsFrom, Text.LineIndex.columnUnits]
  | cons c cs ih =>
    have hstart : ∀ start ∈ (Text.lineStartsFrom (offset + c.utf8Size) cs).getLast?,
        Text.dropBytes (start - offset) (c :: cs) =
          Text.dropBytes (start - (offset + c.utf8Size)) cs := by
      intro start hlast
      have hlt := (Text.lt_of_mem_lineStartsFrom (List.mem_of_getLast? hlast)).1
      rw [Text.dropBytes_cons (by omega), Nat.sub_add_eq]
    simp only [advance, Text.lineStartsFrom]
    split_ifs with hline hreturn
    · rw [ih ⟨p.line + 1, 0⟩ (offset + c.utf8Size), List.getLast?_cons]
      cases hlast : (Text.lineStartsFrom (offset + c.utf8Size) cs).getLast? with
      | none =>
        have hnil := List.getLast?_eq_none_iff.mp hlast
        simp only [hnil, Option.getD_none, List.length_singleton, Nat.add_sub_cancel_left,
          Nat.zero_add]
        rw [Text.dropBytes_cons (Nat.le_refl _), Nat.sub_self, Text.dropBytes_zero]
      | some start =>
        simp only [Option.getD_some, List.length_cons]
        rw [hstart start hlast, Nat.add_assoc, Nat.add_comm 1]
    · rw [ih p (offset + c.utf8Size)]
      cases hlast : (Text.lineStartsFrom (offset + c.utf8Size) cs).getLast? with
      | none =>
        have hfeed := head?_of_not_endsLine hline (by simpa using hreturn)
        exact absurd (List.getLast?_eq_none_iff.mp hlast) (Text.lineStartsFrom_ne_nil hfeed _)
      | some start =>
        dsimp only
        rw [hstart start hlast]
    · rw [ih ⟨p.line, p.character + Text.charUnits c⟩ (offset + c.utf8Size)]
      cases hlast : (Text.lineStartsFrom (offset + c.utf8Size) cs).getLast? with
      | none =>
        have hc : Text.isLineBreak c = false := by
          simp_all [Text.endsLine, Text.isLineBreak]
        simp only [Text.columnUnits_cons hc, Nat.add_assoc]
      | some start =>
        dsimp only
        rw [hstart start hlast]

end Position

theorem prefix_of_advance_le {front front' rest rest' : List Char}
    (heq : front ++ rest = front' ++ rest') (hwhole : ¬Text.SplitsBreak front' rest')
    (hle : Position.origin.advance front ≤ Position.origin.advance front') : front <+: front' := by
  rcases List.prefix_or_prefix_of_prefix ⟨rest, heq⟩ (List.prefix_append front' rest') with h | h
  · exact h
  · obtain ⟨more, rfl⟩ := h
    rw [List.append_assoc, List.append_cancel_left_eq] at heq
    have hcut : ¬Text.SplitsBreak front' more := by
      intro hsplit
      exact hwhole (heq ▸ hsplit.append_right rest)
    rw [Position.advance_append hcut] at hle
    have hmore : more = [] := by
      by_contra hne
      exact Position.not_lt.mpr hle (Position.lt_advance _ hne)
    exact ⟨[], by rw [hmore, List.append_nil, List.append_nil]⟩

namespace Text

theorem dropBytes_append_left {n : Nat} {cs : List Char} (h : n ≤ byteLength cs) (ds : List Char) :
    dropBytes n (cs ++ ds) = dropBytes n cs ++ ds := by
  induction cs generalizing n with
  | nil =>
    obtain rfl := Nat.le_zero.mp h
    rw [dropBytes_zero, dropBytes_zero]
  | cons c cs ih =>
    cases n with
    | zero => rw [dropBytes_zero, dropBytes_zero]
    | succ n =>
      rw [byteLength] at h
      rw [List.cons_append, dropBytes, dropBytes, ih (by omega)]

namespace LineIndex

theorem columnUnits_append_breaks (cs : List Char) {ds : List Char}
    (h : ∀ c ∈ ds, isLineBreak c = true) : columnUnits (cs ++ ds) = columnUnits cs := by
  have hnone : ds.filter (fun c => !isLineBreak c) = [] := by
    rw [List.filter_eq_nil_iff]
    intro c hc
    simp [h c hc]
  rw [columnUnits, columnUnits, List.filter_append, hnone, List.append_nil]

/-- If no line starts between a cut and an offset behind it, the table's starts up to
the offset are those of the text before the cut. -/
theorem takeWhile_starts {before after : List Char} {offset : Nat} (h : ¬SplitsBreak before after)
    (hle : byteLength before ≤ offset)
    (hlater : ∀ start ∈ lineStartsFrom (byteLength before) after, offset < start) :
    (ofText (before ++ after)).starts.takeWhile (· ≤ offset) = 0 :: lineStartsFrom 0 before := by
  have hbefore : ∀ start ∈ lineStartsFrom 0 before, decide (start ≤ offset) = true := by
    intro start hmem
    have := (lt_of_mem_lineStartsFrom hmem).2
    rw [decide_eq_true_eq]
    omega
  have hafter : (lineStartsFrom (0 + byteLength before) after).takeWhile
      (fun start => decide (start ≤ offset)) = [] := by
    rw [Nat.zero_add]
    cases hstarts : lineStartsFrom (byteLength before) after with
    | nil => rfl
    | cons start starts =>
      have hlt := hlater start (hstarts ▸ List.mem_cons_self)
      rw [List.takeWhile_cons_of_neg]
      simpa using hlt
  change List.takeWhile _ (0 :: lineStartsFrom 0 (before ++ after)) = _
  rw [List.takeWhile_cons_of_pos (by simp), lineStartsFrom_append h,
    List.takeWhile_append_of_pos hbefore, hafter, List.append_nil]

/-- From a cut on, the position stays the same as long as there are only characters of
a line break that is not complete. -/
theorem position_behind {front part rest : List Char} (h : ¬SplitsBreak front (part ++ rest))
    (hpart : ∀ c ∈ part, isLineBreak c = true)
    (hlater : ∀ start ∈ lineStartsFrom (byteLength front) (part ++ rest),
      byteLength (front ++ part) < start) :
    (ofText (front ++ part ++ rest)).position (byteLength (front ++ part)) =
      Position.origin.advance front := by
  have htake : takeBytes (byteLength (front ++ part)) (ofText (front ++ part ++ rest)).text =
      front ++ part :=
    takeBytes_append (front ++ part) rest
  have hle : byteLength front ≤ byteLength (front ++ part) := by
    rw [byteLength_append]
    exact Nat.le_add_right _ _
  have hstarts := takeWhile_starts h hle hlater
  rw [← List.append_assoc] at hstarts
  rw [Position.advance_eq_lineStarts Position.origin 0 front]
  unfold position lineColumn
  rw [htake]
  dsimp only
  rw [hstarts, List.getLast?_cons]
  cases hlast : (lineStartsFrom 0 front).getLast? with
  | none =>
    have hnil := List.getLast?_eq_none_iff.mp hlast
    simp only [hnil, Option.getD_none, Option.getD_some, List.length_singleton, Nat.sub_zero,
      Nat.sub_self, dropBytes_zero, Position.origin, Nat.zero_add,
      columnUnits_append_breaks front hpart]
  | some start =>
    have hstart := (lt_of_mem_lineStartsFrom (List.mem_of_getLast? hlast)).2
    rw [Nat.zero_add] at hstart
    simp only [Option.getD_some, List.length_cons, Nat.add_sub_cancel, Nat.sub_zero,
      Position.origin, Nat.zero_add, Nat.sub_sub_self (Nat.le_trans hstart hle),
      dropBytes_append_left hstart, columnUnits_append_breaks _ hpart]

theorem position_append {before after : List Char} (h : ¬SplitsBreak before after) :
    (ofText (before ++ after)).position (byteLength before) =
      Position.origin.advance before := by
  have hlater : ∀ start ∈ lineStartsFrom (byteLength before) ([] ++ after),
      byteLength (before ++ []) < start := by
    intro start hstart
    rw [List.append_nil]
    exact (lt_of_mem_lineStartsFrom hstart).1
  have hbehind := @position_behind before [] after h (by simp) hlater
  rwa [List.append_nil] at hbehind

end LineIndex
end Text

end QueryLint
