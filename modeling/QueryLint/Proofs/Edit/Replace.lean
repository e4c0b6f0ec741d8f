import QueryLint.Edit.Apply
import QueryLint.Proofs.Text.Bytes
import Mathlib.Data.List.Basic
import Mathlib.Data.List.Induction
import Mathlib.Tactic.SplitIfs

/-!
# Replacing slices of a text all at once

`Edit.Replaces` says what it means that edits go into a text together: the bytes
of each are replaced, and what stands between them is copied. Edits that are
apart from one another can go in together, and putting them in one by one, from
the last to the first, has the same result (`Replaces.foldlM_reverse`). The edits
of the fixes that are kept do not clash with one another.
-/
namespace QueryLint

namespace Edit

theorem splice?_append (before cut new after : List Char) :
    splice? (Text.byteLength before) (Text.byteLength before + Text.byteLength cut) new
      (before ++ cut ++ after) = some (before ++ new ++ after) := by
  unfold splice?
  rw [if_pos (Nat.le_add_right _ _), ← Text.byteLength_append, Text.cutAt?_byteLength]
  simp only [Option.bind_eq_bind, Option.bind_some]
  rw [Text.cutAt?_byteLength]
  rfl

theorem splice?_eq_some_iff {start stop : Nat} {new text result : List Char} :
    splice? start stop new text = some result ↔
      ∃ before cut after, text = before ++ cut ++ after ∧
        (⟨start, stop⟩ : Span) = ⟨Text.byteLength before,
          Text.byteLength before + Text.byteLength cut⟩ ∧ result = before ++ new ++ after := by
  constructor
  · intro h
    unfold splice? at h
    split_ifs at h
    obtain ⟨⟨upTo, after⟩, hstop, hupTo⟩ := Option.bind_eq_some_iff.mp h
    obtain ⟨⟨before, cut⟩, hstart, hresult⟩ := Option.bind_eq_some_iff.mp hupTo
    obtain ⟨rfl, rfl⟩ := Text.append_eq_of_cutAt? hstop
    obtain ⟨rfl, rfl⟩ := Text.append_eq_of_cutAt? hstart
    refine ⟨before, cut, after, rfl, ?_, (Option.some.inj hresult).symm⟩
    rw [Text.byteLength_append]
  · rintro ⟨before, cut, after, rfl, hspan, rfl⟩
    obtain ⟨rfl, rfl⟩ := Span.mk.inj hspan
    exact splice?_append before cut new after

theorem foldlM_reverse_cons_eq_some_iff {index : Text.LineIndex} {e : Edit} {es : List Edit}
    {text result : List Char} :
    (e :: es).reverse.foldlM (fun result e =>
      splice? (e.span index).start (e.span index).stop e.newText.toList result) text =
        some result ↔
      ∃ before cut after,
        es.reverse.foldlM (fun result e =>
          splice? (e.span index).start (e.span index).stop e.newText.toList result) text =
            some (before ++ cut ++ after) ∧
        e.span index = ⟨Text.byteLength before, Text.byteLength before + Text.byteLength cut⟩ ∧
        result = before ++ e.newText.toList ++ after := by
  rw [List.reverse_cons, List.foldlM_append]
  simp only [Option.bind_eq_bind, Option.bind_eq_some_iff, List.foldlM_cons, List.foldlM_nil,
    splice?_eq_some_iff]
  constructor
  · rintro ⟨_, hfold, _, ⟨before, cut, after, rfl, hspan, rfl⟩, hresult⟩
    exact ⟨before, cut, after, hfold, hspan, (Option.some.inj hresult).symm⟩
  · rintro ⟨before, cut, after, hfold, hspan, rfl⟩
    exact ⟨_, hfold, _, ⟨before, cut, after, rfl, hspan, rfl⟩, rfl⟩

/-- The text from byte `offset` on, before and after edits go into it together.
The edits stand in order, each behind the one before it. -/
inductive Replaces (index : Text.LineIndex) : Nat → List Edit → List Char → List Char → Prop
  | nil (offset : Nat) (text : List Char) : Replaces index offset [] text text
  | cons {offset : Nat} {e : Edit} {es : List Edit} {gap cut rest result : List Char}
      (span : e.span index = ⟨offset + Text.byteLength gap,
        offset + Text.byteLength gap + Text.byteLength cut⟩)
      (behind : Replaces index (offset + Text.byteLength gap + Text.byteLength cut) es rest result) :
      Replaces index offset (e :: es) (gap ++ cut ++ rest) (gap ++ e.newText.toList ++ result)

section Replaces

variable {index : Text.LineIndex} {offset : Nat} {es : List Edit} {text result : List Char}

/-- An edit that goes in does not move the ones before it. -/
theorem Replaces.foldlM_reverse (h : Replaces index offset es text result) {front : List Char}
    (hfront : Text.byteLength front = offset) :
    es.reverse.foldlM (fun result e =>
      splice? (e.span index).start (e.span index).stop e.newText.toList result) (front ++ text) =
      some (front ++ result) := by
  induction h generalizing front with
  | nil offset text => rfl
  | @cons offset e es gap cut rest result hspan _ ih =>
    subst hfront
    have hlength : Text.byteLength (front ++ gap ++ cut) =
        Text.byteLength front + Text.byteLength gap + Text.byteLength cut := by
      simp only [Text.byteLength_append]
    have hbehind := ih hlength
    simp only [← List.append_assoc] at hbehind ⊢
    rw [foldlM_reverse_cons_eq_some_iff]
    refine ⟨front ++ gap, cut, result, hbehind, ?_, rfl⟩
    rw [hspan, Text.byteLength_append]

/-- Whether the bytes of an edit are a slice of the text from byte `offset` on. -/
def IsSlice (index : Text.LineIndex) (offset : Nat) (text : List Char) (e : Edit) : Prop :=
  ∃ before cut after, text = before ++ cut ++ after ∧
    e.span index = ⟨offset + Text.byteLength before,
      offset + Text.byteLength before + Text.byteLength cut⟩

theorem IsSlice.behind {e : Edit} {front rest : List Char}
    (h : IsSlice index offset (front ++ rest) e)
    (hle : offset + Text.byteLength front ≤ (e.span index).start) :
    IsSlice index (offset + Text.byteLength front) rest e := by
  obtain ⟨before, cut, after, htext, hspan⟩ := h
  rw [hspan] at hle
  have hprefix : before <+: front ++ rest := by
    rw [htext, List.append_assoc]
    exact List.prefix_append _ _
  obtain ⟨between, rfl⟩ := Text.prefix_of_byteLength_le (List.prefix_append front rest) hprefix
    (Nat.le_of_add_le_add_left hle)
  refine ⟨between, cut, after, ?_, ?_⟩
  · rw [List.append_assoc, List.append_assoc, List.append_cancel_left_eq] at htext
    rw [htext, List.append_assoc]
  · rw [hspan, Text.byteLength_append, Nat.add_assoc offset (Text.byteLength front)]

theorem IsSlice.behind_cut {e e' : Edit} {gap cut rest : List Char}
    (h : IsSlice index offset (gap ++ cut ++ rest) e')
    (hspan : e.span index = ⟨offset + Text.byteLength gap,
      offset + Text.byteLength gap + Text.byteLength cut⟩)
    (hle : (e.span index).stop ≤ (e'.span index).start) :
    IsSlice index (offset + Text.byteLength gap + Text.byteLength cut) rest e' := by
  rw [hspan] at hle
  rw [Nat.add_assoc, ← Text.byteLength_append]
  apply h.behind
  rwa [Text.byteLength_append, ← Nat.add_assoc]

theorem exists_replaces (hslice : ∀ e ∈ es, IsSlice index offset text e)
    (hordered : es.Pairwise fun a b => (a.span index).stop ≤ (b.span index).start) :
    ∃ result, Replaces index offset es text result := by
  induction es generalizing offset text with
  | nil => exact ⟨text, .nil offset text⟩
  | cons e es ih =>
    obtain ⟨hslice, hslices⟩ := List.forall_mem_cons.mp hslice
    obtain ⟨hfirst, hordered⟩ := List.pairwise_cons.mp hordered
    obtain ⟨gap, cut, rest, rfl, hspan⟩ := hslice
    have hbehind : ∀ e' ∈ es,
        IsSlice index (offset + Text.byteLength gap + Text.byteLength cut) rest e' := by
      intro e' he'
      exact (hslices e' he').behind_cut hspan (hfirst e' he')
    obtain ⟨result, hresult⟩ := ih hbehind hordered
    exact ⟨_, .cons hspan hresult⟩

end Replaces

/-- Whether two edits start at different places, and one ends before the other
starts. -/
def Apart (a b : Edit) : Prop :=
  a.range.start ≠ b.range.start ∧
    (a.range.stop ≤ b.range.start ∨ b.range.stop ≤ a.range.start)

theorem Apart.symm {a b : Edit} (h : Apart a b) : Apart b a :=
  ⟨h.1.symm, h.2.symm⟩

theorem start_le_trans (a b c : Edit) (hab : decide (b.range.start ≤ a.range.start) = true)
    (hbc : decide (c.range.start ≤ b.range.start) = true) :
    decide (c.range.start ≤ a.range.start) = true := by
  rw [decide_eq_true_eq] at *
  exact Position.le_trans hbc hab

theorem start_le_total (a b : Edit) :
    (decide (b.range.start ≤ a.range.start) || decide (a.range.start ≤ b.range.start)) = true := by
  rw [Bool.or_eq_true, decide_eq_true_eq, decide_eq_true_eq]
  exact Position.le_total _ _

theorem pairwise_backToFront (es : List Edit) :
    (backToFront es).Pairwise fun a b => b.range.start ≤ a.range.start := by
  apply (List.pairwise_mergeSort start_le_trans start_le_total es).imp
  intro a b h
  exact of_decide_eq_true h

/-- Sorting puts edits that are apart one behind the other. -/
theorem pairwise_reverse_backToFront {es : List Edit} (hapart : es.Pairwise Apart)
    (hle : ∀ e ∈ es, e.range.start ≤ e.range.stop) :
    (backToFront es).reverse.Pairwise fun a b => a.range.stop ≤ b.range.start := by
  have hperm : (backToFront es).Perm es := List.mergeSort_perm es _
  have hapart' : (backToFront es).Pairwise Apart :=
    (hperm.pairwise_iff fun h => h.symm).mpr hapart
  rw [List.pairwise_reverse]
  apply (hapart'.and (pairwise_backToFront es)).imp_of_mem
  intro a b ha _ h
  obtain ⟨⟨hne, hend⟩, hstart⟩ := h
  have hlea := hle a (hperm.subset ha)
  rcases hend with hend | hend
  · have heq := Position.le_antisymm (Position.le_trans hlea hend) hstart
    exact absurd heq hne
  · exact hend

/-- Whether an edit shares a position with one taken before, or inserts where that
one starts. -/
def Clash (e taken : Edit) : Prop :=
  e.range.start < taken.range.stop ∧ taken.range.start < e.range.stop ∨
    e.range.start = e.range.stop ∧ e.range.start = taken.range.start

theorem clashes_iff {e taken : Edit} : e.clashes taken = true ↔ e.Clash taken := by
  simp [clashes, Clash, Range.overlaps, Range.isEmpty]

end Edit

namespace Fix

/-- The edits that are kept of fixes gone through in order: a fix is skipped if one of
its edits clashes with one kept before, and is kept otherwise. -/
inductive Keeps : List Fix → List Edit → Prop
  | nil : Keeps [] []
  | keep {fixes : List Fix} {fix : Fix} {kept : List Edit} (h : Keeps fixes kept)
      (hclear : ∀ e ∈ fix.edits, ∀ taken ∈ kept, ¬e.Clash taken) :
      Keeps (fixes ++ [fix]) (kept ++ fix.edits)
  | skip {fixes : List Fix} {fix : Fix} {kept : List Edit} (h : Keeps fixes kept)
      (hclash : ∃ e ∈ fix.edits, ∃ taken ∈ kept, e.Clash taken) : Keeps (fixes ++ [fix]) kept

theorem clashes_iff {fix : Fix} {taken : List Edit} :
    fix.clashes taken = true ↔ ∃ e ∈ fix.edits, ∃ t ∈ taken, e.Clash t := by
  simp [clashes, Edit.clashes_iff]

theorem keptEdits_concat (taken : List Edit) (fixes : List Fix) (fix : Fix) :
    keptEdits taken (fixes ++ [fix]) =
      if fix.clashes (keptEdits taken fixes) then keptEdits taken fixes
      else keptEdits taken fixes ++ fix.edits := by
  induction fixes generalizing taken with
  | nil => rfl
  | cons first fixes ih =>
    simp only [List.cons_append, keptEdits, ih]
    split_ifs <;> rfl

theorem keeps_iff {fixes : List Fix} {kept : List Edit} :
    Keeps fixes kept ↔ keptEdits [] fixes = kept := by
  constructor
  · intro h
    induction h with
    | nil => rfl
    | @keep fixes fix kept h hclear ih =>
      have hclashes : ¬fix.clashes kept = true := by simpa [clashes_iff] using hclear
      rw [keptEdits_concat, ih, if_neg hclashes]
    | skip h hclash ih => rw [keptEdits_concat, ih, if_pos (clashes_iff.mpr hclash)]
  · rintro rfl
    induction fixes using List.reverseRecOn with
    | nil => exact .nil
    | append_singleton fixes fix ih =>
      rw [keptEdits_concat]
      split_ifs with hclashes
      · exact ih.skip (clashes_iff.mp hclashes)
      · apply ih.keep
        simpa [clashes_iff] using hclashes

theorem mem_of_mem_keptEdits {taken : List Edit} {fixes : List Fix} {e : Edit}
    (h : e ∈ keptEdits taken fixes) : e ∈ taken ∨ ∃ fix ∈ fixes, e ∈ fix.edits := by
  induction fixes generalizing taken with
  | nil => exact Or.inl h
  | cons fix fixes ih =>
    rw [keptEdits] at h
    split_ifs at h
    · rcases ih h with h | ⟨fix', hfix', h⟩
      · exact Or.inl h
      · exact Or.inr ⟨fix', List.mem_cons_of_mem fix hfix', h⟩
    · rcases ih h with h | ⟨fix', hfix', h⟩
      · rcases List.mem_append.mp h with h | h
        · exact Or.inl h
        · exact Or.inr ⟨fix, List.mem_cons_self, h⟩
      · exact Or.inr ⟨fix', List.mem_cons_of_mem fix hfix', h⟩

theorem pairwise_keptEdits {taken : List Edit} {fixes : List Fix}
    (hsingle : ∀ fix ∈ fixes, ∃ e, fix.edits = [e])
    (htaken : taken.Pairwise fun a b => b.clashes a = false) :
    (keptEdits taken fixes).Pairwise fun a b => b.clashes a = false := by
  induction fixes generalizing taken with
  | nil => exact htaken
  | cons fix fixes ih =>
    obtain ⟨⟨e, hedits⟩, hsingles⟩ := List.forall_mem_cons.mp hsingle
    rw [keptEdits]
    split_ifs with hclash
    · exact ih hsingles htaken
    · apply ih hsingles
      rw [hedits, List.pairwise_append]
      refine ⟨htaken, List.pairwise_singleton _ _, ?_⟩
      intro a ha b hb
      obtain rfl := List.mem_singleton.mp hb
      rw [Bool.not_eq_true] at hclash
      simp only [clashes, hedits, List.any_cons, List.any_nil, Bool.or_false,
        List.any_eq_false, Bool.not_eq_true] at hclash
      exact hclash a ha

end Fix
end QueryLint
