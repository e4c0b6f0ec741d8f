import QueryLint.Proofs.Edit.Replace
import QueryLint.Proofs.Rule.Finding
import QueryLint.Proofs.Rule.Order

/-!
# Applying the fixes of a document

The edits that the linter offers lie between token boundaries, so their bytes are
slices of the text. Those that are kept are apart from one another: they do not
overlap, and the only edit that inserts without replacing stands at the end of
the document, where no other edit starts. So they go in together, whatever the
rules and the limit.
-/
namespace QueryLint

theorem anchored_of_mem_lint {s : Settings} {text : List Char} {g : Diagnostic}
    (h : g ∈ lint s text) :
    g.range.Within text ∧ ∀ fix ∈ g.fix, ∃ e : Edit, fix.edits = [e] ∧ e.Anchored text := by
  obtain ⟨r, -, -, -, f, hf, rfl⟩ := exists_finding_of_mem_lint h
  have hanchored := anchored_of_mem_findings hf
  exact ⟨hanchored.within, hanchored.fix⟩

namespace Edit

variable {text : List Char} {a b : Edit}

/-- Only at the end of a document could an edit that does not clash with another
start at the same place, and there it would clash. -/
theorem apart_of_not_clashes (ha : a.Anchored text) (hb : b.Anchored text)
    (h : b.clashes a = false) : Apart a b := by
  simp only [clashes, Range.overlaps, Range.isEmpty, Bool.or_eq_false_iff, Bool.and_eq_false_iff,
    decide_eq_false_iff_not, Position.not_lt, beq_eq_false_iff_ne] at h
  obtain ⟨hoverlap, hinsertion⟩ := h
  refine ⟨?_, hoverlap⟩
  intro hsame
  have hempty : b.range.start = b.range.stop := by
    rcases hoverlap with hend | hend
    · have hstop := ha.stop_of_insertion (Position.le_antisymm ha.within.start_le_stop
        (hsame ▸ hend))
      apply Position.le_antisymm hb.within.start_le_stop
      rw [← hsame, hstop]
      exact hb.within.stop_le
    · exact Position.le_antisymm hb.within.start_le_stop (hsame ▸ hend)
  rcases hinsertion with hne | hne
  · exact hne hempty
  · exact hne hsame.symm

theorem Anchored.isSlice (h : a.Anchored text) :
    IsSlice (Text.LineIndex.ofText text) 0 text a := by
  obtain ⟨before, cut, after, htext, hstart, hstop⟩ := h.within.exists_slice
  refine ⟨before, cut, after, htext, ?_⟩
  rw [span, hstart, hstop, Nat.zero_add]

theorem exists_applyAll? {es : List Edit} (hanchored : ∀ e ∈ es, e.Anchored text)
    (hapart : es.Pairwise Apart) :
    let index := Text.LineIndex.ofText text
    ∃ order result, order.Perm es ∧
      order.Pairwise (fun a b => (a.span index).stop ≤ (b.span index).start) ∧
      Replaces index 0 order text result ∧ applyAll? text es = some result := by
  intro index
  have hperm : (backToFront es).reverse.Perm es :=
    (List.reverse_perm _).trans (List.mergeSort_perm es _)
  have hordered : (backToFront es).reverse.Pairwise
      fun a b => (a.span index).stop ≤ (b.span index).start := by
    have hle : ∀ e ∈ es, e.range.start ≤ e.range.stop := by
      intro e he
      exact (hanchored e he).within.start_le_stop
    apply (pairwise_reverse_backToFront hapart hle).imp_of_mem
    intro a b ha hb h
    exact offset_le_of_boundary_le (hanchored a (hperm.subset ha)).within.stop_boundary
      (hanchored b (hperm.subset hb)).within.start_boundary h
  have hslice : ∀ e ∈ (backToFront es).reverse, IsSlice index 0 text e := by
    intro e he
    exact (hanchored e (hperm.subset he)).isSlice
  obtain ⟨result, hresult⟩ := exists_replaces hslice hordered
  refine ⟨_, result, hperm, hordered, hresult, ?_⟩
  have hzero : Text.byteLength [] = 0 := rfl
  have hfold := hresult.foldlM_reverse hzero
  rw [List.reverse_reverse] at hfold
  exact hfold

end Edit

section Lint

variable {s : Settings} {text : List Char}

theorem exists_edit_of_mem_fixes {fix : Fix} (h : fix ∈ (lint s text).filterMap (·.fix)) :
    ∃ e : Edit, fix.edits = [e] ∧ e.Anchored text := by
  obtain ⟨g, hg, hfix⟩ := List.mem_filterMap.mp h
  exact (anchored_of_mem_lint hg).2 fix hfix

theorem anchored_of_mem_kept {e : Edit}
    (h : e ∈ Fix.keptEdits [] ((lint s text).filterMap (·.fix))) : e.Anchored text := by
  rcases Fix.mem_of_mem_keptEdits h with h | ⟨fix, hfix, h⟩
  · simp at h
  · obtain ⟨e', hedits, hanchored⟩ := exists_edit_of_mem_fixes hfix
    rw [hedits] at h
    obtain rfl := List.mem_singleton.mp h
    exact hanchored

theorem pairwise_apart_kept :
    (Fix.keptEdits [] ((lint s text).filterMap (·.fix))).Pairwise Edit.Apart := by
  have hsingle : ∀ fix ∈ (lint s text).filterMap (·.fix), ∃ e, fix.edits = [e] := by
    intro fix hfix
    obtain ⟨e, hedits, -⟩ := exists_edit_of_mem_fixes hfix
    exact ⟨e, hedits⟩
  apply (Fix.pairwise_keptEdits hsingle List.Pairwise.nil).imp_of_mem
  intro a b ha hb h
  exact Edit.apart_of_not_clashes (anchored_of_mem_kept ha) (anchored_of_mem_kept hb) h

end Lint

/-- The fixes of a document can always be applied. Every range that the linter
reports, and every edit that it offers, goes from one token boundary of the
document to another. Of the fixes in order, each is kept unless its edit clashes with
one kept before; the edits that are kept have bytes apart from one another, and applying
the fixes replaces these bytes all at once. -/
theorem lint_fixes_apply (s : Settings) (text : List Char) :
    let index := Text.LineIndex.ofText text
    (∀ g ∈ lint s text, g.range.Within text ∧
      ∀ fix ∈ g.fix, ∀ e ∈ fix.edits, e.range.Within text) ∧
    ∃ kept order result, Fix.Keeps ((lint s text).filterMap (·.fix)) kept ∧ order.Perm kept ∧
      order.Pairwise (fun a b => (a.span index).stop ≤ (b.span index).start) ∧
      Edit.Replaces index 0 order text result ∧
      Diagnostic.applyFixes? text (lint s text) = some result := by
  intro index
  constructor
  · intro g hg
    obtain ⟨hrange, hfix⟩ := anchored_of_mem_lint hg
    refine ⟨hrange, ?_⟩
    intro fix hmem e he
    obtain ⟨e', hedits, hanchored⟩ := hfix fix hmem
    rw [hedits] at he
    obtain rfl := List.mem_singleton.mp he
    exact hanchored.within
  · obtain ⟨order, result, hperm, hordered, hreplaces, happly⟩ :=
      Edit.exists_applyAll? (fun e he => anchored_of_mem_kept he) (pairwise_apart_kept (s := s))
    exact ⟨_, order, result, Fix.keeps_iff.mpr rfl, hperm, hordered, hreplaces, happly⟩

/-- A blank line in front of a statement: one fix takes the line away, and the fix that
takes its blank away is skipped. -/
theorem lint_fixes_apply_blank :
    let s : Settings := {}
    let text := " \nselect 1\n".toList
    let line : Edit := ⟨⟨⟨0, 0⟩, ⟨1, 0⟩⟩, ""⟩
    let blank : Edit := ⟨⟨⟨0, 0⟩, ⟨0, 1⟩⟩, ""⟩
    (lint s text).map (fun g => g.fix.map (·.edits)) = [some [line], some [blank]] ∧
      (∀ g ∈ lint s text, g.range.Within text) ∧ blank.Clash line ∧
      Fix.Keeps ((lint s text).filterMap (·.fix)) [line] ∧
      Diagnostic.applyFixes? text (lint s text) = some "select 1\n".toList := by
  intro s text line blank
  have hlint : lint s text = Linter.collect s.lint.buildRules (Document.parse text) := by
    unfold lint Settings.lintDocument Linter.run
    rw [List.mergeSort_of_pairwise (by decide +kernel)]
    exact List.take_of_length_le (by decide +kernel)
  obtain ⟨hwithin, kept, order, result, hkeeps, hperm, -, hreplaces, happly⟩ :=
    lint_fixes_apply s text
  have hkept : [line] = kept := by
    rw [hlint, Fix.keeps_iff] at hkeeps
    rw [← hkeeps]
    decide +kernel
  subst hkept
  obtain rfl := List.perm_singleton.mp hperm
  have hzero : Text.byteLength [] = 0 := rfl
  have hresult := hreplaces.foldlM_reverse hzero
  refine ⟨?_, fun g hg => (hwithin g hg).1, ?_, hkeeps, ?_⟩
  · rw [hlint]
    decide +kernel
  · rw [← Edit.clashes_iff]
    decide
  · rw [happly, ← List.nil_append result, ← hresult]
    decide +kernel

end QueryLint
