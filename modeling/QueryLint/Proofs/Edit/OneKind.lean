import QueryLint.Proofs.Edit.Fixes
import Mathlib.Data.List.Nodup

/-!
# Fixes of rules of one kind

Where all rules that are on are of one kind, they find the same, and their fixes
offer the same edits, each as often as there are rules. Edits in order that do not
overlap are all kept, each once, and going in one by one has the same result as
going in together (`Diagnostic.applyFixes?_eq`).
-/
namespace QueryLint

namespace Edit

variable {index : Text.LineIndex} {offset : Nat} {es : List Edit} {text result : List Char}

theorem Replaces.behind {front : List Char}
    (h : Replaces index (offset + Text.byteLength front) es text result) :
    Replaces index offset es (front ++ text) (front ++ result) := by
  cases h with
  | nil => exact .nil _ _
  | @cons _ e es gap cut rest result span behind =>
    have hfront : offset + Text.byteLength front + Text.byteLength gap =
        offset + Text.byteLength (front ++ gap) := by
      rw [Text.byteLength_append, Nat.add_assoc]
    rw [hfront] at span behind
    simp only [← List.append_assoc]
    exact .cons span behind

/-- Whether an edit stands before another: it starts before it, and stops where it
starts or before that. -/
def Before (a b : Edit) : Prop :=
  a.range.start < b.range.start ∧ a.range.stop ≤ b.range.start

theorem clashes_self {e : Edit} (h : e.range.start ≤ e.range.stop) : e.clashes e = true := by
  by_cases hempty : e.range.start = e.range.stop
  · simp [clashes, Range.isEmpty, hempty]
  · have hlt : e.range.start < e.range.stop := by
      by_contra hge
      exact hempty (Position.le_antisymm h (Position.not_lt.mp hge))
    simp [clashes, Range.overlaps, hlt]

theorem Before.not_clashes {a b : Edit} (h : Before a b) :
    a.clashes b = false ∧ b.clashes a = false := by
  obtain ⟨hstart, hstop⟩ := h
  have hoverlap : ¬b.range.start < a.range.stop := Position.not_lt.mpr hstop
  have hne : a.range.start ≠ b.range.start := by
    intro heq
    rw [heq] at hstart
    exact Position.lt_irrefl _ hstart
  simp [clashes, Range.overlaps, hoverlap, hne, hne.symm]

theorem backToFront_eq_reverse {order : List Edit} (hperm : es.Perm order)
    (hordered : order.Pairwise fun a b => a.range.start < b.range.start) :
    backToFront es = order.reverse := by
  have hnodup : (order.map (·.range.start)).Nodup := by
    rw [List.Nodup, List.pairwise_map]
    apply hordered.imp
    intro a b hlt heq
    rw [heq] at hlt
    exact Position.lt_irrefl _ hlt
  have hsorted : order.reverse.Pairwise fun a b => b.range.start ≤ a.range.start := by
    rw [List.pairwise_reverse]
    exact hordered.imp Position.le_of_lt
  have hback : (backToFront es).Perm order := (List.mergeSort_perm es _).trans hperm
  apply List.Perm.eq_of_pairwise ?_ (pairwise_backToFront es) hsorted
  · exact hback.trans (List.reverse_perm order).symm
  · intro a b ha hb hba hab
    exact List.inj_on_of_nodup_map hnodup (hback.subset ha) (List.mem_reverse.mp hb)
      (Position.le_antisymm hab hba)

theorem applyAll?_of_replaces {order : List Edit} (hperm : es.Perm order)
    (hordered : order.Pairwise fun a b => a.range.start < b.range.start)
    (h : Replaces (Text.LineIndex.ofText text) 0 order text result) :
    applyAll? text es = some result := by
  have hzero : Text.byteLength [] = 0 := rfl
  have hfold := h.foldlM_reverse hzero
  rw [← backToFront_eq_reverse hperm hordered] at hfold
  exact hfold

end Edit

namespace Fix

variable {taken : List Edit} {fixes : List Fix} {e : Edit}

theorem mem_keptEdits_of_mem (h : e ∈ taken) : e ∈ keptEdits taken fixes := by
  induction fixes generalizing taken with
  | nil => exact h
  | cons fix fixes ih =>
    rw [keptEdits]
    split_ifs
    · exact ih h
    · exact ih (List.mem_append_left _ h)

theorem mem_keptEdits_or_clashes {fix : Fix} (hfix : fix ∈ fixes) (hedits : fix.edits = [e]) :
    e ∈ keptEdits taken fixes ∨ ∃ kept ∈ keptEdits taken fixes, e.clashes kept = true := by
  induction fixes generalizing taken with
  | nil => simp at hfix
  | cons first fixes ih =>
    rw [keptEdits]
    rcases List.mem_cons.mp hfix with rfl | hfix
    · split_ifs with hclash
      · obtain ⟨kept, hkept, hclash⟩ : ∃ kept ∈ taken, e.clashes kept = true := by
          simpa [clashes, hedits] using hclash
        exact Or.inr ⟨kept, mem_keptEdits_of_mem hkept, hclash⟩
      · exact Or.inl (mem_keptEdits_of_mem (by simp [hedits]))
    · split_ifs
      · exact ih hfix
      · exact ih hfix

/-- Of fixes that offer edits in order, one each, all edits are kept, and each once. -/
theorem keptEdits_perm {order : List Edit} (hle : ∀ e ∈ order, e.range.start ≤ e.range.stop)
    (hordered : order.Pairwise Edit.Before)
    (hfixes : ∀ fix ∈ fixes, ∃ e ∈ order, fix.edits = [e])
    (hall : ∀ e ∈ order, ∃ fix ∈ fixes, fix.edits = [e]) :
    (keptEdits [] fixes).Perm order := by
  have hmem : ∀ e ∈ keptEdits [] fixes, e ∈ order := by
    intro e he
    rcases mem_of_mem_keptEdits he with he | ⟨fix, hfix, he⟩
    · simp at he
    · obtain ⟨e', he', hedits⟩ := hfixes fix hfix
      rw [hedits] at he
      obtain rfl := List.mem_singleton.mp he
      exact he'
  have hnodup : (keptEdits [] fixes).Nodup := by
    have hsingle : ∀ fix ∈ fixes, ∃ e, fix.edits = [e] := by
      intro fix hfix
      obtain ⟨e, -, hedits⟩ := hfixes fix hfix
      exact ⟨e, hedits⟩
    apply (pairwise_keptEdits hsingle List.Pairwise.nil).imp_of_mem
    rintro a b ha - hclash rfl
    rw [Edit.clashes_self (hle a (hmem a ha))] at hclash
    cases hclash
  have hapart : ∀ a ∈ order, ∀ b ∈ order, a ≠ b → a.clashes b = false := by
    have hpairwise := hordered.imp Edit.Before.not_clashes
    have : Std.Symm fun a b : Edit => a.clashes b = false ∧ b.clashes a = false :=
      ⟨fun _ _ h => h.symm⟩
    intro a ha b hb hne
    exact (hpairwise.forall ha hb hne).1
  have horder : order.Nodup := by
    apply hordered.imp
    rintro a b h rfl
    exact Position.lt_irrefl _ h.1
  rw [List.perm_ext_iff_of_nodup hnodup horder]
  intro e
  refine ⟨hmem e, fun he => ?_⟩
  obtain ⟨fix, hfix, hedits⟩ := hall e he
  rcases mem_keptEdits_or_clashes hfix hedits with hkept | ⟨kept, hkept, hclash⟩
  · exact hkept
  · by_cases hsame : e = kept
    · rw [hsame]
      exact hkept
    · rw [hapart e he kept (hmem kept hkept) hsame] at hclash
      cases hclash

end Fix

/-- Edits in order that diagnostics offer, one with each fix, go in together. -/
theorem Diagnostic.applyFixes?_eq {text result : List Char} {gs : List Diagnostic}
    {order : List Edit} (hle : ∀ e ∈ order, e.range.start ≤ e.range.stop)
    (hordered : order.Pairwise Edit.Before)
    (hfixes : ∀ g ∈ gs, ∀ fix ∈ g.fix, ∃ e ∈ order, fix.edits = [e])
    (hall : ∀ e ∈ order, ∃ g ∈ gs, ∃ fix ∈ g.fix, fix.edits = [e])
    (h : Edit.Replaces (Text.LineIndex.ofText text) 0 order text result) :
    Diagnostic.applyFixes? text gs = some result := by
  have hperm : (Fix.keptEdits [] (gs.filterMap (·.fix))).Perm order := by
    apply Fix.keptEdits_perm hle hordered
    · intro fix hfix
      obtain ⟨g, hg, hfix⟩ := List.mem_filterMap.mp hfix
      exact hfixes g hg fix hfix
    · intro e he
      obtain ⟨g, hg, fix, hfix, hedits⟩ := hall e he
      exact ⟨fix, List.mem_filterMap.mpr ⟨g, hg, hfix⟩, hedits⟩
  exact Edit.applyAll?_of_replaces hperm (hordered.imp And.left) h

theorem Diagnostic.applyFixes?_nil (text : List Char) :
    Diagnostic.applyFixes? text [] = some text := by
  simp [applyFixes?, Fix.applyAll?, Fix.keptEdits, Edit.applyAll?, Edit.backToFront]

/-- Whether the rules that settings turn on are of one kind. -/
structure Settings.EnablesOnly (s : Settings) (kind : RuleKind) : Prop where
  exists_rule : ∃ r ∈ s.lint.buildRules, r.isEnabled = true
  kind_eq : ∀ r ∈ s.lint.buildRules, r.isEnabled = true → r.kind = kind

theorem Check.eq_ofOptions {check : Check} {kind : RuleKind} (hkind : kind ≠ .leadingComma)
    (h : check.kind = kind) : check = .ofOptions none kind := by
  subst h
  cases check with
  | leadingComma position => exact absurd rfl hkind
  | _ => rfl

section OneKind

variable {s : Settings} {kind : RuleKind} {text : List Char}

theorem Settings.EnablesOnly.check_eq (h : s.EnablesOnly kind) (hkind : kind ≠ .leadingComma)
    {r : Rule} (hr : r ∈ s.lint.buildRules) (hon : r.isEnabled = true) :
    r.check = .ofOptions none kind :=
  Check.eq_ofOptions hkind (h.kind_eq r hr hon)

theorem exists_finding_of_enablesOnly (h : s.EnablesOnly kind) (hkind : kind ≠ .leadingComma)
    {g : Diagnostic} (hg : g ∈ lint s text) :
    ∃ f ∈ (Check.ofOptions none kind).findings (Document.parse text), g.fix = f.fix := by
  obtain ⟨r, hr, hon, -, f, hf, rfl⟩ := exists_finding_of_mem_lint hg
  rw [h.check_eq hkind hr hon] at hf
  exact ⟨f, hf, rfl⟩

theorem lint_eq_nil_of_findings (h : s.EnablesOnly kind) (hkind : kind ≠ .leadingComma)
    (hnone : (Check.ofOptions none kind).findings (Document.parse text) = []) :
    lint s text = [] := by
  rw [List.eq_nil_iff_forall_not_mem]
  intro g hg
  obtain ⟨f, hf, -⟩ := exists_finding_of_enablesOnly h hkind hg
  simp [hnone] at hf

theorem exists_mem_collect (h : s.EnablesOnly kind) (hkind : kind ≠ .leadingComma)
    (hblank : ¬(Document.parse text).isBlank = true) {f : Finding}
    (hf : f ∈ (Check.ofOptions none kind).findings (Document.parse text)) :
    ∃ g ∈ Linter.collect s.lint.buildRules (Document.parse text), g.fix = f.fix := by
  obtain ⟨r, hr, hon⟩ := h.exists_rule
  refine ⟨r.diagnose f, ?_, rfl⟩
  apply List.mem_flatMap_of_mem hr
  unfold Rule.diagnostics
  rw [if_pos ⟨hon, hblank⟩, h.check_eq hkind hr hon]
  exact List.mem_map_of_mem hf

theorem exists_mem_lint_of_finding (h : s.EnablesOnly kind) (hkind : kind ≠ .leadingComma)
    (hcap : (Linter.collect s.lint.buildRules (Document.parse text)).length ≤ s.maxProblems)
    (hblank : ¬(Document.parse text).isBlank = true) {f : Finding}
    (hf : f ∈ (Check.ofOptions none kind).findings (Document.parse text)) :
    ∃ g ∈ lint s text, g.fix = f.fix := by
  obtain ⟨g, hg, hfix⟩ := exists_mem_collect h hkind hblank hf
  refine ⟨g, ?_, hfix⟩
  unfold lint Settings.lintDocument Linter.run
  rw [List.take_of_length_le (by rwa [List.length_mergeSort]), List.mem_mergeSort]
  exact hg

theorem lint_ne_nil_of_finding (h : s.EnablesOnly kind) (hkind : kind ≠ .leadingComma)
    (hlimit : 0 < s.maxProblems) (hblank : ¬(Document.parse text).isBlank = true) {f : Finding}
    (hf : f ∈ (Check.ofOptions none kind).findings (Document.parse text)) :
    lint s text ≠ [] := by
  obtain ⟨g, hg, -⟩ := exists_mem_collect h hkind hblank hf
  intro hnil
  rcases List.take_eq_nil_iff.mp hnil with hzero | hnil
  · omega
  · rw [← List.mem_mergeSort, hnil] at hg
    simp at hg

/-- Whether each finding of a check offers one edit, and the edits turn a text into
another, going in together. -/
def Check.Rewrites (check : Check) (text result : List Char) : Prop :=
  ∃ order : List Edit,
    (check.findings (Document.parse text)).map (·.fix.map Fix.edits) =
      order.map (fun e => some [e]) ∧
    (∀ e ∈ order, e.range.start ≤ e.range.stop) ∧ order.Pairwise Edit.Before ∧
    Edit.Replaces (Text.LineIndex.ofText text) 0 order text result

/-- Where every finding is reported, the fixes turn the text into what the edits
turn it into. -/
theorem applyFixes?_lint (h : s.EnablesOnly kind) (hkind : kind ≠ .leadingComma)
    (hshown : ∀ f ∈ (Check.ofOptions none kind).findings (Document.parse text),
      ∃ g ∈ lint s text, g.fix = f.fix)
    {result : List Char} (hrewrites : (Check.ofOptions none kind).Rewrites text result) :
    Diagnostic.applyFixes? text (lint s text) = some result := by
  obtain ⟨order, hedits, hle, hordered, hreplaces⟩ := hrewrites
  apply Diagnostic.applyFixes?_eq hle hordered ?_ ?_ hreplaces
  · intro g hg fix hfix
    obtain ⟨f, hf, hsame⟩ := exists_finding_of_enablesOnly h hkind hg
    have hmem := List.mem_map_of_mem (f := fun f : Finding => f.fix.map Fix.edits) hf
    rw [hedits, ← hsame, hfix] at hmem
    obtain ⟨e, he, heq⟩ := List.mem_map.mp hmem
    exact ⟨e, he, (Option.some.inj heq).symm⟩
  · intro e he
    have hmem := List.mem_map_of_mem (f := fun e : Edit => some [e]) he
    rw [← hedits] at hmem
    obtain ⟨f, hf, heq⟩ := List.mem_map.mp hmem
    obtain ⟨g, hg, hsame⟩ := hshown f hf
    obtain ⟨fix, hfix, heq⟩ := Option.map_eq_some_iff.mp heq
    exact ⟨g, hg, fix, hsame.trans hfix, heq⟩

end OneKind

theorem Check.rewrites_of_nil {check : Check} {text : List Char}
    (h : check.findings (Document.parse text) = []) : check.Rewrites text text :=
  ⟨[], by rw [h]; rfl, by simp, List.Pairwise.nil, .nil 0 text⟩

theorem Edit.replaces_lexemes {text : List Char} {before cut after : List Lexeme}
    (h : lexemes text = before ++ cut ++ after) (newText : String) :
    let range : Range := ⟨Position.origin.advanceAll before,
      Position.origin.advanceAll (before ++ cut)⟩
    range.start ≤ range.stop ∧
      Edit.Replaces (Text.LineIndex.ofText text) 0 [⟨range, newText⟩] text
        (Lexeme.join before ++ newText.toList ++ Lexeme.join after) := by
  intro range
  have htext : text = Lexeme.join before ++ Lexeme.join cut ++ Lexeme.join after := by
    rw [← Lexeme.join_append, ← Lexeme.join_append, ← h, join_lexemes]
  have hspan : Edit.span (Text.LineIndex.ofText text) ⟨range, newText⟩ =
      ⟨0 + Text.byteLength (Lexeme.join before),
        0 + Text.byteLength (Lexeme.join before) + Text.byteLength (Lexeme.join cut)⟩ := by
    have hstart := offset_advanceAll (h.trans (List.append_assoc before cut after))
    have hstop := offset_advanceAll h
    rw [Lexeme.join_append, Text.byteLength_append] at hstop
    simp only [Edit.span, range, hstart, hstop, Nat.zero_add]
  constructor
  · simp only [range, Position.advanceAll_append]
    exact Position.le_advanceAll _ cut
  · nth_rewrite 2 [htext]
    exact .cons hspan (.nil _ _)

theorem Fix.applyTo?_replace {text : List Char} {before cut after : List Lexeme}
    (h : lexemes text = before ++ cut ++ after) (label newText : String) :
    (Fix.replace label ⟨Position.origin.advanceAll before,
      Position.origin.advanceAll (before ++ cut)⟩ newText).applyTo? text =
      some (Lexeme.join before ++ newText.toList ++ Lexeme.join after) :=
  Edit.applyAll?_of_replaces (List.Perm.refl _) (List.pairwise_singleton _ _)
    (Edit.replaces_lexemes h newText).2

theorem Check.rewrites_of_singleton {check : Check} {text : List Char}
    {before cut after : List Lexeme} (h : lexemes text = before ++ cut ++ after) {f : Finding}
    (hf : check.findings (Document.parse text) = [f]) {label newText : String}
    (hfix : f.fix = Fix.replace label ⟨Position.origin.advanceAll before,
      Position.origin.advanceAll (before ++ cut)⟩ newText) :
    check.Rewrites text (Lexeme.join before ++ newText.toList ++ Lexeme.join after) := by
  obtain ⟨hle, hreplaces⟩ := Edit.replaces_lexemes h newText
  refine ⟨[_], ?_, ?_, List.pairwise_singleton _ _, hreplaces⟩
  · rw [hf, List.map_singleton, hfix]
    rfl
  · simpa using hle

end QueryLint
