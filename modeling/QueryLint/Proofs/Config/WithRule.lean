import QueryLint.Proofs.Data.Table
import QueryLint.Proofs.Rule.Order

/-!
# Changing the entry of one rule

A rule's settings come from its own entry or from presets, and an entry that is
put in keeps the presets. So it changes the rules of its own kind only, and the
diagnostics with another source stay what they are and where they are: removing
diagnostics and sorting them go together (`Diagnostic.sorted_filter`).
-/
namespace QueryLint

theorem Diagnostic.sorted_filter (p : Diagnostic → Bool) (gs : List Diagnostic) :
    (gs.mergeSort ordered).filter p = (gs.filter p).mergeSort ordered := by
  apply eq_of_filter_key ((pairwise_sorted gs).filter p) (pairwise_sorted (gs.filter p))
  intro key
  rw [filter_sorted, List.filter_comm, filter_sorted, List.filter_comm]

namespace Linter

/-- Diagnostics of other sources come from the rules with other names. -/
theorem filter_source_collect (rules : List Rule) (d : Document) (name : String) :
    (collect rules d).filter (·.source ≠ name) =
      collect (rules.filter (·.kind.name ≠ name)) d := by
  induction rules with
  | nil => rfl
  | cons r rules ih =>
    simp only [collect, List.flatMap_cons, List.filter_append] at ih ⊢
    by_cases hr : r.kind.name = name
    · have hnone : (r.diagnostics d).filter (·.source ≠ name) = [] := by
        rw [List.filter_eq_nil_iff]
        intro g hg
        simp [source_of_mem_diagnostics hg, hr]
      rw [List.filter_cons_of_neg (by simpa using hr), hnone, List.nil_append, ih]
    · have hall : (r.diagnostics d).filter (·.source ≠ name) = r.diagnostics d := by
        rw [List.filter_eq_self]
        intro g hg
        simpa [source_of_mem_diagnostics hg] using hr
      rw [List.filter_cons_of_pos (by simpa using hr), List.flatMap_cons, hall, ih]

theorem filter_source_run (rules : List Rule) (d : Document) (name : String) {limit : Nat}
    (h : (collect rules d).length ≤ limit) :
    (run rules limit d).filter (·.source ≠ name) =
      (collect (rules.filter (·.kind.name ≠ name)) d).mergeSort Diagnostic.ordered := by
  unfold run
  rw [List.take_of_length_le (by rwa [List.length_mergeSort]), Diagnostic.sorted_filter,
    filter_source_collect]

end Linter

namespace LintConfig

variable (c : LintConfig) (name : String) (entry : RuleEntry)

theorem settings_withRule_of_ne {other : String} (h : other ≠ name) :
    (c.withRule name entry).settings other = c.settings other := by
  have hentry : (c.withRule name entry).table.get? other = c.table.get? other := by
    change (c.table.insert name entry).get? other = _
    rw [Data.Table.get?_insert, if_neg h]
  have hbase : (c.withRule name entry).base? = c.base? := rfl
  unfold settings level?
  rw [hentry, hbase]

theorem filter_buildRules_withRule :
    (c.withRule name entry).buildRules.filter (·.kind.name ≠ name) =
      c.buildRules.filter (·.kind.name ≠ name) := by
  unfold buildRules
  rw [List.filter_flatMap, List.filter_flatMap]
  congr 1
  funext kind
  by_cases hkind : kind.name = name
  · have hnone : ∀ settings, (rulesOf kind settings).filter (·.kind.name ≠ name) = [] := by
      intro settings
      rw [List.filter_eq_nil_iff]
      intro r hr
      simp [kind_of_mem_rulesOf hr, hkind]
    rw [hnone, hnone]
  · rw [settings_withRule_of_ne c name entry hkind]

theorem buildRules_withRule_of_unknown (h : RuleKind.ofName? name = none) :
    (c.withRule name entry).buildRules = c.buildRules := by
  unfold buildRules
  congr 1
  funext kind
  have hkind : kind.name ≠ name := by
    rintro rfl
    rw [RuleKind.ofName?_name] at h
    simp at h
  rw [settings_withRule_of_ne c name entry hkind]

theorem merge_ofRules_singleton : c.merge (.ofRules [(name, entry)]) = c.withRule name entry := by
  have hone : (Data.Table.ofList [(name, entry)]).isEmpty = false := rfl
  simp only [merge, ofRules, hone, Bool.false_eq_true, and_false, if_false]
  rfl

end LintConfig

/-- The entry of a rule makes no difference to other rules. With any entry put in
for a name, the diagnostics of other sources are the same and in the same order,
if no limit cuts diagnostics off; and an entry for a name that no rule has makes
no difference at all, put in or laid over. -/
theorem lint_withRule (c : LintConfig) (name : String) (entry : RuleEntry) (text : List Char) :
    (∀ limit limit' : Nat,
      (Linter.collect c.buildRules (Document.parse text)).length ≤ limit →
      (Linter.collect (c.withRule name entry).buildRules (Document.parse text)).length ≤ limit' →
      (lint ⟨limit', c.withRule name entry⟩ text).filter (·.source ≠ name) =
        (lint ⟨limit, c⟩ text).filter (·.source ≠ name)) ∧
    (RuleKind.ofName? name = none → ∀ limit : Nat,
      lint ⟨limit, c.withRule name entry⟩ text = lint ⟨limit, c⟩ text ∧
      lint ⟨limit, c.merge (.ofRules [(name, entry)])⟩ text = lint ⟨limit, c⟩ text) := by
  constructor
  · intro limit limit' hlimit hlimit'
    unfold lint Settings.lintDocument
    rw [Linter.filter_source_run _ _ name hlimit', Linter.filter_source_run _ _ name hlimit,
      LintConfig.filter_buildRules_withRule]
  · intro hname limit
    have hsame : lint ⟨limit, c.withRule name entry⟩ text = lint ⟨limit, c⟩ text := by
      unfold lint Settings.lintDocument
      rw [LintConfig.buildRules_withRule_of_unknown c name entry hname]
    rw [LintConfig.merge_ofRules_singleton]
    exact ⟨hsame, hsame⟩

/-- Presets with one rule turned off, and with an entry for a rule that there is
not. -/
theorem lint_withRule_off :
    let c := LintConfig.recommended
    let d := Document.parse "select a, \nfrom t\n".toList
    let off := c.withRule "trailing-whitespace" (.plain .off)
    (Linter.collect c.buildRules d).length = 2 ∧ (Linter.collect off.buildRules d).length = 1 ∧
      (lint ⟨1, off⟩ d.text).filter (·.source ≠ "trailing-whitespace") =
        (lint ⟨2, c⟩ d.text).filter (·.source ≠ "trailing-whitespace") ∧
      RuleKind.ofName? "trailing" = none ∧
      lint ⟨1, c.withRule "trailing" (.plain .off)⟩ d.text = lint ⟨1, c⟩ d.text := by
  intro c d off
  have hall : (Linter.collect c.buildRules d).length = 2 := by decide +kernel
  have hoff : (Linter.collect off.buildRules d).length = 1 := by decide +kernel
  have hname : RuleKind.ofName? "trailing" = none := by decide
  refine ⟨hall, hoff, ?_, hname, ?_⟩
  · exact (lint_withRule c "trailing-whitespace" (.plain .off) d.text).1 2 1
      (Nat.le_of_eq hall) (Nat.le_of_eq hoff)
  · exact ((lint_withRule c "trailing" (.plain .off) d.text).2 hname 1).1

end QueryLint
