import QueryLint.Config.Lint
import QueryLint.Proofs.Data.Table

/-!
# The algebra of configurations laid over one another

Of two configurations that are laid over one another, the presets of the upper one
count if it has any, and so do its entries. So the configuration that says nothing is
neutral, a configuration laid over itself is itself, and it makes no difference which
two of three are put together first, as long as the one in the middle is no choice of
presets: such a choice forgets what lies below it.
-/
namespace QueryLint

open Data (Table)

namespace LintConfig

variable (c : LintConfig) (base : Option Presets) (rules : Table RuleEntry)

theorem merge_empty : c.merge empty = c := by
  simp [merge, empty, Table.isEmpty_iff]

theorem merge_full (h : full base rules ≠ empty) :
    c.merge (full base rules) = full (base.or c.base?) (c.table.extend rules) := by
  have hsays : ¬(base = none ∧ rules.isEmpty = true) := by
    rintro ⟨rfl, hempty⟩
    exact h (by rw [Table.isEmpty_iff.mp hempty]; rfl)
  simp only [merge, if_neg hsays]

/-- Whether or not the upper configuration says something, its presets count before
those below. -/
@[simp]
theorem base?_merge_full : (c.merge (full base rules)).base? = base.or c.base? := by
  by_cases h : full base rules = empty
  · obtain ⟨rfl, rfl⟩ := full.inj h
    exact congrArg base? c.merge_empty
  · exact congrArg base? (c.merge_full base rules h)

@[simp]
theorem table_merge_full : (c.merge (full base rules)).table = c.table.extend rules := by
  by_cases h : full base rules = empty
  · obtain ⟨rfl, rfl⟩ := full.inj h
    exact congrArg table c.merge_empty
  · exact congrArg table (c.merge_full base rules h)

theorem empty_merge : empty.merge c = c := by
  cases c with
  | presets p => rfl
  | full base rules =>
    by_cases h : full base rules = empty
    · rw [h, merge_empty]
    · simp [merge_full _ base rules h, empty, base?, table, Table.empty_extend]

theorem merge_self : c.merge c = c := by
  cases c with
  | presets p => rfl
  | full base rules =>
    by_cases h : full base rules = empty
    · rw [h, merge_empty]
    · simp [merge_full _ base rules h, base?, table, Table.extend_self]

theorem full_or_extend_ne_empty (h : full base rules ≠ empty) (below : Option Presets)
    (table : Table RuleEntry) : full (base.or below) (table.extend rules) ≠ empty := by
  intro hempty
  obtain ⟨hbase, htable⟩ := full.inj hempty
  apply h
  rw [(Option.or_eq_none_iff.mp hbase).1, Table.eq_empty_of_extend htable]
  rfl

theorem merge_assoc (a : LintConfig) :
    (a.merge (full base rules)).merge c = a.merge ((full base rules).merge c) := by
  cases c with
  | presets p => rfl
  | full upper entries =>
    by_cases hmiddle : full base rules = empty
    · simp only [hmiddle, merge_empty, empty_merge]
    · by_cases hupper : full upper entries = empty
      · simp only [hupper, merge_empty]
      · have htogether := full_or_extend_ne_empty upper entries hupper base rules
        simp only [merge_full _ _ _ hmiddle, merge_full _ _ _ hupper, base?, table,
          merge_full _ _ _ htogether, Option.or_assoc, Table.extend_assoc]

end LintConfig

/-- Laying configurations over one another has the configuration that says nothing as
its neutral element, on both sides; it is idempotent; and it is associative wherever the
configuration in the middle is one of entries, with or without presets, or says
nothing. -/
theorem merge_algebra (c : LintConfig) :
    LintConfig.empty.merge c = c ∧ c.merge LintConfig.empty = c ∧ c.merge c = c ∧
      ∀ (a : LintConfig) (base : Option Presets) (rules : Table RuleEntry),
        (a.merge (.full base rules)).merge c = a.merge ((LintConfig.full base rules).merge c) :=
  ⟨c.empty_merge, c.merge_empty, c.merge_self, fun a base rules => c.merge_assoc base rules a⟩

end QueryLint
