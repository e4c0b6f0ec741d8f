import QueryLint.Proofs.Config.Merge
import Mathlib.Tactic.SplitIfs

/-!
# Configurations that pass the check

The check of a configuration passes exactly when all presets and all rules that it
names exist. Where only rules are unknown, it names these, sorted, so that neither the
order in which the table was filled nor the one in which it is gone through shows. What
passes still does when it is laid over something that passes, and when the entry of a
rule is put in.
-/
namespace QueryLint

open Data (Table)

namespace RuleKind

theorem mem_names_iff {name : String} :
    (all.map RuleKind.name).contains name = true ↔ ∃ kind : RuleKind, kind.name = name := by
  rw [List.contains_iff_mem, List.mem_map]
  constructor
  · rintro ⟨kind, -, hname⟩
    exact ⟨kind, hname⟩
  · rintro ⟨kind, hname⟩
    exact ⟨kind, mem_all kind, hname⟩

end RuleKind

namespace LintConfig

/-- A configuration that names known presets and known rules only. -/
structure Valid (c : LintConfig) : Prop where
  presets : ∀ p, c.base? = some p → ∀ name ∈ p.names, name = Presets.recommended
  rules : ∀ name ∈ c.ruleNames, ∃ kind : RuleKind, kind.name = name

theorem presets_iff {c : LintConfig} :
    ((c.base?.map Presets.names).getD []).find? (· != Presets.recommended) = none ↔
      ∀ p, c.base? = some p → ∀ name ∈ p.names, name = Presets.recommended := by
  rw [List.find?_eq_none]
  cases c.base? with
  | none => simp
  | some p => simp

theorem unknown_isEmpty_iff {c : LintConfig} :
    (c.ruleNames.filter fun name =>
        !(RuleKind.all.map RuleKind.name).contains name).isEmpty = true ↔
      ∀ name ∈ c.ruleNames, ∃ kind : RuleKind, kind.name = name := by
  rw [List.isEmpty_iff, List.filter_eq_nil_iff]
  simp only [Bool.not_eq_true', Bool.not_eq_false, RuleKind.mem_names_iff]

theorem validate_eq_ok_iff {c : LintConfig} : c.validate = .ok () ↔ c.Valid := by
  unfold validate
  dsimp only
  cases hpreset : ((c.base?.map Presets.names).getD []).find? (· != Presets.recommended) with
  | some name =>
    constructor
    · intro h
      simp at h
    · intro h
      rw [presets_iff.mpr h.presets] at hpreset
      simp at hpreset
  | none =>
    have hpresets := presets_iff.mp hpreset
    dsimp only
    split_ifs with hunknown
    · exact ⟨fun _ => ⟨hpresets, unknown_isEmpty_iff.mp hunknown⟩, fun _ => rfl⟩
    · constructor
      · intro h
        simp at h
      · intro h
        exact absurd (unknown_isEmpty_iff.mpr h.rules) hunknown

theorem valid_recommended : recommended.Valid := by
  rw [← validate_eq_ok_iff]
  rfl

/-- Whether no rule has a name. -/
def isUnknown (name : String) : Bool :=
  !(RuleKind.all.map RuleKind.name).contains name

theorem isUnknown_iff {name : String} :
    isUnknown name = true ↔ ∀ kind : RuleKind, kind.name ≠ name := by
  rw [isUnknown, Bool.not_eq_true', Bool.eq_false_iff, ne_eq, RuleKind.mem_names_iff, not_exists]

theorem validate_of_presets {c : LintConfig}
    (h : ∀ p, c.base? = some p → ∀ name ∈ p.names, name = Presets.recommended) :
    c.validate = if (c.ruleNames.filter isUnknown).isEmpty then .ok ()
      else .error (.unknownRules (c.ruleNames.filter isUnknown)) := by
  unfold validate
  dsimp only
  rw [presets_iff.mpr h]
  rfl

/-- The unknown names are the same and come out sorted in whatever order they are
met. -/
theorem mergeSort_filter_isUnknown {c : LintConfig} {order : List String}
    (h : order.Perm c.ruleNames) :
    (order.filter isUnknown).mergeSort (fun a b => decide (a ≤ b)) =
      c.ruleNames.filter isUnknown := by
  have hperm : ((order.filter isUnknown).mergeSort fun a b => decide (a ≤ b)).Perm
      (c.ruleNames.filter isUnknown) :=
    (List.mergeSort_perm _ _).trans (h.filter _)
  have hsorted : ((order.filter isUnknown).mergeSort fun a b => decide (a ≤ b)).Pairwise
      (· ≤ ·) := by
    have hpairwise := @List.pairwise_mergeSort String (fun a b => decide (a ≤ b))
      (by simpa using fun a b c => @String.le_trans a b c)
      (by simpa using fun a b => @String.le_total a b) (order.filter isUnknown)
    simpa using hpairwise
  have hnames : (c.ruleNames.filter isUnknown).Pairwise (· ≤ ·) :=
    (c.table.pairwise_names.filter _).imp fun hlt => Std.le_of_lt hlt
  exact hperm.eq_of_pairwise (fun a b _ _ => String.le_antisymm) hsorted hnames

theorem Valid.merge {c upper : LintConfig} (hc : c.Valid) (hupper : upper.Valid) :
    (c.merge upper).Valid := by
  cases upper with
  | presets p => exact hupper
  | full base rules =>
    constructor
    · intro p hp
      rw [base?_merge_full, Option.or_eq_some_iff] at hp
      rcases hp with hp | ⟨-, hp⟩
      · exact hupper.presets p hp
      · exact hc.presets p hp
    · intro name hname
      rw [ruleNames, table_merge_full, Table.mem_names_extend] at hname
      rcases hname with hname | hname
      · exact hc.rules name hname
      · exact hupper.rules name hname

theorem Valid.withRule {c : LintConfig} (h : c.Valid) (kind : RuleKind) (entry : RuleEntry) :
    (c.withRule kind.name entry).Valid := by
  constructor
  · exact h.presets
  · intro name hname
    change name ∈ (c.table.insert kind.name entry).names at hname
    rcases Table.mem_names_insert.mp hname with rfl | hname
    · exact ⟨kind, rfl⟩
    · exact h.rules name hname

end LintConfig

/-- The check passes exactly the configurations that name known presets and known
rules only. If the presets are known and some rules are not, it lists just the names of
these, strictly ascending and so each once; the list is the same however the table is
filled, and whatever order its names are gone through before they are sorted. What
passes stays so when it is laid over a configuration that passes, and when the entry of
a rule is put in, whatever that entry says. -/
theorem validate_reports_unknown (c : LintConfig) :
    (c.validate = .ok () ↔
      (∀ p, c.base? = some p → ∀ name ∈ p.names, name = Presets.recommended) ∧
        ∀ name ∈ c.ruleNames, ∃ kind : RuleKind, kind.name = name) ∧
    ((∀ p, c.base? = some p → ∀ name ∈ p.names, name = Presets.recommended) →
      ¬(∀ name ∈ c.ruleNames, ∃ kind : RuleKind, kind.name = name) →
      ∃ names, c.validate = .error (.unknownRules names) ∧ names.Pairwise (· < ·) ∧
        (∀ name, name ∈ names ↔ name ∈ c.ruleNames ∧ ∀ kind : RuleKind, kind.name ≠ name) ∧
        (∀ entries : List (String × RuleEntry), entries.Perm c.table.entries →
          (LintConfig.full c.base? (Table.ofList entries)).validate =
            .error (.unknownRules names)) ∧
        (∀ order : List String, order.Perm c.ruleNames →
          (order.filter LintConfig.isUnknown).mergeSort (fun a b => decide (a ≤ b)) = names) ∧
        ∃ listed, (ConfigFault.unknownRules names).message =
          "Invalid lint rule name(s): " ++ ", ".intercalate names ++
            "\n\nValid rule names are:\n" ++ listed) ∧
    (∀ upper : LintConfig, c.validate = .ok () → upper.validate = .ok () →
      (c.merge upper).validate = .ok ()) ∧
    ∀ (kind : RuleKind) (entry : RuleEntry), c.validate = .ok () →
      (c.withRule kind.name entry).validate = .ok () := by
  refine ⟨?_, ?_, ?_, ?_⟩
  · rw [LintConfig.validate_eq_ok_iff]
    exact ⟨fun h => ⟨h.presets, h.rules⟩, fun h => ⟨h.1, h.2⟩⟩
  · intro hpresets hrules
    have hsome : ¬(c.ruleNames.filter LintConfig.isUnknown).isEmpty = true := by
      intro hnone
      exact hrules (LintConfig.unknown_isEmpty_iff.mp hnone)
    have hvalidate := LintConfig.validate_of_presets hpresets
    rw [if_neg hsome] at hvalidate
    refine ⟨_, hvalidate, c.table.pairwise_names.filter _, ?_, ?_, ?_, _, rfl⟩
    · intro name
      rw [List.mem_filter, LintConfig.isUnknown_iff]
    · intro entries hperm
      have hsame : (LintConfig.full c.base? c.table).validate = c.validate := by
        cases c <;> rfl
      rw [Table.ofList_eq_of_perm hperm, hsame, hvalidate]
    · intro order hperm
      exact LintConfig.mergeSort_filter_isUnknown hperm
  · intro upper hc hupper
    rw [LintConfig.validate_eq_ok_iff] at *
    exact hc.merge hupper
  · intro kind entry hc
    rw [LintConfig.validate_eq_ok_iff] at *
    exact hc.withRule kind entry

/-- Two unknown names out of order, between them a known one; presets under an entry,
a rule turned off on top, and an unknown preset behind a known one. -/
theorem validate_reports_unknown_sorted :
    let entries : List (String × RuleEntry) :=
      [("zeta", .plain .on), ("is-null", .plain .warn), ("Zeta", .instances [])]
    let c := LintConfig.full (some (.several [Presets.recommended])) (Table.ofList entries)
    let off := LintConfig.ofRules [("final-newline", .plain .off)]
    let strict := LintConfig.presets (.several [Presets.recommended, "strict"])
    c.validate = .error (.unknownRules ["Zeta", "zeta"]) ∧
      (["zeta", "is-null", "Zeta"].filter LintConfig.isUnknown).mergeSort
        (fun a b => decide (a ≤ b)) = ["Zeta", "zeta"] ∧
      (LintConfig.recommended.merge off).validate = .ok () ∧
      (off.withRule "is-null" (.instances [])).validate = .ok () ∧
      strict.validate = .error (.unknownPreset "strict") ∧ strict.validate ≠ .ok () := by
  intro entries c off strict
  have hpresets : ∀ p, c.base? = some p → ∀ name ∈ p.names, name = Presets.recommended := by
    rintro p hp name hname
    obtain rfl := Option.some.inj hp
    exact List.mem_singleton.mp hname
  have hrules : ¬∀ name ∈ c.ruleNames, ∃ kind : RuleKind, kind.name = name := by
    intro h
    obtain ⟨kind, hkind⟩ := h "zeta" (by decide)
    revert hkind
    cases kind <;> decide
  have hlisted : c.validate = .error (.unknownRules ["Zeta", "zeta"]) := rfl
  obtain ⟨names, hvalidate, -, -, -, horder, -⟩ :=
    (validate_reports_unknown c).2.1 hpresets hrules
  obtain rfl : names = ["Zeta", "zeta"] :=
    ConfigFault.unknownRules.inj (Except.error.inj (hvalidate.symm.trans hlisted))
  refine ⟨hlisted, horder _ (by decide), ?_, ?_, rfl, ?_⟩
  · exact (validate_reports_unknown _).2.2.1 off rfl rfl
  · exact (validate_reports_unknown off).2.2.2 .isNull (.instances []) rfl
  · rw [ne_eq, (validate_reports_unknown strict).1]
    rintro ⟨hknown, -⟩
    exact absurd (hknown _ rfl "strict" (by decide)) (by decide)

end QueryLint
