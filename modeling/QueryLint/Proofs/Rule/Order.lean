import QueryLint.Linter
import Mathlib.Data.Prod.Lex
import Mathlib.Data.String.Basic
import Mathlib.Data.List.Basic

/-!
# The order of diagnostics

Diagnostics are sorted by a key: where they start, then the name of their rule.
The sort is stable, so among diagnostics of one key the order of the rules
decides, and these are rules of one kind: no two kinds share a name. A list that
is sorted by key is determined by its parts with one key each
(`eq_of_filter_key`), so what the linter returns depends on the order of the
rules only as far as rules of one kind go. Each diagnostic that it returns reports
a finding of a rule that is on (`exists_finding_of_mem_lint`).
-/
namespace QueryLint

section Key

variable {α κ : Type} [LinearOrder κ] {key : α → κ} {xs ys : List α}

/-- The first element of a sorted list has the least key of its list, and of every
list with the same parts. -/
theorem key_le_of_filter {x y : α} (hxs : (x :: xs).Pairwise (key · ≤ key ·))
    (h : ∀ k, (x :: xs).filter (key · = k) = ys.filter (key · = k)) (hy : y ∈ ys) :
    key x ≤ key y := by
  have hmem : y ∈ ys.filter (key · = key y) := by simp [hy]
  rw [← h] at hmem
  rcases List.mem_cons.mp (List.mem_of_mem_filter hmem) with rfl | hmem
  · exact le_rfl
  · exact List.rel_of_pairwise_cons hxs hmem

theorem eq_of_filter_key (hxs : xs.Pairwise (key · ≤ key ·)) (hys : ys.Pairwise (key · ≤ key ·))
    (h : ∀ k, xs.filter (key · = k) = ys.filter (key · = k)) : xs = ys := by
  induction xs generalizing ys with
  | nil =>
    cases ys with
    | nil => rfl
    | cons y ys =>
      have hy := h (key y)
      simp at hy
  | cons x xs ih =>
    cases ys with
    | nil =>
      have hx := h (key x)
      simp at hx
    | cons y ys =>
      have hkey : key y = key x := by
        apply le_antisymm
        · exact key_le_of_filter hys (fun k => (h k).symm) List.mem_cons_self
        · exact key_le_of_filter hxs h List.mem_cons_self
      have hhead := h (key x)
      rw [List.filter_cons_of_pos (by simp), List.filter_cons_of_pos (by simp [hkey]),
        List.cons.injEq] at hhead
      rw [← hhead.1] at h hys ⊢
      congr 1
      apply ih hxs.of_cons hys.of_cons
      intro k
      have hk := h k
      by_cases hxk : key x = k
      · rw [List.filter_cons_of_pos (by simp [hxk]), List.filter_cons_of_pos (by simp [hxk]),
          List.cons.injEq] at hk
        exact hk.2
      · rwa [List.filter_cons_of_neg (by simp [hxk]), List.filter_cons_of_neg (by simp [hxk])] at hk

theorem filter_mergeSort_of_tied {α : Type*} {le : α → α → Bool}
    (htrans : ∀ a b c, le a b = true → le b c = true → le a c = true)
    (htotal : ∀ a b, (le a b || le b a) = true) {p : α → Bool}
    (htied : ∀ a b, p a = true → p b = true → le a b = true) (xs : List α) :
    (xs.mergeSort le).filter p = xs.filter p := by
  have hpairwise : (xs.filter p).Pairwise fun a b => le a b = true := by
    apply List.pairwise_of_forall_mem_list
    intro a ha b hb
    exact htied a b (List.of_mem_filter ha) (List.of_mem_filter hb)
  have hsublist := (List.sublist_mergeSort htrans htotal hpairwise List.filter_sublist).filter p
  rw [List.filter_filter] at hsublist
  simp only [Bool.and_self] at hsublist
  symm
  apply hsublist.eq_of_length
  exact ((List.mergeSort_perm xs le).filter _).length_eq.symm

end Key

namespace Diagnostic

/-- What diagnostics are sorted by: line and column of their start, and the name
of their rule. -/
def sortKey (g : Diagnostic) : ℕ ×ₗ ℕ ×ₗ String :=
  toLex (g.range.start.line, toLex (g.range.start.character, g.source))

theorem ordered_iff (a b : Diagnostic) : ordered a b = true ↔ a.sortKey ≤ b.sortKey := by
  have hpos : a.range.start = b.range.start ↔
      a.range.start.line = b.range.start.line ∧
        a.range.start.character = b.range.start.character := by
    constructor
    · intro h
      rw [h]
      exact ⟨rfl, rfl⟩
    · rintro ⟨hline, hcharacter⟩
      exact Position.ext hline hcharacter
  simp only [ordered, sortKey, Prod.Lex.toLex_le_toLex, Bool.or_eq_true, Bool.and_eq_true,
    decide_eq_true_eq, beq_iff_eq, hpos, Position.lt_def]
  tauto

theorem ordered_trans (a b c : Diagnostic) (hab : ordered a b = true) (hbc : ordered b c = true) :
    ordered a c = true := by
  rw [ordered_iff] at *
  exact le_trans hab hbc

theorem ordered_total (a b : Diagnostic) : (ordered a b || ordered b a) = true := by
  rw [Bool.or_eq_true, ordered_iff, ordered_iff]
  exact le_total _ _

theorem pairwise_sorted (gs : List Diagnostic) :
    (gs.mergeSort ordered).Pairwise fun a b => a.sortKey ≤ b.sortKey := by
  apply (List.pairwise_mergeSort ordered_trans ordered_total gs).imp
  intro a b h
  exact (ordered_iff a b).mp h

/-- The sort is stable: diagnostics of one key keep their order. -/
theorem filter_sorted (gs : List Diagnostic) (key : ℕ ×ₗ ℕ ×ₗ String) :
    (gs.mergeSort ordered).filter (·.sortKey = key) = gs.filter (·.sortKey = key) := by
  apply filter_mergeSort_of_tied ordered_trans ordered_total
  intro a b ha hb
  rw [ordered_iff, of_decide_eq_true ha, of_decide_eq_true hb]

theorem sorted_eq_of_filter {gs hs : List Diagnostic}
    (h : ∀ key, gs.filter (·.sortKey = key) = hs.filter (·.sortKey = key)) :
    gs.mergeSort ordered = hs.mergeSort ordered := by
  apply eq_of_filter_key (pairwise_sorted gs) (pairwise_sorted hs)
  intro key
  rw [filter_sorted, filter_sorted, h]

end Diagnostic
theorem RuleKind.name_injective : Function.Injective RuleKind.name := by
  intro k l h
  have hfound := RuleKind.ofName?_name k
  rw [h, RuleKind.ofName?_name] at hfound
  exact (Option.some.inj hfound).symm

theorem Rule.exists_finding_of_mem_diagnostics {r : Rule} {d : Document} {g : Diagnostic}
    (h : g ∈ r.diagnostics d) :
    r.isEnabled = true ∧ ¬d.isBlank = true ∧ ∃ f ∈ r.check.findings d, g = r.diagnose f := by
  unfold Rule.diagnostics at h
  split_ifs at h with hon
  · obtain ⟨f, hf, rfl⟩ := List.mem_map.mp h
    exact ⟨hon.1, hon.2, f, hf, rfl⟩
  · simp at h

/-- Each diagnostic of a text reports a finding of a rule that is on. -/
theorem exists_finding_of_mem_lint {s : Settings} {text : List Char} {g : Diagnostic}
    (h : g ∈ lint s text) :
    ∃ r ∈ s.lint.buildRules, r.isEnabled = true ∧ ¬(Document.parse text).isBlank = true ∧
      ∃ f ∈ r.check.findings (Document.parse text), g = r.diagnose f := by
  have hmem : g ∈ Linter.collect s.lint.buildRules (Document.parse text) :=
    List.mem_mergeSort.mp (List.mem_of_mem_take h)
  obtain ⟨r, hr, hg⟩ := List.mem_flatMap.mp hmem
  exact ⟨r, hr, Rule.exists_finding_of_mem_diagnostics hg⟩

theorem lint_eq_nil_of_isBlank {text : List Char} (s : Settings)
    (h : (Document.parse text).isBlank = true) : lint s text = [] := by
  rw [List.eq_nil_iff_forall_not_mem]
  intro g hg
  obtain ⟨r, -, -, hblank, -⟩ := exists_finding_of_mem_lint hg
  exact hblank h

namespace Linter

theorem source_of_mem_diagnostics {r : Rule} {d : Document} {g : Diagnostic}
    (h : g ∈ r.diagnostics d) : g.source = r.kind.name := by
  obtain ⟨-, -, f, -, rfl⟩ := r.exists_finding_of_mem_diagnostics h
  rfl

theorem filter_collect (rules : List Rule) (d : Document) {p : Diagnostic → Bool} {name : String}
    (hp : ∀ g, p g = true → g.source = name) :
    (collect rules d).filter p =
      (collect (rules.filter (·.kind.name = name)) d).filter p := by
  induction rules with
  | nil => rfl
  | cons r rules ih =>
    simp only [collect, List.flatMap_cons, List.filter_append] at ih ⊢
    by_cases hr : r.kind.name = name
    · rw [List.filter_cons_of_pos (by simpa using hr), List.flatMap_cons, List.filter_append, ih]
    · have hnone : (r.diagnostics d).filter p = [] := by
        rw [List.filter_eq_nil_iff]
        intro g hg hpg
        exact hr ((source_of_mem_diagnostics hg).symm.trans (hp g hpg))
      rw [List.filter_cons_of_neg (by simpa using hr), hnone, List.nil_append, ih]

theorem filter_name_of_kind {rules rules' : List Rule}
    (h : ∀ kind, rules'.filter (·.kind = kind) = rules.filter (·.kind = kind)) (name : String) :
    rules'.filter (·.kind.name = name) = rules.filter (·.kind.name = name) := by
  by_cases hname : ∃ kind : RuleKind, kind.name = name
  · obtain ⟨kind, rfl⟩ := hname
    simp only [RuleKind.name_injective.eq_iff]
    exact h kind
  · have hnone : ∀ rules : List Rule, rules.filter (·.kind.name = name) = [] := by
      intro rules
      rw [List.filter_eq_nil_iff]
      intro r _ hr
      exact hname ⟨r.kind, by simpa using hr⟩
    rw [hnone, hnone]

theorem sorted_collect_of_kind {rules rules' : List Rule} (d : Document)
    (h : ∀ kind, rules'.filter (·.kind = kind) = rules.filter (·.kind = kind)) :
    (collect rules' d).mergeSort Diagnostic.ordered =
      (collect rules d).mergeSort Diagnostic.ordered := by
  apply Diagnostic.sorted_eq_of_filter
  intro key
  have hsource : ∀ g : Diagnostic, decide (g.sortKey = key) = true →
      g.source = (ofLex (ofLex key).2).2 := by
    intro g hg
    rw [← of_decide_eq_true hg]
    rfl
  rw [filter_collect rules' d hsource, filter_collect rules d hsource, filter_name_of_kind h]

theorem collect_filter_isEnabled (rules : List Rule) (d : Document) :
    collect (rules.filter (·.isEnabled)) d = collect rules d := by
  induction rules with
  | nil => rfl
  | cons r rules ih =>
    unfold collect at ih ⊢
    by_cases hr : r.isEnabled = true
    · rw [List.filter_cons_of_pos hr, List.flatMap_cons, List.flatMap_cons, ih]
    · have hnone : r.diagnostics d = [] := by simp [Rule.diagnostics, hr]
      rw [List.filter_cons_of_neg hr, List.flatMap_cons, hnone, List.nil_append, ih]

end Linter

namespace LintConfig

theorem kind_of_mem_rulesOf {kind : RuleKind} {settings : List RuleSetting} {r : Rule}
    (h : r ∈ rulesOf kind settings) : r.kind = kind := by
  unfold rulesOf at h
  split_ifs at h
  · obtain rfl := List.mem_singleton.mp h
    exact Check.kind_ofOptions _ kind
  · obtain ⟨pair, -, rfl⟩ := List.mem_map.mp h
    exact Check.kind_ofOptions _ kind

theorem filter_kind_rulesOf (c : LintConfig) (kinds : List RuleKind) (kind : RuleKind) :
    (kinds.flatMap fun k => rulesOf k (c.settings k.name)).filter (·.kind = kind) =
      (List.replicate (kinds.count kind) (rulesOf kind (c.settings kind.name))).flatten := by
  induction kinds with
  | nil => rfl
  | cons k kinds ih =>
    rw [List.flatMap_cons, List.filter_append, ih]
    by_cases hk : k = kind
    · subst hk
      have hall : (rulesOf k (c.settings k.name)).filter (·.kind = k) =
          rulesOf k (c.settings k.name) := by
        rw [List.filter_eq_self]
        intro r hr
        simpa using kind_of_mem_rulesOf hr
      rw [hall, List.count_cons_self, List.replicate_succ, List.flatten_cons]
    · have hnone : (rulesOf k (c.settings k.name)).filter (·.kind = kind) = [] := by
        rw [List.filter_eq_nil_iff]
        intro r hr hkind
        exact hk ((kind_of_mem_rulesOf hr).symm.trans (by simpa using hkind))
      rw [hnone, List.count_cons_of_ne hk, List.nil_append]

end LintConfig

/-- What the linter returns is a beginning of one list, as long as the limit
allows: all that the rules which are on report, sorted. Rules may change places
with rules of other kinds, so it does not matter in which order the kinds are
listed. -/
theorem run_orders_findings (d : Document) (rules : List Rule) :
    (∃ all : List Diagnostic,
      all.Perm ((rules.filter (·.isEnabled)).flatMap (·.diagnostics d)) ∧
      ∀ limit, Linter.run rules limit d = all.take (min limit all.length)) ∧
    (∀ limit, (Linter.run rules limit d).Pairwise fun a b => a.sortKey ≤ b.sortKey) ∧
    (∀ small large, small ≤ large → Linter.run rules small d <+: Linter.run rules large d) ∧
    (∀ rules', (∀ kind, rules'.filter (·.kind = kind) = rules.filter (·.kind = kind)) →
      ∀ limit, Linter.run rules' limit d = Linter.run rules limit d) ∧
    ∀ (c : LintConfig) (kinds : List RuleKind), kinds.Perm RuleKind.all → ∀ limit,
      Linter.run (kinds.flatMap fun kind => LintConfig.rulesOf kind (c.settings kind.name)) limit d =
        Linter.run c.buildRules limit d := by
  have hreorder : ∀ rules rules' : List Rule,
      (∀ kind, rules'.filter (·.kind = kind) = rules.filter (·.kind = kind)) →
      ∀ limit, Linter.run rules' limit d = Linter.run rules limit d := by
    intro rules rules' h limit
    unfold Linter.run
    rw [Linter.sorted_collect_of_kind d h]
  refine ⟨⟨(Linter.collect rules d).mergeSort Diagnostic.ordered, ?_, ?_⟩, ?_, ?_, ?_, ?_⟩
  · exact Linter.collect_filter_isEnabled rules d ▸ List.mergeSort_perm _ _
  · intro limit
    exact List.take_eq_take_min
  · intro limit
    exact (Diagnostic.pairwise_sorted _).sublist (List.take_sublist _ _)
  · intro small large h
    exact List.take_prefix_take_left h
  · exact hreorder rules
  · intro c kinds hperm limit
    apply hreorder
    intro kind
    rw [LintConfig.buildRules, LintConfig.filter_kind_rulesOf, LintConfig.filter_kind_rulesOf,
      hperm.count_eq]

/-- Two rules of different kinds trade places, and the kinds are listed backwards. -/
theorem run_orders_findings_swapped :
    let trailing := Rule.ofSetting .trailingWhitespace ⟨.on, none⟩ 0
    let final := Rule.ofSetting .finalNewline ⟨.on, none⟩ 0
    let d := Document.parse "a ".toList
    (∀ kind : RuleKind, [final, trailing].filter (·.kind = kind) =
      [trailing, final].filter (·.kind = kind)) ∧
    Linter.run [final, trailing] 2 d = Linter.run [trailing, final] 2 d ∧
    Linter.run [trailing, final] 1 d <+: Linter.run [trailing, final] 2 d ∧
    Linter.run (RuleKind.all.reverse.flatMap fun kind =>
        LintConfig.rulesOf kind (LintConfig.recommended.settings kind.name)) 2 d =
      Linter.run LintConfig.recommended.buildRules 2 d := by
  intro trailing final d
  have hkinds : ∀ kind : RuleKind, [final, trailing].filter (·.kind = kind) =
      [trailing, final].filter (·.kind = kind) := by
    intro kind
    cases kind <;> rfl
  obtain ⟨-, -, hprefix, hreorder, hlisted⟩ := run_orders_findings d [trailing, final]
  exact ⟨hkinds, hreorder _ hkinds 2, hprefix 1 2 (by decide),
    hlisted LintConfig.recommended _ (List.reverse_perm _) 2⟩

end QueryLint
