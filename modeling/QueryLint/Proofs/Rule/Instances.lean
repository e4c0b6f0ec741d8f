import QueryLint.Proofs.Config.Resolve
import QueryLint.Proofs.Config.WithRule
import QueryLint.Proofs.Edit.OneKind

/-!
# Instances that repeat one another

A rule with several instances of one setting reports everything several times, and the
reports stand among those of other rules. Of a fix that is offered again, no edit is
kept: it clashes with its own edit, or with the one that its edit has clashed with
before. So the edits that are kept are those of the diagnostics without repetitions
(`Fix.keptEdits_eraseDups`), and these are the same for one instance and for many.
-/
namespace QueryLint

section EraseDups

variable {α β : Type} [BEq α]

theorem eraseDups_induction {motive : List α → Prop} (nil : motive [])
    (cons : ∀ x xs, motive (xs.filter fun y => !y == x) → motive (x :: xs)) (xs : List α) :
    motive xs := by
  match xs with
  | [] => exact nil
  | x :: xs => exact cons x xs (eraseDups_induction nil cons _)
termination_by xs.length
decreasing_by exact Nat.lt_succ_of_le (List.length_filter_le _ _)

theorem eraseDups_sublist (xs : List α) : xs.eraseDups.Sublist xs := by
  induction xs using eraseDups_induction with
  | nil => exact List.Sublist.refl []
  | cons x xs ih =>
    rw [List.eraseDups_cons]
    exact (ih.trans List.filter_sublist).cons_cons x

variable [LawfulBEq α] {xs ys xs' ys' : List α}

theorem filter_eraseDups (p : α → Bool) (xs : List α) :
    xs.eraseDups.filter p = (xs.filter p).eraseDups := by
  induction xs using eraseDups_induction with
  | nil => rfl
  | cons x xs ih =>
    rw [List.eraseDups_cons]
    by_cases hp : p x = true
    · rw [List.filter_cons_of_pos hp, List.filter_cons_of_pos hp, List.eraseDups_cons, ih,
        List.filter_comm]
    · have hsame : (xs.filter fun y => !y == x).filter p = xs.filter p := by
        rw [List.filter_filter]
        apply List.filter_congr
        intro y _
        by_cases hy : y = x
        · simp [hy, hp]
        · simp [hy]
      rw [List.filter_cons_of_neg hp, List.filter_cons_of_neg hp, ih, hsame]

theorem eraseDups_append_congr (hxs : xs.eraseDups = xs'.eraseDups)
    (hys : ys.eraseDups = ys'.eraseDups) : (xs ++ ys).eraseDups = (xs' ++ ys').eraseDups := by
  have hmem : ∀ y, xs.elem y = xs'.elem y := by
    intro y
    simp only [List.elem_eq_mem, decide_eq_decide]
    rw [← List.mem_eraseDups, hxs, List.mem_eraseDups]
  rw [List.eraseDups_append, List.eraseDups_append, hxs]
  congr 1
  unfold List.removeAll
  simp only [hmem, ← filter_eraseDups, hys]

theorem eraseDups_flatMap_congr {f g : β → List α} (h : ∀ b, (f b).eraseDups = (g b).eraseDups)
    (bs : List β) : (bs.flatMap f).eraseDups = (bs.flatMap g).eraseDups := by
  induction bs with
  | nil => rfl
  | cons b bs ih =>
    rw [List.flatMap_cons, List.flatMap_cons]
    exact eraseDups_append_congr (h b) ih

theorem eraseDups_flatten_replicate (k : Nat) (xs : List α) :
    (List.replicate (k + 1) xs).flatten.eraseDups = xs.eraseDups := by
  have hnone : (List.replicate k xs).flatten.removeAll xs = [] := by
    unfold List.removeAll
    rw [List.filter_eq_nil_iff]
    intro y hy
    obtain ⟨zs, hzs, hy⟩ := List.mem_flatten.mp hy
    rw [List.eq_of_mem_replicate hzs] at hy
    simp [hy]
  rw [List.replicate_succ, List.flatten_cons, List.eraseDups_append, hnone]
  simp

end EraseDups

theorem Diagnostic.eraseDups_sorted {gs hs : List Diagnostic} (h : gs.eraseDups = hs.eraseDups) :
    (gs.mergeSort ordered).eraseDups = (hs.mergeSort ordered).eraseDups := by
  apply eq_of_filter_key ((pairwise_sorted gs).sublist (eraseDups_sublist _))
    ((pairwise_sorted hs).sublist (eraseDups_sublist _))
  intro key
  rw [filter_eraseDups, filter_eraseDups, filter_sorted, filter_sorted, ← filter_eraseDups, h,
    filter_eraseDups]

namespace Fix

variable {taken : List Edit} {fix : Fix}

theorem clashes_append (h : fix.clashes taken = true) (more : List Edit) :
    fix.clashes (taken ++ more) = true := by
  simp only [clashes, List.any_append, List.any_eq_true, Bool.or_eq_true] at h ⊢
  obtain ⟨e, he, hclash⟩ := h
  exact ⟨e, he, Or.inl hclash⟩

/-- Leaving out fixes that clash with an edit taken before makes no difference. -/
theorem keptEdits_filter {p : Diagnostic → Bool} {gs : List Diagnostic}
    (h : ∀ g ∈ gs, p g = false → ∀ fix ∈ g.fix, fix.clashes taken = true) :
    keptEdits taken ((gs.filter p).filterMap (·.fix)) = keptEdits taken (gs.filterMap (·.fix)) := by
  induction gs generalizing taken with
  | nil => rfl
  | cons g gs ih =>
    obtain ⟨hg, hgs⟩ := List.forall_mem_cons.mp h
    have hmore : ∀ more, keptEdits (taken ++ more) ((gs.filter p).filterMap (·.fix)) =
        keptEdits (taken ++ more) (gs.filterMap (·.fix)) := by
      intro more
      apply ih
      intro g' hg' hp fix hfix
      exact clashes_append (hgs g' hg' hp fix hfix) more
    cases hfix : g.fix with
    | none => by_cases hp : p g = true <;> simp [hp, hfix, ih hgs]
    | some fix =>
      by_cases hp : p g = true
      · simp only [List.filter_cons_of_pos hp, List.filterMap_cons, hfix, keptEdits, ih hgs, hmore]
      · have hclash := hg (by simpa using hp) fix hfix
        simp only [List.filter_cons_of_neg hp, List.filterMap_cons, hfix, keptEdits, hclash,
          if_true, ih hgs]

/-- Once a fix has had its turn, it clashes with an edit that is taken. -/
theorem exists_taken (hedits : ∃ e : Edit, fix.edits = [e] ∧ e.range.start ≤ e.range.stop)
    (taken : List Edit) : ∃ taken', fix.clashes taken' = true ∧
      ∀ fixes, keptEdits taken (fix :: fixes) = keptEdits taken' fixes := by
  by_cases hclash : fix.clashes taken = true
  · exact ⟨taken, hclash, fun fixes => by rw [keptEdits, if_pos hclash]⟩
  · refine ⟨taken ++ fix.edits, ?_, fun fixes => by rw [keptEdits, if_neg hclash]⟩
    obtain ⟨e, he, hle⟩ := hedits
    simp [clashes, he, Edit.clashes_self hle]

/-- Of diagnostics that repeat one another, the edits that are kept are those of the
diagnostics without repetitions. -/
theorem keptEdits_eraseDups {gs : List Diagnostic}
    (hedits : ∀ g ∈ gs, ∀ fix ∈ g.fix, ∃ e : Edit,
      fix.edits = [e] ∧ e.range.start ≤ e.range.stop) :
    keptEdits taken (gs.eraseDups.filterMap (·.fix)) = keptEdits taken (gs.filterMap (·.fix)) := by
  induction gs using eraseDups_induction generalizing taken with
  | nil => rfl
  | cons g gs ih =>
    obtain ⟨hg, hgs⟩ := List.forall_mem_cons.mp hedits
    have hmore : ∀ g' ∈ gs.filter fun g' => !g' == g, ∀ fix ∈ g'.fix, ∃ e : Edit,
        fix.edits = [e] ∧ e.range.start ≤ e.range.stop := by
      intro g' hg'
      exact hgs g' (List.mem_of_mem_filter hg')
    rw [List.eraseDups_cons, List.filterMap_cons, List.filterMap_cons]
    cases hfix : g.fix with
    | none =>
      simp only [ih hmore]
      apply keptEdits_filter
      intro g' _ hsame fix hfix'
      obtain rfl : g' = g := by simpa using hsame
      rw [hfix] at hfix'
      cases hfix'
    | some fix =>
      obtain ⟨taken', hclash, htaken⟩ := exists_taken (hg fix hfix) taken
      simp only [htaken, ih hmore]
      apply keptEdits_filter
      intro g' _ hsame fix' hfix'
      obtain rfl : g' = g := by simpa using hsame
      obtain rfl := Option.some.inj (hfix.symm.trans hfix')
      exact hclash

end Fix

namespace LintConfig

variable (c : LintConfig) (d : Document)

theorem collect_rulesOf (kind : RuleKind) (settings : List RuleSetting) :
    Linter.collect (rulesOf kind settings) d =
      settings.flatMap fun setting => (Rule.ofSetting kind setting 0).diagnostics d := by
  by_cases hsettings : settings = []
  · subst hsettings
    rfl
  · have hfst : settings.zipIdx.map Prod.fst = settings := by simp
    rw [rulesOf, if_neg (by simpa using hsettings), Linter.collect, List.flatMap_map]
    nth_rewrite 2 [← hfst]
    rw [List.flatMap_map]
    rfl

theorem collect_buildRules :
    Linter.collect c.buildRules d =
      RuleKind.all.flatMap fun kind => (c.settings kind.name).flatMap fun setting =>
        (Rule.ofSetting kind setting 0).diagnostics d := by
  simp only [← collect_rulesOf, Linter.collect, buildRules, List.flatMap_assoc]

theorem settings_withRule_self (rule : String) (entry : RuleEntry) :
    (c.withRule rule entry).settings rule = entry.settings := by
  apply settings_of_entry
  simp [withRule, table, Data.Table.get?_insert]

theorem eraseDups_collect_replicate (rule : String) {entry : RuleEntry}
    (hsingle : entry.isInstances = false) (k : Nat) :
    (Linter.collect (c.withRule rule (.instances (List.replicate (k + 1) entry))).buildRules
        d).eraseDups =
      (Linter.collect (c.withRule rule entry).buildRules d).eraseDups := by
  rw [collect_buildRules, collect_buildRules]
  apply eraseDups_flatMap_congr
  intro kind
  by_cases hkind : kind.name = rule
  · have hone : entry.settings = [entry.setting] := by
      cases entry with
      | plain l => rfl
      | detailed l enabled options => rfl
      | instances entries => cases hsingle
    have hmany : (RuleEntry.instances (List.replicate (k + 1) entry)).settings =
        List.replicate (k + 1) entry.setting := by
      simp [RuleEntry.settings, RuleEntry.toInstances]
    rw [hkind, settings_withRule_self, settings_withRule_self, hone, hmany, List.flatMap_singleton,
      List.flatMap_def, List.map_replicate, eraseDups_flatten_replicate]
  · rw [settings_withRule_of_ne c rule _ hkind, settings_withRule_of_ne c rule _ hkind]

end LintConfig

theorem lint_eq_sorted {c : LintConfig} {limit : Nat} {text : List Char}
    (h : (Linter.collect c.buildRules (Document.parse text)).length ≤ limit) :
    lint ⟨limit, c⟩ text =
      (Linter.collect c.buildRules (Document.parse text)).mergeSort Diagnostic.ordered :=
  List.take_of_length_le (by rwa [List.length_mergeSort])

/-- Where no limit cuts diagnostics off, the fixes of a document give the same text
whether a rule has one instance of a setting or several of them. -/
theorem applyFixes_instances (c : LintConfig) (rule : String) (entry : RuleEntry) (k : Nat)
    (text : List Char) {limit limit' : Nat} (hsingle : entry.isInstances = false) (hk : 1 ≤ k)
    (hlimit : (Linter.collect (c.withRule rule entry).buildRules
      (Document.parse text)).length ≤ limit)
    (hlimit' : (Linter.collect (c.withRule rule (.instances (List.replicate k entry))).buildRules
      (Document.parse text)).length ≤ limit') :
    ∃ result,
      Diagnostic.applyFixes? text (lint ⟨limit, c.withRule rule entry⟩ text) = some result ∧
      Diagnostic.applyFixes? text
        (lint ⟨limit', c.withRule rule (.instances (List.replicate k entry))⟩ text) =
          some result := by
  have hedits : ∀ {limit : Nat} {c : LintConfig}, ∀ g ∈ lint ⟨limit, c⟩ text, ∀ fix ∈ g.fix,
      ∃ e : Edit, fix.edits = [e] ∧ e.range.start ≤ e.range.stop := by
    intro limit c g hg fix hfix
    obtain ⟨e, he, hanchored⟩ := (anchored_of_mem_lint hg).2 fix hfix
    exact ⟨e, he, hanchored.within.start_le_stop⟩
  obtain ⟨n, rfl⟩ := Nat.exists_eq_add_of_le' hk
  have hsame : (lint ⟨limit', c.withRule rule (.instances (List.replicate (n + 1) entry))⟩
      text).eraseDups = (lint ⟨limit, c.withRule rule entry⟩ text).eraseDups := by
    rw [lint_eq_sorted hlimit, lint_eq_sorted hlimit']
    exact Diagnostic.eraseDups_sorted (c.eraseDups_collect_replicate _ rule hsingle n)
  have hkept := congrArg (fun gs => Fix.keptEdits [] (gs.filterMap (·.fix))) hsame
  simp only [Fix.keptEdits_eraseDups hedits] at hkept
  obtain ⟨-, result, -, -, -, hresult⟩ :=
    Edit.exists_applyAll? (fun e he => anchored_of_mem_kept he) pairwise_apart_kept
  refine ⟨result, hresult, ?_⟩
  rw [Diagnostic.applyFixes?, Fix.applyAll?, hkept]
  exact hresult

/-- Three instances of the rule on the last line break, whose fix inserts at the end of the
document, among the reports of another rule. -/
theorem applyFixes_instances_insertion :
    let c := LintConfig.recommended
    let entry : RuleEntry := .detailed (some .warn) none none
    let several := c.withRule "final-newline" (.instances (List.replicate 3 entry))
    let text := "select a = NULL ,\n  b ".toList
    (Linter.collect (c.withRule "final-newline" entry).buildRules
        (Document.parse text)).length = 3 ∧
      (Linter.collect several.buildRules (Document.parse text)).length = 5 ∧
      ∃ result,
        Diagnostic.applyFixes? text (lint ⟨3, c.withRule "final-newline" entry⟩ text) =
          some result ∧
        Diagnostic.applyFixes? text (lint ⟨5, several⟩ text) = some result := by
  intro c entry several text
  have hone : (Linter.collect (c.withRule "final-newline" entry).buildRules
      (Document.parse text)).length = 3 := by decide +kernel
  have hseveral : (Linter.collect several.buildRules (Document.parse text)).length = 5 := by
    decide +kernel
  exact ⟨hone, hseveral, applyFixes_instances c "final-newline" entry 3 text rfl (by decide)
    (Nat.le_of_eq hone) (Nat.le_of_eq hseveral)⟩

end QueryLint
