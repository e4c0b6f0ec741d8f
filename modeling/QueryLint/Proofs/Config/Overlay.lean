import QueryLint.Codec.Settings
import QueryLint.Proofs.Codec.RuleEntry
import QueryLint.Proofs.Config.Merge
import QueryLint.Proofs.Config.Resolve

/-!
# What an overlay says of each rule

A configuration is laid over another one as a whole, but what comes of it can be said
rule by rule: `LintConfig.Overlaid` says where the settings of a rule come from, from
an entry above, an entry below, or the presets in effect. Settings are read with the
entries beside a configuration laid over it, so these entries decide on the rules that
they name, and the configuration decides on all others.
-/
namespace QueryLint

open Data (Value Table)

namespace Presets

variable {p : Presets} {rule : String}

theorem level?_eq_some_on (hmem : recommended ∈ p.names) {kind : RuleKind}
    (hkind : RuleKind.ofName? rule = some kind) : p.level? rule = some .on := by
  simp [level?, hmem, hkind]

theorem level?_eq_none (h : recommended ∈ p.names → RuleKind.ofName? rule = none) :
    p.level? rule = none := by
  by_cases hmem : recommended ∈ p.names
  · simp [level?, h hmem]
  · simp [level?, hmem]

end Presets

namespace LintConfig

variable {base upper : LintConfig} {rule : String}

/-- What a configuration that lies over another one says of a rule, case by case. A
choice of presets covers what is below. Otherwise the entry above counts, then the
entry below, then the presets above or, if there are none, those below. -/
inductive Overlaid (base : LintConfig) (rule : String) : LintConfig → List RuleSetting → Prop
  | presets (p : Presets) : Overlaid base rule (.presets p) ((LintConfig.presets p).settings rule)
  | above {top : Option Presets} {rules : Table RuleEntry} {e : RuleEntry}
      (h : rules.get? rule = some e) : Overlaid base rule (.full top rules) e.settings
  | below {top bottom : Option Presets} {rules lower : Table RuleEntry} {e : RuleEntry}
      (h : rules.get? rule = none) (hbase : base = .full bottom lower)
      (hentry : lower.get? rule = some e) : Overlaid base rule (.full top rules) e.settings
  | recommended {top : Option Presets} {rules : Table RuleEntry} {p : Presets}
      {kind : RuleKind} (h : rules.get? rule = none)
      (hbase : ∀ bottom lower, base = .full bottom lower → lower.get? rule = none)
      (hpresets : top.or base.base? = some p) (hmem : Presets.recommended ∈ p.names)
      (hkind : RuleKind.ofName? rule = some kind) :
      Overlaid base rule (.full top rules) [⟨.on, none⟩]
  | unmentioned {top : Option Presets} {rules : Table RuleEntry}
      (h : rules.get? rule = none)
      (hbase : ∀ bottom lower, base = .full bottom lower → lower.get? rule = none)
      (hnone : ∀ p, top.or base.base? = some p → Presets.recommended ∈ p.names →
        RuleKind.ofName? rule = none) :
      Overlaid base rule (.full top rules) []

theorem get?_table_eq_none_iff {c : LintConfig} :
    c.table.get? rule = none ↔ ∀ bottom lower, c = .full bottom lower → lower.get? rule = none := by
  cases c with
  | presets p => simp [table]
  | full bottom lower => simp [table]

/-- Without an entry, a rule has one setting if the presets turn it on, and none
otherwise. -/
theorem settings_of_presets {c : LintConfig} (h : c.table.get? rule = none) :
    c.settings rule = ((c.base?.bind fun p => p.level? rule).map fun l => ⟨l, none⟩).toList := by
  simp [settings, level?, h]

theorem Overlaid.settings_eq {s : List RuleSetting} (h : Overlaid base rule upper s) :
    (base.merge upper).settings rule = s := by
  cases h with
  | presets p => rfl
  | above h =>
    apply settings_of_entry
    simp [h]
  | @below top bottom rules lower e h hbase hentry =>
    have hlower : base.table.get? rule = some e := by
      rw [hbase]
      exact hentry
    apply settings_of_entry
    simp [h, hlower]
  | recommended h hbase hpresets hmem hkind =>
    have hnone := get?_table_eq_none_iff.mpr hbase
    rw [settings_of_presets (by simp [h, hnone]), base?_merge_full, hpresets]
    simp [Presets.level?_eq_some_on hmem hkind]
  | unmentioned h hbase hnone =>
    have hentry := get?_table_eq_none_iff.mpr hbase
    rw [settings_of_presets (by simp [h, hentry]), base?_merge_full]
    cases hpresets : Option.or _ base.base? with
    | none => rfl
    | some p => simp [Presets.level?_eq_none (hnone p hpresets)]

theorem exists_overlaid (base upper : LintConfig) (rule : String) :
    ∃ s, Overlaid base rule upper s := by
  cases upper with
  | presets p => exact ⟨_, .presets p⟩
  | full top rules =>
    cases habove : rules.get? rule with
    | some e => exact ⟨_, .above habove⟩
    | none =>
      by_cases hbelow : ∀ bottom lower, base = .full bottom lower → lower.get? rule = none
      · by_cases hrecommended : ∃ p kind, top.or base.base? = some p ∧
          Presets.recommended ∈ p.names ∧ RuleKind.ofName? rule = some kind
        · obtain ⟨p, kind, hpresets, hmem, hkind⟩ := hrecommended
          exact ⟨_, .recommended habove hbelow hpresets hmem hkind⟩
        · refine ⟨_, .unmentioned habove hbelow ?_⟩
          intro p hpresets hmem
          by_contra hkind
          obtain ⟨kind, hkind⟩ := Option.ne_none_iff_exists'.mp hkind
          exact hrecommended ⟨p, kind, hpresets, hmem, hkind⟩
      · push Not at hbelow
        obtain ⟨bottom, lower, hbase, hentry⟩ := hbelow
        obtain ⟨e, hentry⟩ := Option.ne_none_iff_exists'.mp hentry
        exact ⟨_, .below habove hbase hentry⟩

theorem settings_merge_iff {s : List RuleSetting} :
    (base.merge upper).settings rule = s ↔ Overlaid base rule upper s := by
  constructor
  · rintro rfl
    obtain ⟨s, h⟩ := exists_overlaid base upper rule
    rwa [h.settings_eq]
  · exact Overlaid.settings_eq

/-- Where entries are laid over a configuration, they decide on the rules that they name,
and the configuration decides on all others. -/
theorem settings_merge_rules (c : LintConfig) (rules : Table RuleEntry) (rule : String) :
    (c.merge (.full none rules)).settings rule =
      match rules.get? rule with
      | some e => e.settings
      | none => c.settings rule := by
  cases habove : rules.get? rule with
  | some e =>
    apply settings_of_entry
    simp [habove]
  | none => simp [settings, level?, habove]

end LintConfig

namespace Codec

theorem noRepeats_iff {names : List String} : noRepeats names = true ↔ names.Nodup := by
  induction names with
  | nil => simp [noRepeats]
  | cons name names ih => simp [noRepeats, ih]

theorem names_of_fields? {names : List String} {v : Value} {fields : List (String × Value)}
    (hnames : names.Nodup) (h : fields? names v = some fields) :
    (fields.map Prod.fst).Nodup ∧ ∀ f ∈ fields, f.1 ∈ names := by
  cases v with
  | object given =>
    simp only [fields?, Option.ite_none_right_eq_some, noRepeats_iff] at h
    obtain ⟨hnodup, hfields⟩ := h
    obtain rfl := Option.some.inj hfields
    refine ⟨hnodup, ?_⟩
    intro f hf
    simpa using (List.mem_filter.mp hf).2
  | array items =>
    simp only [fields?, Option.ite_none_right_eq_some] at h
    obtain ⟨hlength, hfields⟩ := h
    obtain rfl := Option.some.inj hfields
    constructor
    · have htake : (names.zip items).map Prod.fst = names.take items.length := by
        rw [List.zip_eq_zip_take_min, Nat.min_eq_right hlength, List.take_length,
          List.map_fst_zip (by simp)]
      rw [htake]
      exact hnames.sublist (List.take_sublist _ _)
    · intro f hf
      exact (List.of_mem_zip hf).1
  | _ => simp [fields?] at h

end Codec

namespace Settings

namespace Parts

variable {p q : Parts} {name : String} {v : Value}

/-- What taking in a field of the record comes to. -/
inductive Takes (p : Parts) (name : String) (v : Value) : Parts → Prop
  | limit (hname : name = "maxNumberOfProblems") (n : Nat) :
      Takes p name v { p with maxProblems := n }
  | null (hnull : v.isNull = true) : Takes p name v p
  | lint (hname : name = "lint") {c : LintConfig} (hread : LintConfig.ofValue? v = some c) :
      Takes p name v { p with lint := some c }
  | rules (hname : name = "rules") {rules : Table RuleEntry}
      (hread : LintConfig.rulesOfValue v = .ok rules) : Takes p name v { p with rules := some rules }

theorem takes_of_put (h : p.put name v = .ok q) (hmem : name ∈ recordNames) :
    p.Takes name v q := by
  unfold put at h
  split_ifs at h with hlimit hlint hnull hnull
  · split at h
    · obtain rfl := Except.ok.inj h
      exact .limit hlimit _
    · cases h
  · obtain rfl := Except.ok.inj h
    exact .null hnull
  · split at h
    · rename_i hread
      obtain rfl := Except.ok.inj h
      exact .lint hlint hread
    · cases h
  · obtain rfl := Except.ok.inj h
    exact .null hnull
  · have hname : name = "rules" := by simpa [recordNames, hlimit, hlint] using hmem
    obtain ⟨rules, hread, hq⟩ := bind_eq_ok.mp h
    obtain rfl := Except.ok.inj hq
    exact .rules hname hread

theorem Takes.lint_of_ne (h : p.Takes name v q) (hname : name ≠ "lint") : q.lint = p.lint := by
  cases h with
  | lint hlint => exact absurd hlint hname
  | _ => rfl

theorem Takes.rules_of_ne (h : p.Takes name v q) (hname : name ≠ "rules") :
    q.rules = p.rules := by
  cases h with
  | rules hrules => exact absurd hrules hname
  | _ => rfl

theorem Takes.lint_read (h : p.Takes "lint" v q) (hnull : v.isNull = false) :
    ∃ c, LintConfig.ofValue? v = some c ∧ q.lint = some c := by
  cases h with
  | lint _ hread => exact ⟨_, hread, rfl⟩
  | null hnull' => simp [hnull] at hnull'
  | limit hname | rules hname => simp at hname

theorem Takes.rules_read (h : p.Takes "rules" v q) (hnull : v.isNull = false) :
    ∃ rules, LintConfig.rulesOfValue v = .ok rules ∧ q.rules = some rules := by
  cases h with
  | rules _ hread => exact ⟨_, hread, rfl⟩
  | null hnull' => simp [hnull] at hnull'
  | limit hname | lint hname => simp at hname

/-- Where one field decides on a part, and the others leave it alone, it is decided by the
value of that field once all fields are taken in. -/
theorem of_foldlM_put {β : Type} (part : Parts → β) (field : String) (Reads : Value → β → Prop)
    (hother : ∀ (p q : Parts) name v, p.Takes name v q → name ≠ field → part q = part p)
    (hfield : ∀ (p q : Parts) v, p.Takes field v q → v.isNull = false → Reads v (part q))
    {fields : List (String × Value)} (hnames : (fields.map Prod.fst).Nodup)
    (hrecord : ∀ f ∈ fields, f.1 ∈ recordNames)
    (h : fields.foldlM (fun (p : Parts) f => p.put f.1 f.2) p = Except.ok q) :
    (∀ v, fields.lookup field = some v → v.isNull = false → Reads v (part q)) ∧
      (field ∉ fields.map Prod.fst → part q = part p) := by
  induction fields generalizing p with
  | nil =>
    obtain rfl := Except.ok.inj h
    simp
  | cons f fields ih =>
    obtain ⟨name, v⟩ := f
    obtain ⟨r, hr, h⟩ := bind_eq_ok.mp h
    obtain ⟨hname, hnames⟩ := List.nodup_cons.mp hnames
    obtain ⟨hmem, hrecord⟩ := List.forall_mem_cons.mp hrecord
    have htakes := takes_of_put hr hmem
    obtain ⟨hfound, hkept⟩ := ih hnames hrecord h
    rw [List.map_cons, List.mem_cons]
    by_cases hsame : field = name
    · subst hsame
      refine ⟨?_, fun hnot => absurd (Or.inl rfl) hnot⟩
      intro w hw hnull
      obtain rfl : v = w := by simpa [Data.lookup_cons_eq_ite] using hw
      rw [hkept hname]
      exact hfield p r v htakes hnull
    · constructor
      · intro w hw
        exact hfound w (by simpa [Data.lookup_cons_eq_ite, hsame] using hw)
      · intro hnot
        rw [hkept fun hmem => hnot (Or.inr hmem)]
        exact hother p r name v htakes (Ne.symm hsame)

end Parts

theorem lint_of_ofValue {v lintValue rulesValue : Value} {s : Settings}
    {fields : List (String × Value)} (hfields : Codec.fields? recordNames v = some fields)
    (hlint : fields.lookup "lint" = some lintValue) (hlintNull : lintValue.isNull = false)
    (hrules : fields.lookup "rules" = some rulesValue) (hrulesNull : rulesValue.isNull = false)
    (h : ofValue v = .ok s) :
    ∃ c rules, LintConfig.ofValue? lintValue = some c ∧
      LintConfig.rulesOfValue rulesValue = .ok rules ∧ s.lint = c.merge (.full none rules) := by
  simp only [ofValue, hfields] at h
  obtain ⟨q, hq, hs⟩ := bind_eq_ok.mp h
  obtain rfl := Except.ok.inj hs
  obtain ⟨hnames, hrecord⟩ := Codec.names_of_fields? (by decide) hfields
  obtain ⟨hread, -⟩ := Parts.of_foldlM_put Parts.lint "lint"
    (fun v lint => ∃ c, LintConfig.ofValue? v = some c ∧ lint = some c)
    (fun p q name v h hne => h.lint_of_ne hne) (fun p q v h hnull => h.lint_read hnull)
    hnames hrecord hq
  obtain ⟨hreadRules, -⟩ := Parts.of_foldlM_put Parts.rules "rules"
    (fun v rules => ∃ t, LintConfig.rulesOfValue v = .ok t ∧ rules = some t)
    (fun p q name v h hne => h.rules_of_ne hne) (fun p q v h hnull => h.rules_read hnull)
    hnames hrecord hq
  obtain ⟨c, hc, hqlint⟩ := hread lintValue hlint hlintNull
  obtain ⟨rules, hr, hqrules⟩ := hreadRules rulesValue hrules hrulesNull
  refine ⟨c, rules, hc, hr, ?_⟩
  simp [ofParts, hqlint, hqrules]

theorem ofValue_lint {v : Value} {c : LintConfig} (h : LintConfig.ofValue? v = some c)
    (hnull : v.isNull = false) : ofValue (.object [("lint", v)]) = .ok { lint := c } := by
  have hfields : Codec.fields? recordNames (.object [("lint", v)]) = some [("lint", v)] := rfl
  have hput : Parts.put {} "lint" v = .ok { lint := some c } := by
    simp [Parts.put, hnull, h]
  simp only [ofValue, hfields, List.foldlM_cons, List.foldlM_nil, hput]
  rfl

end Settings

/-- The settings of each rule, once a configuration is laid over another one, are what
`LintConfig.Overlaid` says; a configuration that says nothing changes no rule. So
settings that are read from a value with a configuration and entries beside it have, for
each rule that the entries name, the settings of its entry, and for every other rule
what the configuration alone would have given. -/
theorem overlay_settings (base upper : LintConfig) :
    (∀ rule s, (base.merge upper).settings rule = s ↔ LintConfig.Overlaid base rule upper s) ∧
    (∀ rule, (base.merge LintConfig.empty).settings rule = base.settings rule) ∧
    ∀ (v lintValue rulesValue : Value) (fields : List (String × Value)) (s : Settings),
      Codec.fields? Settings.recordNames v = some fields →
      fields.lookup "lint" = some lintValue → lintValue.isNull = false →
      fields.lookup "rules" = some rulesValue → rulesValue.isNull = false →
      Settings.ofValue v = .ok s →
      ∃ rules alone, LintConfig.rulesOfValue rulesValue = .ok rules ∧
        Settings.ofValue (.object [("lint", lintValue)]) = .ok alone ∧
        ∀ rule, s.lint.settings rule =
          match rules.get? rule with
          | some e => e.settings
          | none => alone.lint.settings rule := by
  refine ⟨fun rule s => LintConfig.settings_merge_iff, fun rule => by rw [base.merge_empty], ?_⟩
  intro v lintValue rulesValue fields s hfields hlint hlintNull hrules hrulesNull h
  obtain ⟨c, rules, hc, hr, hs⟩ :=
    Settings.lint_of_ofValue hfields hlint hlintNull hrules hrulesNull h
  refine ⟨rules, _, hr, Settings.ofValue_lint hc hlintNull, ?_⟩
  intro rule
  rw [hs]
  exact LintConfig.settings_merge_rules c rules rule

/-- Presets with an entry beside them, given as an array: the entry turns its rule off, and
the presets turn the others on. -/
theorem overlay_settings_array :
    let rulesValue : Value := .object [("final-newline", .bool false)]
    let v : Value := .array [.number (.int 5), .string "recommended", rulesValue]
    ∃ s rules, Settings.ofValue v = .ok s ∧ LintConfig.rulesOfValue rulesValue = .ok rules ∧
      s.lint.settings "final-newline" = [⟨.off, none⟩] ∧
      s.lint.settings "is-null" = [⟨.on, none⟩] ∧ s.lint.settings "unknown" = [] := by
  intro rulesValue v
  obtain ⟨rules, alone, hrules, halone, hsettings⟩ :=
    (overlay_settings LintConfig.empty LintConfig.empty).2.2 v (.string "recommended") rulesValue
      _ _ rfl rfl rfl rfl rfl rfl
  refine ⟨_, rules, rfl, hrules, ?_⟩
  obtain rfl := Except.ok.inj hrules
  obtain rfl := Except.ok.inj halone
  exact ⟨(hsettings _).trans rfl, (hsettings _).trans rfl, (hsettings _).trans rfl⟩

end QueryLint
