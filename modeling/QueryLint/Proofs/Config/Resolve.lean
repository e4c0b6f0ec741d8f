import QueryLint.Proofs.Data.Table
import QueryLint.Proofs.Rule.Order

/-!
# From a configuration to rules

What a configuration says of the rules of a kind is put down in `LintConfig.Decides`,
case by case: by an entry, by presets, or by nobody. The rules that are built come
in blocks, one for each kind, and a block is exactly what has been decided: as many
rules, in that order, each on or off and at that severity. So every diagnostic comes
from a rule that is on and reports at the severity decided for it.
-/
namespace QueryLint

open Data (Value)

/-- What a level makes of a rule with the severity `own`: the severity to report at,
or none if the rule is off. -/
inductive Level.Means (own : Severity) : Level → Option Severity → Prop
  | off : Means own .off none
  | on : Means own .on (some own)
  | hint : Means own .hint (some .hint)
  | info : Means own .info (some .information)
  | warn : Means own .warn (some .warning)
  | error : Means own .error (some .error)

theorem Level.means_iff {own : Severity} {l : Level} {active : Option Severity} :
    l.Means own active ↔ l.resolve own = active := by
  constructor
  · intro h
    cases h <;> rfl
  · rintro rfl
    cases l with
    | off => exact .off
    | on => exact .on
    | hint => exact .hint
    | info => exact .info
    | warn => exact .warn
    | error => exact .error

/-- What an entry says of one rule with the severity `own`: the severity to report
at, or none if the rule is off. -/
inductive RuleEntry.Decides (own : Severity) : RuleEntry → Option Severity → Prop
  | level {l : Level} {active : Option Severity} (h : l.Means own active) :
      Decides own (.plain l) active
  | disabled (l : Option Level) (options : Option Value) :
      Decides own (.detailed l (some false) options) none
  | unstated {enabled : Option Bool} (options : Option Value) (h : enabled ≠ some false) :
      Decides own (.detailed none enabled options) (some own)
  | stated {l : Level} {enabled : Option Bool} {active : Option Severity}
      (options : Option Value) (h : enabled ≠ some false) (hlevel : l.Means own active) :
      Decides own (.detailed (some l) enabled options) active
  | nobody : Decides own (.instances []) none
  | first {entry : RuleEntry} {active : Option Severity} (more : List RuleEntry)
      (h : Decides own entry active) : Decides own (.instances (entry :: more)) active

/-- Whether there is an entry for a rule in the table of a configuration. -/
def LintConfig.HasEntry (c : LintConfig) (rule : String) (entry : RuleEntry) : Prop :=
  ∃ base rules, c = .full base rules ∧ rules.get? rule = some entry

/-- Whether the presets that are chosen or built on turn every rule on. -/
def LintConfig.IsRecommended (c : LintConfig) : Prop :=
  ∃ p, (c = .presets p ∨ ∃ rules, c = .full (some p) rules) ∧ Presets.recommended ∈ p.names

/-- What a configuration says of the rule of a kind at a place among the rules of
that kind: the severity to report at, or none if the rule is off. -/
inductive LintConfig.Decides (c : LintConfig) (kind : RuleKind) : Nat → Option Severity → Prop
  | entry {e : RuleEntry} {active : Option Severity} (hentry : c.HasEntry kind.name e)
      (hsingle : ∀ entries, e ≠ .instances entries) (h : e.Decides kind.severity active) :
      Decides c kind 0 active
  | listed {entries : List RuleEntry} {e : RuleEntry} {i : Nat} {active : Option Severity}
      (hentry : c.HasEntry kind.name (.instances entries)) (he : entries[i]? = some e)
      (h : e.Decides kind.severity active) : Decides c kind i active
  | noInstances (hentry : c.HasEntry kind.name (.instances [])) : Decides c kind 0 none
  | preset (hentry : ∀ entry, ¬c.HasEntry kind.name entry) (h : c.IsRecommended) :
      Decides c kind 0 (some kind.severity)
  | unmentioned (hentry : ∀ entry, ¬c.HasEntry kind.name entry) (h : ¬c.IsRecommended) :
      Decides c kind 0 none

namespace RuleEntry

theorem decides_iff {own : Severity} {e : RuleEntry} {active : Option Severity} :
    e.Decides own active ↔ e.effective.resolve own = active := by
  constructor
  · intro h
    induction h with
    | level h => exact Level.means_iff.mp h
    | disabled l options => rfl
    | unstated options h => rw [effective, if_neg h]; rfl
    | stated options h hlevel =>
      rw [effective, if_neg h]
      exact Level.means_iff.mp hlevel
    | nobody => rfl
    | first more h ih => rwa [effective]
  · rintro rfl
    fun_induction effective e with
    | case1 l => exact .level (Level.means_iff.mpr rfl)
    | case2 l options => exact .disabled l options
    | case3 l enabled options h =>
      cases l with
      | none => exact .unstated options h
      | some l => exact .stated options h (Level.means_iff.mpr rfl)
    | case4 => exact .nobody
    | case5 first more ih => exact .first more ih

theorem getElem?_toInstances {entry e : RuleEntry} {i : Nat} :
    entry.toInstances[i]? = some e ↔
      (∀ entries, entry ≠ .instances entries) ∧ i = 0 ∧ entry = e ∨
        ∃ entries, entry = .instances entries ∧ entries[i]? = some e := by
  cases entry <;> simp [toInstances, List.getElem?_singleton]

theorem settings_eq_nil {e : RuleEntry} : e.settings = [] ↔ e = .instances [] := by
  cases e <;> simp [settings, toInstances]

theorem settings_eq_singleton {e : RuleEntry} (h : ∀ entries, e ≠ .instances entries) :
    e.settings = [e.setting] := by
  cases e with
  | plain l => rfl
  | detailed l enabled options => rfl
  | instances entries => exact absurd rfl (h entries)

end RuleEntry

namespace LintConfig

variable {c : LintConfig} {kind : RuleKind} {settings : List RuleSetting} {i : Nat}

theorem hasEntry_iff {rule : String} {entry : RuleEntry} :
    c.HasEntry rule entry ↔ c.table.get? rule = some entry := by
  cases c with
  | presets p => simp [HasEntry, table, Data.Table.get?_empty]
  | full base rules => simp [HasEntry, table]

theorem no_entry_iff {rule : String} :
    (∀ entry, ¬c.HasEntry rule entry) ↔ c.table.get? rule = none := by
  simp only [hasEntry_iff, Option.eq_none_iff_forall_ne_some, ne_eq]

theorem isRecommended_iff :
    c.IsRecommended ↔ ∃ p, c.base? = some p ∧ Presets.recommended ∈ p.names := by
  cases c with
  | presets p => simp [IsRecommended, base?]
  | full base rules => simp [IsRecommended, base?]

theorem settings_of_entry {name : String} {entry : RuleEntry}
    (h : c.table.get? name = some entry) : c.settings name = entry.settings := by
  rw [LintConfig.settings, h]

open scoped Classical in
theorem level?_of_no_entry (h : c.table.get? kind.name = none) :
    c.level? kind.name = if c.IsRecommended then some .on else none := by
  rw [level?, h, Option.map_none, Option.none_or]
  cases hbase : c.base? with
  | none =>
    rw [if_neg]
    · rfl
    · rw [isRecommended_iff]
      rintro ⟨p, hp, -⟩
      simp [hbase] at hp
  | some p =>
    have hrecommended : c.IsRecommended ↔ Presets.recommended ∈ p.names := by
      simp [isRecommended_iff, hbase]
    rw [Option.bind_some, Presets.level?, RuleKind.ofName?_name, Option.isSome_some, Bool.and_true]
    simp only [List.contains_eq_mem, decide_eq_true_eq, hrecommended]

open scoped Classical in
theorem settings_of_no_entry (h : c.table.get? kind.name = none) :
    c.settings kind.name = if c.IsRecommended then [⟨.on, none⟩] else [] := by
  rw [LintConfig.settings, h, level?_of_no_entry h]
  split_ifs <;> rfl

def block (c : LintConfig) (kind : RuleKind) : List Rule :=
  c.buildRules.filter (·.kind = kind)

theorem block_eq (c : LintConfig) (kind : RuleKind) :
    c.block kind = rulesOf kind (c.settings kind.name) := by
  have hcount : RuleKind.all.count kind = 1 := by
    cases kind <;> decide
  rw [block, buildRules, filter_kind_rulesOf, hcount, List.replicate_one, List.flatten_singleton]

theorem buildRules_eq_flatMap_block (c : LintConfig) :
    c.buildRules = RuleKind.all.flatMap c.block := by
  simp only [funext (c.block_eq ·)]
  rfl

theorem mem_block {r : Rule} : r ∈ c.block kind ↔ r ∈ c.buildRules ∧ r.kind = kind := by
  rw [block, List.mem_filter, decide_eq_true_eq]

/-- Rules of one kind that are what a list of settings asks for: one for each
setting, numbered in order, or a single one that is off. -/
structure IsBlock (kind : RuleKind) (settings : List RuleSetting) (rules : List Rule) : Prop where
  ne_nil : rules ≠ []
  numbered : ∀ (i : Nat) (r : Rule), rules[i]? = some r → r.kind = kind ∧ r.index = i
  length : settings ≠ [] → rules.length = settings.length
  of_setting : ∀ (i : Nat) (setting : RuleSetting), settings[i]? = some setting →
    ∃ r : Rule, rules[i]? = some r ∧ r.check = Check.ofOptions setting.options kind ∧
      setting.level.Means kind.severity r.active ∧
      (r.isEnabled = true ↔ setting.level ≠ .off)
  of_nil : settings = [] → ∃ r : Rule, rules = [r] ∧ r.isEnabled = false

theorem getElem?_rulesOf_nil {r : Rule} :
    (rulesOf kind [])[i]? = some r ↔ i = 0 ∧ Rule.ofSetting kind .off 0 = r := by
  change [Rule.ofSetting kind .off 0][i]? = some r ↔ _
  rw [List.getElem?_singleton]
  simp only [Option.ite_none_right_eq_some, Option.some.injEq]

theorem getElem?_rulesOf (h : settings ≠ []) :
    (rulesOf kind settings)[i]? = settings[i]?.map fun s => Rule.ofSetting kind s i := by
  rw [rulesOf, if_neg (by simpa using h), List.getElem?_map, List.getElem?_zipIdx]
  cases settings[i]? with
  | none => rfl
  | some setting => simp

theorem length_rulesOf (h : settings ≠ []) : (rulesOf kind settings).length = settings.length := by
  rw [rulesOf, if_neg (by simpa using h), List.length_map, List.length_zipIdx]

theorem isEnabled_ofSetting (kind : RuleKind) (setting : RuleSetting) (i : Nat) :
    (Rule.ofSetting kind setting i).isEnabled = setting.level.isEnabled :=
  Level.resolve_isSome kind.severity setting.level

theorem isBlock_rulesOf (kind : RuleKind) (settings : List RuleSetting) :
    IsBlock kind settings (rulesOf kind settings) := by
  by_cases hsettings : settings = []
  · subst hsettings
    refine ⟨List.cons_ne_nil _ _, ?_, fun h => absurd rfl h, ?_, fun _ => ⟨_, rfl, rfl⟩⟩
    · intro i r hr
      obtain ⟨rfl, rfl⟩ := getElem?_rulesOf_nil.mp hr
      exact ⟨Check.kind_ofOptions _ kind, rfl⟩
    · intro i setting hi
      simp at hi
  · have hlength : (rulesOf kind settings).length = settings.length := length_rulesOf hsettings
    refine ⟨?_, ?_, fun _ => hlength, ?_, fun h => absurd h hsettings⟩
    · rw [← List.length_pos_iff, hlength, List.length_pos_iff]
      exact hsettings
    · intro i r hr
      rw [getElem?_rulesOf hsettings] at hr
      obtain ⟨setting, -, rfl⟩ := Option.map_eq_some_iff.mp hr
      exact ⟨Check.kind_ofOptions _ kind, rfl⟩
    · intro i setting hi
      refine ⟨Rule.ofSetting kind setting i, ?_, rfl, Level.means_iff.mpr rfl, ?_⟩
      · rw [getElem?_rulesOf hsettings, hi]
        rfl
      · rw [isEnabled_ofSetting, Level.isEnabled, bne_iff_ne]

theorem exists_active_iff {active : Option Severity} :
    (∃ r, (rulesOf kind settings)[i]? = some r ∧ r.active = active) ↔
      (∃ setting, settings[i]? = some setting ∧ setting.level.resolve kind.severity = active) ∨
        (settings = [] ∧ i = 0 ∧ active = none) := by
  by_cases hsettings : settings = []
  · subst hsettings
    constructor
    · rintro ⟨r, hr, rfl⟩
      obtain ⟨rfl, rfl⟩ := getElem?_rulesOf_nil.mp hr
      exact Or.inr ⟨rfl, rfl, rfl⟩
    · rintro (⟨setting, hi, -⟩ | ⟨-, rfl, rfl⟩)
      · simp at hi
      · exact ⟨_, rfl, rfl⟩
  · rw [getElem?_rulesOf hsettings]
    constructor
    · rintro ⟨r, hr, rfl⟩
      obtain ⟨setting, hi, rfl⟩ := Option.map_eq_some_iff.mp hr
      exact Or.inl ⟨setting, hi, rfl⟩
    · rintro (⟨setting, hi, rfl⟩ | ⟨hnil, -, -⟩)
      · exact ⟨Rule.ofSetting kind setting i, by rw [hi]; rfl, rfl⟩
      · exact absurd hnil hsettings

theorem exists_active_block_iff_of_entry {entry : RuleEntry} {active : Option Severity}
    (hentry : c.table.get? kind.name = some entry) :
    (∃ r, (c.block kind)[i]? = some r ∧ r.active = active) ↔ c.Decides kind i active := by
  rw [block_eq, exists_active_iff, settings_of_entry hentry, RuleEntry.settings_eq_nil,
    RuleEntry.settings, List.getElem?_map]
  have hsame : ∀ entry', c.HasEntry kind.name entry' → entry = entry' := by
    intro entry' hentry'
    exact Option.some.inj (hentry.symm.trans (hasEntry_iff.mp hentry'))
  constructor
  · rintro (⟨setting, hi, rfl⟩ | ⟨rfl, rfl, rfl⟩)
    · obtain ⟨e, he, rfl⟩ := Option.map_eq_some_iff.mp hi
      have hdecides : e.Decides kind.severity (e.setting.level.resolve kind.severity) :=
        RuleEntry.decides_iff.mpr rfl
      rcases RuleEntry.getElem?_toInstances.mp he with ⟨hsingle, rfl, rfl⟩ | ⟨entries, rfl, he⟩
      · exact .entry (hasEntry_iff.mpr hentry) hsingle hdecides
      · exact .listed (hasEntry_iff.mpr hentry) he hdecides
    · exact .noInstances (hasEntry_iff.mpr hentry)
  · intro h
    cases h with
    | @entry e _ hentry' hsingle h =>
      obtain rfl := hsame e hentry'
      have he := RuleEntry.getElem?_toInstances.mpr (Or.inl ⟨hsingle, rfl, rfl⟩)
      exact Or.inl ⟨_, Option.map_eq_some_iff.mpr ⟨_, he, rfl⟩, RuleEntry.decides_iff.mp h⟩
    | @listed entries e _ _ hentry' he h =>
      obtain rfl := hsame (.instances entries) hentry'
      have he' := RuleEntry.getElem?_toInstances.mpr (Or.inr ⟨entries, rfl, he⟩)
      exact Or.inl ⟨_, Option.map_eq_some_iff.mpr ⟨e, he', rfl⟩, RuleEntry.decides_iff.mp h⟩
    | noInstances hentry' => exact Or.inr ⟨hsame _ hentry', rfl, rfl⟩
    | preset hnone _ => exact absurd (hasEntry_iff.mpr hentry) (hnone entry)
    | unmentioned hnone _ => exact absurd (hasEntry_iff.mpr hentry) (hnone entry)

theorem exists_active_block_iff_of_no_entry {active : Option Severity}
    (hentry : c.table.get? kind.name = none) :
    (∃ r, (c.block kind)[i]? = some r ∧ r.active = active) ↔ c.Decides kind i active := by
  classical
  rw [block_eq, exists_active_iff, settings_of_no_entry hentry]
  have hnone : ∀ entry, ¬c.HasEntry kind.name entry := no_entry_iff.mpr hentry
  constructor
  · intro h
    by_cases hrecommended : c.IsRecommended
    · rw [if_pos hrecommended] at h
      rcases h with ⟨setting, hi, rfl⟩ | ⟨hnil, -, -⟩
      · rw [List.getElem?_singleton] at hi
        obtain ⟨rfl, hsetting⟩ := Option.ite_none_right_eq_some.mp hi
        obtain rfl := Option.some.inj hsetting
        exact .preset hnone hrecommended
      · exact absurd hnil (List.cons_ne_nil _ _)
    · rw [if_neg hrecommended] at h
      rcases h with ⟨setting, hi, -⟩ | ⟨-, rfl, rfl⟩
      · simp at hi
      · exact .unmentioned hnone hrecommended
  · intro h
    cases h with
    | entry hentry' _ _ => exact absurd hentry' (hnone _)
    | listed hentry' _ _ => exact absurd hentry' (hnone _)
    | noInstances hentry' => exact absurd hentry' (hnone _)
    | preset _ hrecommended =>
      rw [if_pos hrecommended]
      exact Or.inl ⟨_, rfl, rfl⟩
    | unmentioned _ hrecommended =>
      rw [if_neg hrecommended]
      exact Or.inr ⟨rfl, rfl, rfl⟩

/-- The rules of a kind are those that have been decided on. -/
theorem exists_active_block_iff {active : Option Severity} :
    (∃ r, (c.block kind)[i]? = some r ∧ r.active = active) ↔ c.Decides kind i active := by
  cases hentry : c.table.get? kind.name with
  | some entry => exact exists_active_block_iff_of_entry hentry
  | none => exact exists_active_block_iff_of_no_entry hentry

/-- The two ways to a rule's level agree: where there is no list of instances, the
one rule of its kind is on if the level of that kind says so. -/
theorem exists_block_eq_singleton
    (h : ∀ entries, ¬c.HasEntry kind.name (.instances entries)) :
    ∃ r, c.block kind = [r] ∧ r.isEnabled = c.isEnabled kind.name := by
  classical
  rw [block_eq]
  cases hentry : c.table.get? kind.name with
  | some entry =>
    have hsingle : ∀ entries, entry ≠ .instances entries := by
      intro entries hentries
      exact h entries (hasEntry_iff.mpr (hentries ▸ hentry))
    have henabled : c.isEnabled kind.name = entry.effective.isEnabled := by
      rw [isEnabled, level?, hentry]
      rfl
    rw [settings_of_entry hentry, RuleEntry.settings_eq_singleton hsingle, henabled]
    exact ⟨_, rfl, isEnabled_ofSetting kind entry.setting 0⟩
  | none =>
    rw [settings_of_no_entry hentry, isEnabled, level?_of_no_entry hentry]
    split_ifs
    · exact ⟨_, rfl, rfl⟩
    · exact ⟨_, rfl, rfl⟩

end LintConfig

theorem exists_rule_of_mem_lint {c : LintConfig} {limit : Nat} {text : List Char} {g : Diagnostic}
    (h : g ∈ lint ⟨limit, c⟩ text) :
    ∃ r ∈ c.buildRules, g.source = r.kind.name ∧ g.code = r.kind.code ∧
      r.active = some g.severity := by
  obtain ⟨r, hr, hon, -, f, -, rfl⟩ := exists_finding_of_mem_lint h
  obtain ⟨severity, hactive⟩ := Option.isSome_iff_exists.mp hon
  refine ⟨r, hr, rfl, rfl, ?_⟩
  simp only [Rule.diagnose, Rule.severity, hactive, Option.getD_some]

/-- From a configuration to diagnostics. The rules come in blocks, one for each kind
and in the order of the kinds. A block has a rule for each setting of its kind, or
one that is off; which rules it has, and at which severities, is what the
configuration decides. Where the entry of a kind is no list of instances, there is
one rule, on or off as the level of the kind says. A diagnostic has the name, the
code and the severity of a rule that is on, so a kind with all rules off has none. -/
theorem buildRules_resolves (c : LintConfig) :
    c.buildRules = RuleKind.all.flatMap c.block ∧
    (∀ kind, LintConfig.IsBlock kind (c.settings kind.name) (c.block kind)) ∧
    (∀ kind i active,
      (∃ r, (c.block kind)[i]? = some r ∧ r.active = active) ↔ c.Decides kind i active) ∧
    (∀ kind, (∀ entries, ¬c.HasEntry kind.name (.instances entries)) →
      ∃ r, c.block kind = [r] ∧ r.isEnabled = c.isEnabled kind.name) ∧
    ∀ limit text,
      (∀ g ∈ lint ⟨limit, c⟩ text, ∃ kind, ∃ r ∈ c.block kind,
        g.source = kind.name ∧ g.code = kind.code ∧ r.active = some g.severity) ∧
      ∀ kind, (∀ r ∈ c.block kind, r.isEnabled = false) →
        ∀ g ∈ lint ⟨limit, c⟩ text, g.source ≠ kind.name := by
  refine ⟨c.buildRules_eq_flatMap_block, ?_, ?_, ?_, ?_⟩
  · intro kind
    rw [LintConfig.block_eq]
    exact LintConfig.isBlock_rulesOf kind _
  · intro kind i active
    exact LintConfig.exists_active_block_iff
  · intro kind h
    exact LintConfig.exists_block_eq_singleton h
  · intro limit text
    constructor
    · intro g hg
      obtain ⟨r, hr, hsource, hcode, hactive⟩ := exists_rule_of_mem_lint hg
      exact ⟨r.kind, r, LintConfig.mem_block.mpr ⟨hr, rfl⟩, hsource, hcode, hactive⟩
    · intro kind hoff g hg hname
      obtain ⟨r, hr, hsource, -, hactive⟩ := exists_rule_of_mem_lint hg
      have hkind : r.kind = kind := RuleKind.name_injective (hsource.symm.trans hname)
      have hdisabled := hoff r (LintConfig.mem_block.mpr ⟨hr, hkind⟩)
      rw [Rule.isEnabled, hactive] at hdisabled
      simp at hdisabled

/-- Presets with three instances of one rule: one that is off although it states a
severity, one at the severity that it states, and one at the severity of the rule;
and another rule that is off. -/
theorem buildRules_resolves_instances :
    let entry : RuleEntry :=
      .instances [.detailed (some .error) (some false) none, .detailed (some .error) none none,
        .detailed none none none]
    let c := (LintConfig.recommended.withRule "leading-comma" entry).withRule "final-newline"
      (.plain .off)
    let text := "select a\n , b ".toList
    (c.block .leadingComma).map Rule.active = [none, some .error, some .warning] ∧
      c.Decides .leadingComma 1 (some .error) ∧ c.Decides .leadingComma 2 (some .warning) ∧
      (∃ r, c.block .finalNewline = [r] ∧ r.isEnabled = c.isEnabled "final-newline") ∧
      (Linter.collect c.buildRules (Document.parse text)).map (fun g => (g.source, g.severity)) =
        [("trailing-whitespace", .warning), ("leading-comma", .error),
          ("leading-comma", .warning)] ∧
      ∀ g ∈ lint ⟨5, c⟩ text, g.source ≠ "final-newline" := by
  intro entry c text
  obtain ⟨-, -, hdecides, hsingle, hlint⟩ := buildRules_resolves c
  have hblock : (c.block .leadingComma).map Rule.active = [none, some .error, some .warning] := by
    decide +kernel
  have hactive : ∀ (i : Nat) (active : Option Severity),
      [none, some .error, some .warning][i]? = some active → c.Decides .leadingComma i active := by
    intro i active hi
    apply (hdecides .leadingComma i active).mp
    rw [← hblock, List.getElem?_map] at hi
    exact Option.map_eq_some_iff.mp hi
  have hoff : ∀ r ∈ c.block .finalNewline, r.isEnabled = false := by decide +kernel
  refine ⟨hblock, hactive 1 _ rfl, hactive 2 _ rfl, ?_, by decide +kernel,
    (hlint 5 text).2 .finalNewline hoff⟩
  apply hsingle .finalNewline
  intro entries hentries
  have hentry : c.table.get? "final-newline" = some (.plain .off) := by rfl
  cases hentry.symm.trans (LintConfig.hasEntry_iff.mp hentries)

end QueryLint
