import QueryLint.Config.RuleEntry
import QueryLint.Data.Table

/-!
# Lint configurations

A configuration is a choice of presets, or a table of rule entries that may build
on presets. The one preset there is, `recommended`, turns every rule on. A rule's
own entry wins over presets, and a rule that neither mentions is not configured.

`merge` lays one configuration over another, and `buildRules` makes the rules that
a configuration describes: at least one of each kind, so that a kind that is not
configured is there and off.
-/
namespace QueryLint

open Data (Value Table)

inductive Presets where
  | single (name : String)
  | several (names : List String)
  deriving DecidableEq, Repr

namespace Presets

def recommended : String := "recommended"

def names : Presets → List String
  | single name => [name]
  | several names => names

def level? (p : Presets) (rule : String) : Option Level :=
  if p.names.contains recommended && (RuleKind.ofName? rule).isSome then some .on else none

end Presets

inductive LintConfig where
  | presets (presets : Presets)
  | full (base : Option Presets) (rules : Table RuleEntry)

inductive ConfigFault where
  | unknownPreset (name : String)
  | unknownRules (names : List String)
  deriving DecidableEq, Repr

namespace ConfigFault

def message : ConfigFault → String
  | unknownPreset name =>
    "Invalid preset name: '" ++ name ++ "'\n\nValid presets are:\n  - " ++ Presets.recommended
  | unknownRules names =>
    "Invalid lint rule name(s): " ++ ", ".intercalate names ++ "\n\nValid rule names are:\n" ++
      String.join (RuleKind.sortedNames.map fun name => "  - " ++ name ++ "\n")

end ConfigFault

namespace LintConfig

def recommended : LintConfig := presets (.single Presets.recommended)

def empty : LintConfig := full none Table.empty

def ofRules (entries : List (String × RuleEntry)) : LintConfig :=
  full none (Table.ofList entries)

/-- The presets that are chosen or built on. -/
def base? : LintConfig → Option Presets
  | presets p => some p
  | full base _ => base

def table : LintConfig → Table RuleEntry
  | presets _ => Table.empty
  | full _ rules => rules

variable (c : LintConfig)

def withRule (rule : String) (entry : RuleEntry) : LintConfig :=
  full c.base? (c.table.insert rule entry)

/-- The names in the table of entries, sorted. -/
def ruleNames : List String := c.table.names

/-- Refuse unknown presets, then unknown rules. -/
def validate : Except ConfigFault Unit :=
  let presets := (c.base?.map Presets.names).getD []
  match presets.find? (· != Presets.recommended) with
  | some name => .error (.unknownPreset name)
  | none =>
    let unknown := c.ruleNames.filter fun name => !(RuleKind.all.map RuleKind.name).contains name
    if unknown.isEmpty then .ok () else .error (.unknownRules unknown)

/-- The level of a rule: by its entry, else by presets. -/
def level? (rule : String) : Option Level :=
  ((c.table.get? rule).map RuleEntry.effective).or (c.base?.bind fun p => p.level? rule)

def options? (rule : String) : Option Value :=
  (c.table.get? rule).bind RuleEntry.options?

def isEnabled (rule : String) : Bool :=
  (c.level? rule).any Level.isEnabled

/-- The settings of all instances of a rule, in order; none when the rule is not
configured. -/
def settings (rule : String) : List RuleSetting :=
  match c.table.get? rule with
  | some entry => entry.settings
  | none => ((c.level? rule).map fun level => ⟨level, none⟩).toList

/-- Lay a configuration over this one. Presets replace everything, a
configuration that says nothing changes nothing, and otherwise entries are added
and presets are kept unless the upper configuration has its own. -/
def merge (upper : LintConfig) : LintConfig :=
  match upper with
  | presets p => presets p
  | full base rules =>
    if base = none ∧ rules.isEmpty then c
    else full (base.or c.base?) (c.table.extend rules)

/-- The rules of one kind under the given settings. -/
def rulesOf (kind : RuleKind) (settings : List RuleSetting) : List Rule :=
  if settings.isEmpty then [Rule.ofSetting kind .off 0]
  else settings.zipIdx.map fun (setting, index) => Rule.ofSetting kind setting index

def buildRules : List Rule :=
  RuleKind.all.flatMap fun kind => rulesOf kind (c.settings kind.name)

end LintConfig
end QueryLint
