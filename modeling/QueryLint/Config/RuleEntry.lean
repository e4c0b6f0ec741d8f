import QueryLint.Data.Value
import QueryLint.Rule.Basic
import QueryLint.Severity

/-!
# Entries of rules

What a configuration says about one rule: a level, a level with options, or a
list of such entries, one for each instance of the rule.
-/
namespace QueryLint

open Data (Value)

inductive RuleEntry where
  | plain (level : Level)
  | detailed (level : Option Level) (enabled : Option Bool) (options : Option Value)
  | instances (entries : List RuleEntry)
  deriving Inhabited

namespace RuleEntry

/-- The level in effect. `enabled: false` wins over any level, an object without
a level is on, and a list stands for its first entry. -/
def effective : RuleEntry → Level
  | plain l => l
  | detailed l enabled _ => if enabled = some false then .off else l.getD .on
  | instances [] => .off
  | instances (first :: _) => first.effective

/-- The options; a list stands for its first entry. -/
def options? : RuleEntry → Option Value
  | plain _ => none
  | detailed _ _ options => options
  | instances [] => none
  | instances (first :: _) => first.options?

def isInstances : RuleEntry → Bool
  | instances _ => true
  | _ => false

/-- The entries of the instances, in order. -/
def toInstances : RuleEntry → List RuleEntry
  | instances entries => entries
  | entry => [entry]

def setting (e : RuleEntry) : RuleSetting := ⟨e.effective, e.options?⟩

def settings (e : RuleEntry) : List RuleSetting := e.toInstances.map setting

end RuleEntry
end QueryLint
