import QueryLint.Codec.Lint
import QueryLint.Linter

/-!
# Settings as values

Settings are a record of the limit, a lint configuration and a table of rule
entries, all of which may be missing. Entries next to a configuration are laid
over it; entries alone configure exactly the rules that they name; without both,
the recommended configuration is in effect.
-/
namespace QueryLint

open Data (Value Table)

namespace Settings

structure Parts where
  maxProblems : Nat := 1000
  lint : Option LintConfig := none
  rules : Option (Table RuleEntry) := none

/-- The configuration that the parts amount to. -/
def ofParts (p : Parts) : Settings :=
  let lint :=
    match p.lint, p.rules with
    | some lint, some rules => lint.merge (.full none rules)
    | some lint, none => lint
    | none, some rules => .full none rules
    | none, none => .recommended
  ⟨p.maxProblems, lint⟩

def recordNames : List String := ["maxNumberOfProblems", "lint", "rules"]

def Parts.put (p : Parts) (name : String) (v : Value) : Except EntryFault Parts :=
  if name = "maxNumberOfProblems" then
    match v.natBelow? (Nat.pow 2 64) with
    | some n => .ok { p with maxProblems := n }
    | none => .error .malformed
  else if name = "lint" then
    if v.isNull then .ok p
    else
      match LintConfig.ofValue? v with
      | some lint => .ok { p with lint := some lint }
      | none => .error .malformed
  else if v.isNull then .ok p
  else do return { p with rules := some (← LintConfig.rulesOfValue v) }

def ofValue (v : Value) : Except EntryFault Settings :=
  match Codec.fields? recordNames v with
  | none => .error .malformed
  | some fields => do
    return ofParts (← fields.foldlM (fun p field => p.put field.1 field.2) {})

end Settings
end QueryLint
