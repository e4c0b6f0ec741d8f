import QueryLint.Codec.Record
import QueryLint.Codec.RuleEntry
import QueryLint.Config.Lint

/-!
# Lint configurations as values

A string or an array of strings chooses presets. Otherwise a configuration is a
record of the presets to build on, in the field `extends`, and of the entries, in
the field `rules`; unlike other records it has no further fields.
-/
namespace QueryLint

open Data (Value Table)

namespace Presets

def ofValue? : Value → Option Presets
  | .string name => some (.single name)
  | v => v.strings?.map .several

def toValue : Presets → Value
  | single name => .string name
  | several names => .array (names.map .string)

end Presets

namespace LintConfig

/-- A table of rule entries; the last entry of a name counts. -/
def rulesOfValue : Value → Except EntryFault (Table RuleEntry)
  | .object fields => do
    let entries ← fields.mapM fun (name, v) => do return (name, ← RuleEntry.ofValue v)
    return Table.ofList entries
  | _ => .error .malformed

def recordNames : List String := ["extends", "rules"]

def ofRecord? (v : Value) : Option LintConfig := do
  if let .object fields := v then
    guard (fields.all fun field => recordNames.contains field.1)
  let fields ← Codec.fields? recordNames v
  let base ←
    match fields.lookup "extends" with
    | none | some .null => pure none
    | some v => some <$> Presets.ofValue? v
  let rules ←
    match fields.lookup "rules" with
    | none => pure Table.empty
    | some v => (rulesOfValue v).toOption
  return .full base rules

def ofValue? (v : Value) : Option LintConfig :=
  ((Presets.ofValue? v).map .presets).or (ofRecord? v)

/-- The value of a configuration. Presets to build on and entries are left out
where there are none. -/
def toValue : LintConfig → Value
  | presets p => p.toValue
  | full base rules =>
    .object
      ((base.map fun p => ("extends", p.toValue)).toList ++
        if rules.isEmpty then []
        else [("rules", .object (rules.entries.map fun (name, e) => (name, e.toValue)))])

end LintConfig
end QueryLint
