import QueryLint.Config.RuleEntry

/-!
# Rule entries as values

An entry is written as a level, a boolean, an array of a level and options, an
object, or an array of entries. In an object every field other than `severity`,
`enabled` and `options` is an option of its own, unless `options` has the same
one. Options that are null count as none.
-/
namespace QueryLint

open Data (Value)

inductive EntryFault where
  | unknownLevel (name : String)
  | nestedInstances
  | emptyArray
  /-- A level and options are followed by more items; the array's length. -/
  | longArray (length : Nat)
  /-- The value has none of the forms of an entry. -/
  | malformed
  deriving DecidableEq, Repr

namespace EntryFault

/-- The text of a fault; none for a value of a wrong form. -/
def message? : EntryFault → Option String
  | unknownLevel name =>
    some ("unknown severity: " ++ name ++ " (expected off, on, hint, info, warn or error)")
  | nestedInstances => some "rule instance lists cannot be nested"
  | emptyArray => some "invalid length 0, expected a non-empty array"
  | longArray length =>
    some ("invalid length " ++ toString length ++ ", expected an array [severity, options]")
  | malformed => none

end EntryFault

namespace RuleEntry

def parseLevel (name : String) : Except EntryFault Level :=
  match Level.ofKeyword? name with
  | some level => .ok level
  | none => .error (.unknownLevel name)

/-- The only field of a name, if there is one at all. -/
def soleField (name : String) (fields : List (String × Value)) :
    Except EntryFault (Option Value) :=
  match fields.filter fun field => field.1 == name with
  | [] => .ok none
  | [field] => .ok (some field.2)
  | _ => .error .malformed

/-- The names of the fields that are not options. -/
def ownFields : List String := ["severity", "enabled", "options"]

/-- Options with the fields of `inline` added to them, where they leave room. -/
def withInline (options : Option Value) (inline : List (String × Value)) : Option Value :=
  if inline.isEmpty then options
  else
    match options with
    | none => some (.object inline)
    | some (.object explicit) => some (.object (Data.sortEntries (inline ++ explicit)))
    | some other => some other

/-- Null counts as no value. -/
def present? (v : Value) : Option Value := if v.isNull then none else some v

def ofFields (fields : List (String × Value)) : Except EntryFault RuleEntry := do
  let severity ←
    match ← soleField "severity" fields with
    | none | some .null => pure none
    | some (.string name) => pure (some name)
    | some _ => throw .malformed
  let enabled ←
    match ← soleField "enabled" fields with
    | none | some .null => pure none
    | some (.bool b) => pure (some b)
    | some _ => throw .malformed
  let explicit := (← soleField "options" fields).bind fun v => present? v.canonical
  let inline := Data.sortEntries
    (Value.canonicalFields (fields.filter fun field => !ownFields.contains field.1))
  let level ←
    match severity with
    | some name => some <$> parseLevel name
    | none => pure none
  return .detailed level enabled (withInline explicit inline)

/-- The entry of a level and what follows it in an array. -/
def ofPair (name : String) (rest : List Value) : Except EntryFault RuleEntry :=
  if 1 < rest.length then .error (.longArray (rest.length + 1))
  else do
    let level ← parseLevel name
    match rest.head?.bind present? with
    | some options => return .detailed (some level) none (some options)
    | none => return .plain level

mutual

/-- The entry of a value whose arrays hold canonical values. -/
def decode : Value → Except EntryFault RuleEntry
  | .string name => .plain <$> parseLevel name
  | .bool b => .ok (.plain (if b then .on else .off))
  | .array [] => .error .emptyArray
  | .array (.string name :: rest) => ofPair name rest
  | .array items => .instances <$> decodeItems items
  | .object fields => ofFields fields
  | _ => .error .malformed

def decodeItems : List Value → Except EntryFault (List RuleEntry)
  | [] => .ok []
  | v :: vs => do
    let entry ← decode v
    if entry.isInstances then throw .nestedInstances
    return entry :: (← decodeItems vs)

end

def ofValue : Value → Except EntryFault RuleEntry
  | .array items => decode (.array (Value.canonicalItems items))
  | v => decode v

mutual

def toValue : RuleEntry → Value
  | plain l => .string l.name
  | detailed l enabled options =>
    .object
      ((l.map fun l => ("severity", .string l.name)).toList ++
        (enabled.map fun b => ("enabled", .bool b)).toList ++
        (options.map fun v => ("options", v)).toList)
  | instances entries => .array (toValues entries)

def toValues : List RuleEntry → List Value
  | [] => []
  | e :: es => e.toValue :: toValues es

end

end RuleEntry
end QueryLint
