import QueryLint.Data.Value

/-!
# Records as values

A record with fixed fields is read from an object or from an array of its fields
in order. `fields?` brings both forms to one: the fields that are present, with
their names, each at most once. Names that the record does not have are dropped.
-/
namespace QueryLint
namespace Codec

open Data (Value)

def noRepeats : List String → Bool
  | [] => true
  | name :: names => !names.contains name && noRepeats names

/-- The fields of a record that has the given names. -/
def fields? (names : List String) : Value → Option (List (String × Value))
  | .object fields =>
    let known := fields.filter fun field => names.contains field.1
    if noRepeats (known.map Prod.fst) then some known else none
  | .array items => if items.length ≤ names.length then some (names.zip items) else none
  | _ => none

/-- A name given as a string, or as the one field of an object with the value
null. -/
def tag? : Value → Option String
  | .string s => some s
  | .object [(name, .null)] => some name
  | _ => none

end Codec
end QueryLint
