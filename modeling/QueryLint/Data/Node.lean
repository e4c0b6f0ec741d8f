import QueryLint.Data.Value

/-!
# Nodes of a settings text

What a text in a data format says, before it is known what each part is for. A
scalar keeps both its text and its meaning, because a part that is read as a name
takes the text of any scalar in one format and only a string in the other. A
scalar can also be well formed and have no value; it does no harm in a part that
nobody reads.
-/
namespace QueryLint
namespace Data

inductive Scalar where
  | null
  | bool (value : Bool)
  | number (value : Number)
  | string
  /-- Well formed, but without a value. -/
  | unreadable
  deriving DecidableEq, Repr, Inhabited

inductive Node where
  | scalar (written : String) (meaning : Scalar)
  | sequence (items : List Node)
  | mapping (entries : List (Node × Node))
  deriving Repr, Inhabited

inductive KeyReading where
  /-- The text of any scalar. -/
  | written
  /-- Strings only. -/
  | typed
  deriving DecidableEq, Repr

namespace Node

def name? (keys : KeyReading) : Node → Option String
  | scalar written meaning =>
    match keys with
    | .written => some written
    | .typed => if meaning = .string then some written else none
  | _ => none

mutual

/-- The node as a value, if all of it has one. -/
def value? (keys : KeyReading) : Node → Option Value
  | scalar written meaning =>
    match meaning with
    | .null => some .null
    | .bool b => some (.bool b)
    | .number n => some (.number n)
    | .string => some (.string written)
    | .unreadable => none
  | sequence items => (values? keys items).map .array
  | mapping entries => (fields? keys entries).map .object

def values? (keys : KeyReading) : List Node → Option (List Value)
  | [] => some []
  | n :: ns => do return (← value? keys n) :: (← values? keys ns)

def fields? (keys : KeyReading) : List (Node × Node) → Option (List (String × Value))
  | [] => some []
  | (k, v) :: es => do return ((← name? keys k), (← value? keys v)) :: (← fields? keys es)

end

end Node

end Data
end QueryLint
