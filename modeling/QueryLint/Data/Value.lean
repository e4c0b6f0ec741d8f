import QueryLint.Data.Binary64
import QueryLint.Data.Table

/-!
# Values

The values of rule options and of everything that is read from or written to a
settings text. The fields of an object are kept as they were written, in order
and with repetitions; `canonical` sorts them and keeps the last of each name.
-/
namespace QueryLint
namespace Data

inductive Number where
  | int (value : Int)
  | float (value : Binary64)
  /-- An infinity or an undefined number, for which JSON has no text. -/
  | nonFinite
  deriving DecidableEq, Repr, Inhabited

namespace Number

/-- The integers that numbers without a fraction are kept as. -/
def isInteger (i : Int) : Bool := decide (-Int.pow 2 63 ≤ i ∧ i < Int.pow 2 64)

end Number

inductive Value where
  | null
  | bool (value : Bool)
  | number (value : Number)
  | string (value : String)
  | array (items : List Value)
  | object (fields : List (String × Value))
  deriving Repr, Inhabited

namespace Value

def isNull : Value → Bool
  | null => true
  | _ => false

def string? : Value → Option String
  | string s => some s
  | _ => none

def natBelow? (bound : Nat) : Value → Option Nat
  | number (.int (.ofNat n)) => if n < bound then some n else none
  | _ => none

def strings? : Value → Option (List String)
  | array items => items.mapM string?
  | _ => none

end Value

namespace Value

mutual

/-- The value with all objects sorted, the last of each name kept, and null for
numbers that have no text. -/
def canonical : Value → Value
  | number .nonFinite => null
  | array items => array (canonicalItems items)
  | object fields => object (sortEntries (canonicalFields fields))
  | value => value

def canonicalItems : List Value → List Value
  | [] => []
  | v :: vs => v.canonical :: canonicalItems vs

def canonicalFields : List (String × Value) → List (String × Value)
  | [] => []
  | (name, v) :: fields => (name, v.canonical) :: canonicalFields fields

end

mutual

def depth : Value → Nat
  | array items => itemsDepth items + 1
  | object fields => fieldsDepth fields + 1
  | _ => 0

def itemsDepth : List Value → Nat
  | [] => 0
  | v :: vs => max v.depth (itemsDepth vs)

def fieldsDepth : List (String × Value) → Nat
  | [] => 0
  | (_, v) :: fields => max v.depth (fieldsDepth fields)

end

end Value

end Data
end QueryLint
