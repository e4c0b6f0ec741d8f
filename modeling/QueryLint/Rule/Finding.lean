import QueryLint.Document
import QueryLint.Edit

/-!
# Findings

A finding is a place that a rule objects to, and perhaps a fix. Most rules look
at each token together with the tokens behind it; `along` does that in document
order.
-/
namespace QueryLint

structure Finding where
  range : Range
  fix : Option Fix := none
  deriving DecidableEq, Repr

namespace Finding

/-- What `look` finds at each token, given the tokens behind it. -/
def along (look : Token → List Token → Option Finding) : List Token → List Finding
  | [] => []
  | t :: ts => (look t ts).toList ++ along look ts

/-- The next significant token and the tokens behind it. -/
def next? : List Token → Option (Token × List Token)
  | [] => none
  | t :: ts => if t.isSignificant then some (t, ts) else next? ts

/-- The next significant token, if it satisfies `p`. -/
def nextIf? (p : Token → Bool) (ts : List Token) : Option (Token × List Token) :=
  (next? ts).filter fun found => p found.1

end Finding
end QueryLint
