import QueryLint.Rule.Finding

/-!
# The rule on comparisons with NULL

An equality or inequality sign before NULL should be IS or IS NOT. The list that
SET opens holds assignments, up to WHERE or FROM, and is passed over.
-/
namespace QueryLint
namespace Null

/-- What to write in place of a comparison sign. -/
def instead? (t : Token) : Option String :=
  if t.isPunctuation "=" then some "IS"
  else if t.isPunctuation "!=" ∨ t.isPunctuation "<>" then some "IS NOT"
  else none

def finding? (t : Token) (rest : List Token) : Option Finding := do
  let replacement ← instead? t
  let _ ← Finding.nextIf? (·.isKeyword "NULL") rest
  return { range := t.range, fix := Fix.replace ("Replace with " ++ replacement) t.range replacement }

/-- The comparisons with NULL in the tokens of a statement. `assigning` says
whether they start inside a list of assignments. -/
def findingsFrom (assigning : Bool) : List Token → List Finding
  | [] => []
  | t :: ts =>
    if t.isKeyword "SET" then findingsFrom true ts
    else if t.isKeyword "WHERE" ∨ t.isKeyword "FROM" then findingsFrom false ts
    else if assigning then findingsFrom assigning ts
    else (finding? t ts).toList ++ findingsFrom assigning ts

def comparisons (d : Document) : List Finding :=
  d.statements.flatMap fun s => findingsFrom false s.tokens

end Null
end QueryLint
