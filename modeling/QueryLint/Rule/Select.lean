import QueryLint.Rule.Finding

/-!
# Rules on SELECT

A comma before FROM, a modifier on another line than its SELECT, and parentheses
around the only column behind DISTINCT. All three look at significant tokens
only, so comments and blanks in between make no difference to what is found.
-/
namespace QueryLint
namespace Select

def trailingComma (d : Document) : List Finding :=
  Finding.along (fun t rest =>
    if t.isPunctuation "," ∧ (Finding.nextIf? (·.isKeyword "FROM") rest).isSome then
      some { range := t.range, fix := Fix.delete "Remove trailing comma" t.range }
    else none) d.tokens

/-- The keywords that modify SELECT. -/
def modifierWords : List String := ["DISTINCT", "ALL", "AS", "WITH"]

/-- SELECT with a modifier that starts on another line. -/
def modifiers (d : Document) : List Finding :=
  Finding.along (fun select rest =>
    if select.isKeyword "SELECT" then do
      let (modifier, _) ← Finding.nextIf? (fun t => modifierWords.any fun word => t.isKeyword word) rest
      if modifier.range.start.line ≠ select.range.stop.line then
        some { range := select.range.cover modifier.range }
      else none
    else none) d.tokens

def isName (t : Token) : Bool := t.kind == .identifier

/-- A column, with its table or without, and the parenthesis that closes it. The
result is the column's text and that parenthesis. -/
def closedColumn? (ts : List Token) : Option (List Char × Token) := do
  let (first, rest) ← Finding.nextIf? isName ts
  match Finding.nextIf? (·.isPunctuation ".") rest with
  | none =>
    let (close, _) ← Finding.nextIf? (·.isPunctuation ")") rest
    return (first.chars, close)
  | some (_, rest) =>
    let (second, rest) ← Finding.nextIf? isName rest
    let (close, _) ← Finding.nextIf? (·.isPunctuation ")") rest
    return (first.chars ++ '.' :: second.chars, close)

def distinctParentheses (d : Document) : List Finding :=
  Finding.along (fun select rest =>
    if select.isKeyword "SELECT" then do
      let (distinct, rest) ← Finding.nextIf? (·.isKeyword "DISTINCT") rest
      let (_, rest) ← Finding.nextIf? (·.isPunctuation "(") rest
      let (column, close) ← closedColumn? rest
      let range := distinct.range.cover close.range
      some
        { range
          fix := Fix.replace "Remove parentheses" range
            (String.ofList (distinct.chars ++ ' ' :: column)) }
    else none) d.tokens

end Select
end QueryLint
