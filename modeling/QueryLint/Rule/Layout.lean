import QueryLint.Rule.Finding

/-!
# Rules on layout

Blanks at the beginning of a document, at the end of a line and at the end of a
document, and the side of a line break that commas stand on.
-/
namespace QueryLint

/-- Where commas stand in a list that is broken over lines. -/
inductive CommaPosition where
  /-- At the end of a line. -/
  | trailing
  /-- At the start of a line. -/
  | leading
  deriving DecidableEq, Repr, Inhabited

namespace CommaPosition

def name : CommaPosition → String
  | trailing => "trailing"
  | leading => "leading"

def ofName? (name : String) : Option CommaPosition :=
  [trailing, leading].find? (·.name == name)

end CommaPosition

namespace Layout

def leadingWhitespace (d : Document) : List Finding :=
  match d.tokens with
  | [] => []
  | t :: _ =>
    if t.isTrivia then
      let content := ((d.tokens.find? fun t => !t.isTrivia).map (·.range.start)).getD d.stop
      [{ range := t.range
         fix := Fix.delete "Remove leading whitespace" (Range.between t.range.start content) }]
    else []

/-- Blanks right before a line break or the end of the document. -/
def trailingWhitespace (d : Document) : List Finding :=
  Finding.along (fun t rest =>
    if t.kind = .whitespace ∧ rest.head?.all (·.kind == .newline) then
      some { range := t.range, fix := Fix.delete "Remove trailing whitespace" t.range }
    else none) d.tokens

/-- Anything but one line break behind the last token that is no trivia. Blanks
before that line break are none of this rule's business. -/
def finalNewline (d : Document) : List Finding :=
  let backwards := d.tokens.reverse
  match backwards.dropWhile (·.isTrivia) with
  | [] => []
  | last :: _ =>
    let tail := backwards.takeWhile (·.isTrivia)
    if tail.countP (·.kind == .newline) = 1 ∧ tail.head?.any (·.kind == .newline) then []
    else
      [{ range := Range.point d.stop
         fix := Fix.replace "Fix trailing newline" (Range.between last.range.stop d.stop) "\n" }]

/-- The commas that only blanks separate from the start of their line. `fresh`
says whether that holds of the next token. -/
def lineStartCommas (fresh : Bool) : List Token → List Finding
  | [] => []
  | t :: ts =>
    let here : List Finding := if t.isPunctuation "," && fresh then [{ range := t.range }] else []
    let fresh := if t.kind = .whitespace then fresh else t.kind == .newline
    here ++ lineStartCommas fresh ts

/-- Whether only blanks and line comments stand between here and the line's end. -/
def atLineEnd (rest : List Token) : Bool :=
  (rest.find? fun t => t.kind != .whitespace && !t.isLineComment).all (·.kind == .newline)

/-- Commas on the wrong side of a line break. -/
def commas (position : CommaPosition) (d : Document) : List Finding :=
  match position with
  | .trailing => lineStartCommas true d.tokens
  | .leading =>
    Finding.along (fun t rest =>
      if t.isPunctuation "," ∧ atLineEnd rest then some { range := t.range } else none) d.tokens

end Layout
end QueryLint
