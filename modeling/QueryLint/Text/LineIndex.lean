import QueryLint.Position

/-!
# Line index

The byte offset at which each line of a text starts, and the conversions
between byte offsets and positions that rest on it. Every conversion is total:
an offset past the end or inside a character moves back to the nearest
character boundary, a column past the end of a line stops before its line
break, and a line past the last one is the end of the text.
-/
namespace QueryLint
namespace Text

/-- The offsets just after each line break of a text that starts at `offset`. -/
def lineStartsFrom (offset : Nat) : List Char → List Nat
  | [] => []
  | c :: cs =>
    let next := offset + c.utf8Size
    if endsLine c cs then next :: lineStartsFrom next cs else lineStartsFrom next cs

structure LineIndex where
  text : List Char
  starts : List Nat
  starts_eq : starts = 0 :: lineStartsFrom 0 text

namespace LineIndex

def ofText (text : List Char) : LineIndex :=
  ⟨text, 0 :: lineStartsFrom 0 text, rfl⟩

variable (index : LineIndex)

def lineCount : Nat := index.starts.length

def lineStart? (line : Nat) : Option Nat := index.starts[line]?

/-- The line that holds a byte offset and the offset's distance, in bytes, from
the line's start. The offset may lie past the end of the text. -/
def lineColumn (offset : Nat) : Nat × Nat :=
  let upTo := index.starts.takeWhile (· ≤ offset)
  (upTo.length - 1, offset - upTo.getLast?.getD 0)

/-- The UTF-16 code units of a text without its line breaks. -/
def columnUnits (cs : List Char) : Nat :=
  (cs.filter fun c => !isLineBreak c).foldr (fun c units => charUnits c + units) 0

/-- The position of a byte offset. -/
def position (offset : Nat) : Position :=
  let before := takeBytes offset index.text
  let (line, column) := index.lineColumn (byteLength before)
  ⟨line, columnUnits (dropBytes (byteLength before - column) before)⟩

/-- The bytes of a line's beginning that reach column `units`. A column inside
a character reaches past that character. -/
def columnBytes : Nat → List Char → Nat
  | _, [] => 0
  | units, c :: cs =>
    if units = 0 ∨ isLineBreak c then 0
    else c.utf8Size + columnBytes (units - charUnits c) cs

/-- The byte offset of a position. -/
def offset (p : Position) : Nat :=
  match index.lineStart? p.line with
  | none => byteLength index.text
  | some start => start + columnBytes p.character (dropBytes start index.text)

end LineIndex

/-- The byte offset of a position in a text. -/
def offsetOf (text : List Char) (p : Position) : Nat :=
  (LineIndex.ofText text).offset p

end Text
end QueryLint
