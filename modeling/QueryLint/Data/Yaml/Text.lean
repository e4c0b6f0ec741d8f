/-!
# Characters and lines in YAML

Lines end at a line feed, a carriage return, both together, or one of the three
Unicode line ends. A `Mark` is a place in a text: its character, line and column,
all counted from zero.
-/
namespace QueryLint
namespace Data
namespace Yaml

/-- The characters that a YAML text may hold. -/
def isAllowed (c : Char) : Bool :=
  let n := c.toNat
  n == 0x9 || n == 0xA || n == 0xD || (0x20 ≤ n && n ≤ 0x7E) || n == 0x85
    || (0xA0 ≤ n && n ≤ 0xD7FF) || (0xE000 ≤ n && n ≤ 0xFFFD) || 0x10000 ≤ n

def isByteOrderMark (c : Char) : Bool := c.toNat == 0xFEFF

def isBreak (c : Char) : Bool :=
  let n := c.toNat
  n == 0xA || n == 0xD || n == 0x85 || n == 0x2028 || n == 0x2029

def isBlank (c : Char) : Bool := c == ' ' || c == '\t'

/-- Whether a text starts with a blank or a line break, or is at its end. -/
def atGap (cs : List Char) : Bool :=
  cs.head?.all fun c => isBlank c || isBreak c

/-- Whether a text starts with a line break, or is at its end. -/
def atLineEnd (cs : List Char) : Bool := cs.head?.all isBreak

/-- A line break at the start of a text as it counts in a scalar, and what
follows it. -/
def readBreak : List Char → List Char × List Char
  | [] => ([], [])
  | '\r' :: '\n' :: cs => (['\n'], cs)
  | c :: cs =>
    if c.toNat = 0x2028 ∨ c.toNat = 0x2029 then ([c], cs) else (['\n'], cs)

/-- Whether a marker of three characters, at the start of a line, stands alone. -/
def isMarker (marker : List Char) (column : Nat) (cs : List Char) : Bool :=
  column == 0 && marker.isPrefixOf cs && atGap (cs.drop 3)

def atDocumentMarker (column : Nat) (cs : List Char) : Bool :=
  isMarker ['-', '-', '-'] column cs || isMarker ['.', '.', '.'] column cs

structure Mark where
  index : Nat := 0
  line : Nat := 0
  column : Nat := 0
  deriving DecidableEq, Repr

namespace Mark

def advance (m : Mark) : List Char → Mark
  | [] => m
  | c :: cs =>
    if c == '\r' && cs.head? == some '\n' then advance ⟨m.index + 1, m.line, m.column⟩ cs
    else if isBreak c then advance ⟨m.index + 1, m.line + 1, 0⟩ cs
    else advance ⟨m.index + 1, m.line, m.column + 1⟩ cs

end Mark

end Yaml
end Data
end QueryLint
