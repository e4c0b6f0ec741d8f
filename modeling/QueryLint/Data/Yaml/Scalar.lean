import QueryLint.Data.Json.Read
import QueryLint.Data.Yaml.Text

/-!
# Scalars in YAML

Plain, quoted and block scalars, from their text to the characters that they stand
for. Scalars may run over lines: a single line break becomes a space, and further
ones are kept. Each reader takes the text behind the scalar's first indicator and
gives the characters and the rest of the text.
-/
namespace QueryLint
namespace Data
namespace Yaml

/-- Blanks and line breaks between two words of a scalar. -/
structure Gap where
  /-- Blanks before the first line break. -/
  blanks : List Char := []
  /-- Whether a line has ended. -/
  broken : Bool := false
  /-- The first line break. -/
  first : List Char := []
  /-- The line breaks behind it. -/
  more : List Char := []

namespace Gap

def text (g : Gap) : List Char :=
  if !g.broken then g.blanks
  else if g.first = ['\n'] then if g.more.isEmpty then [' '] else g.more
  else g.first ++ g.more

def addBreak (g : Gap) (chars : List Char) : Gap :=
  if g.broken then { g with more := g.more ++ chars }
  else { blanks := [], broken := true, first := chars, more := [] }

def addBlank (g : Gap) (c : Char) : Gap :=
  if g.broken then g else { g with blanks := g.blanks ++ [c] }

end Gap

/-- The gap at the start of a text, with the column behind it. A tab may not stand
in the indentation, which reaches up to a column. -/
def readGap (indent : Int) (g : Gap) (column : Nat) : List Char → Option (Gap × Nat × List Char)
  | [] => some (g, column, [])
  | '\r' :: '\n' :: cs => readGap indent (g.addBreak ['\n']) 0 cs
  | c :: cs =>
    if isBlank c then
      if g.broken ∧ (column : Int) < indent ∧ c = '\t' then none
      else readGap indent (g.addBlank c) (column + 1) cs
    else if isBreak c then readGap indent (g.addBreak (readBreak [c]).1) 0 cs
    else some (g, column, c :: cs)

/-- The indicators that end a plain scalar in a flow collection. -/
def flowIndicators : List Char := [',', '[', ']', '\x7b', '\x7d']

/-- The word at the start of a text, none if a colon stands where it may not. -/
def plainWord (flow : Bool) : List Char → Option (List Char × List Char)
  | [] => some ([], [])
  | c :: cs =>
    if isBlank c || isBreak c then some ([], c :: cs)
    else if flow ∧ c = ':' ∧ cs.head?.any fun d => d == '?' || flowIndicators.contains d then none
    else if (c = ':' ∧ atGap cs) ∨ (flow ∧ flowIndicators.contains c) then some ([], c :: cs)
    else do
      let (word, rest) ← plainWord flow cs
      return (c :: word, rest)

/-- The words of a plain scalar from a place on. `g` is the gap before that place.
The result says whether the scalar is followed by a line break. -/
def plainWords (flow : Bool) (indent : Int) :
    Nat → Gap → Nat → List Char → Option (List Char × Bool × List Char)
  | 0, _, _, _ => none
  | fuel + 1, g, column, cs =>
    if atDocumentMarker column cs || cs.head? == some '#' then some ([], g.broken, cs)
    else do
      let (word, rest) ← plainWord flow cs
      let text := if word.isEmpty then [] else g.text ++ word
      let g := if word.isEmpty then g else {}
      match rest with
      | [] => return (text, g.broken, [])
      | c :: _ =>
        if isBlank c || isBreak c then
          let (g, column, rest) ← readGap indent g (column + word.length) rest
          if !flow && (column : Int) < indent then return (text, g.broken, rest)
          let (more, broken, rest) ← plainWords flow indent fuel g column rest
          return (text ++ more, broken, rest)
        else return (text, g.broken, rest)

def simpleEscape? (c : Char) : Option Char :=
  [('0', 0x0), ('a', 0x7), ('b', 0x8), ('t', 0x9), ('\t', 0x9), ('n', 0xA), ('v', 0xB), ('f', 0xC),
   ('r', 0xD), ('e', 0x1B), (' ', 0x20), ('"', 0x22), ('/', 0x2F), ('\\', 0x5C), ('N', 0x85),
   ('_', 0xA0), ('L', 0x2028), ('P', 0x2029)].lookup c |>.map Char.ofNat

/-- How many hexadecimal digits follow a character behind a backslash. -/
def escapeDigits? (c : Char) : Option Nat :=
  [('x', 2), ('u', 4), ('U', 8)].lookup c

def charOfHex? (digits : List Char) : Option Char := do
  let n ← Json.hexNumber? digits
  if (0xD800 ≤ n ∧ n ≤ 0xDFFF) ∨ 0x10FFFF < n then none else return Char.ofNat n

/-- The character that an escape sequence stands for, from the text behind its
backslash, and the rest of the text. -/
def readEscape : List Char → Option (Char × List Char)
  | [] => none
  | c :: cs =>
    match simpleEscape? c with
    | some d => some (d, cs)
    | none => do
      let count ← escapeDigits? c
      if cs.length < count then none
      return (← charOfHex? (cs.take count), cs.drop count)

/-- A word of a quoted scalar, whether an escaped line break ended it, and the
rest. -/
def quotedWord (quote : Char) : Nat → List Char → Option (List Char × Bool × List Char)
  | 0, _ => none
  | _ + 1, [] => some ([], false, [])
  | fuel + 1, c :: cs =>
    if isBlank c || isBreak c then some ([], false, c :: cs)
    else if c = quote then
      if quote = '\'' ∧ cs.head? = some '\'' then do
        let (word, escaped, rest) ← quotedWord quote fuel (cs.drop 1)
        return ('\'' :: word, escaped, rest)
      else some ([], false, c :: cs)
    else if quote = '"' ∧ c = '\\' then
      if cs.head?.any isBreak then some ([], true, (readBreak cs).2)
      else do
        let (d, cs) ← readEscape cs
        let (word, escaped, rest) ← quotedWord quote fuel cs
        return (d :: word, escaped, rest)
    else do
      let (word, escaped, rest) ← quotedWord quote fuel cs
      return (c :: word, escaped, rest)

/-- A quoted scalar from a place on, up to and without its closing quote. -/
def quotedWords (quote : Char) : Nat → Nat → List Char → Option (List Char × List Char)
  | 0, _, _ => none
  | fuel + 1, column, cs =>
    if atDocumentMarker column cs || cs.isEmpty then none
    else do
      let (word, escaped, rest) ← quotedWord quote (cs.length + 1) cs
      if rest.head? = some quote then return (word, rest.drop 1)
      let column := if escaped then 0 else column + (cs.length - rest.length)
      let (g, column, rest) ← readGap 0 { broken := escaped } column rest
      let (more, rest) ← quotedWords quote fuel column rest
      return (word ++ g.text ++ more, rest)

/-- What is done with line breaks at the end of a block scalar. -/
inductive Chomping where
  | clip
  | strip
  | keep
  deriving DecidableEq, Repr

def chomping? (c : Char) : Option Chomping :=
  if c = '+' then some .keep else if c = '-' then some .strip else none

def indentDigit? (c : Char) : Option Nat :=
  if c.isDigit then some (c.toNat - 48) else none

/-- The indicators at the head of a block scalar, and the rest. An indentation of
zero is refused. -/
def readHeader (cs : List Char) : Option (Chomping × Option Nat × List Char) := do
  let (chomping, increment, rest) :=
    match cs.head?.bind chomping? with
    | some chomping =>
      match (cs.drop 1).head?.bind indentDigit? with
      | some n => (chomping, some n, cs.drop 2)
      | none => (chomping, none, cs.drop 1)
    | none =>
      match cs.head?.bind indentDigit? with
      | some n =>
        match (cs.drop 1).head?.bind chomping? with
        | some chomping => (chomping, some n, cs.drop 2)
        | none => (.clip, some n, cs.drop 1)
      | none => (.clip, none, cs)
  if increment = some 0 then none
  let rest := rest.dropWhile isBlank
  let rest := if rest.head? = some '#' then rest.dropWhile fun c => !isBreak c else rest
  if atLineEnd rest then return (chomping, increment, (readBreak rest).2) else none

/-- The empty lines at the start of a text: their line breaks, the widest
indentation seen, the column and the rest. Indentation is read up to a column, or
as far as it goes if none is given. -/
def readEmptyLines (indent : Option Nat) :
    Nat → Nat → List Char → Option (List Char × Nat × Nat × List Char)
  | 0, _, _ => none
  | fuel + 1, widest, cs => do
    let spaces := (cs.takeWhile (· == ' ')).length
    let column := match indent with
      | some n => min n spaces
      | none => spaces
    let rest := cs.drop column
    let widest := max widest column
    if indent.all (column < ·) ∧ rest.head? = some '\t' then none
    if rest.head?.any isBreak then
      let (chars, rest) := readBreak rest
      let (more, widest, column, rest) ← readEmptyLines indent fuel widest rest
      return (chars ++ more, widest, column, rest)
    else return ([], widest, column, rest)

/-- The lines of a block scalar: its text, and the line breaks at its end, the
first one and the others. -/
def blockLines (folded : Bool) (indent : Nat) :
    Nat → List Char → List Char → Bool → Nat → List Char →
      Option (List Char × List Char × List Char × List Char)
  | 0, _, _, _, _, _ => none
  | fuel + 1, first, more, wasBlank, column, cs =>
    if column = indent ∧ !cs.isEmpty then do
      let blank := cs.head?.any isBlank
      let joint :=
        if folded ∧ first = ['\n'] ∧ !wasBlank ∧ !blank then
          if more.isEmpty then [' '] else []
        else first
      let (line, rest) := cs.span fun c => !isBreak c
      let (first', rest) := readBreak rest
      let (more', _, column, rest) ← readEmptyLines (some indent) (rest.length + 1) 0 rest
      let (text, first', more', rest) ← blockLines folded indent fuel first' more' blank column rest
      return (joint ++ more ++ line ++ text, first', more', rest)
    else some ([], first, more, cs)

/-- A block scalar inside a collection that is indented by `outer`. -/
def readBlock (folded : Bool) (outer : Int) (cs : List Char) : Option (List Char × List Char) := do
  let (chomping, increment, rest) ← readHeader cs
  let given := increment.map fun n => if 0 ≤ outer then outer.toNat + n else n
  let (breaks, widest, column, rest) ← readEmptyLines given (rest.length + 1) 0 rest
  let indent := given.getD (max widest (max (outer + 1).toNat 1))
  let (text, first, more, rest) ←
    blockLines folded indent (rest.length + 1) [] breaks false column rest
  let tail :=
    match chomping with
    | .strip => []
    | .clip => first
    | .keep => first ++ more
  return (text ++ tail, rest)

end Yaml
end Data
end QueryLint
