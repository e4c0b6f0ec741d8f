import QueryLint.Data.Yaml.Scalar

/-!
# Tokens of YAML

The tokens of a text, with the starts and ends of block collections made explicit
from the indentation. A key that is not marked is known as one only when its colon
is met, so each scalar or collection that may be a key is remembered, and the
tokens that make it one are put in before it. Such a key has to stand on one line
and within 1024 characters.
-/
namespace QueryLint
namespace Data
namespace Yaml

inductive Token where
  | version (major minor : List Char)
  | documentStart
  | documentEnd
  | blockSequenceStart
  | blockMappingStart
  | blockEnd
  | flowSequenceStart
  | flowSequenceEnd
  | flowMappingStart
  | flowMappingEnd
  | blockEntry
  | flowEntry
  | key
  | value
  | alias (name : List Char)
  | anchor (name : List Char)
  | scalar (plain : Bool) (text : List Char)
  deriving DecidableEq, Repr

/-- The start of something that a colon would turn into a key. -/
structure Candidate where
  /-- Whether nothing but a key can stand there. -/
  required : Bool
  /-- How many tokens come before it. -/
  place : Nat
  mark : Mark

/-- What has been read of a text, and what is left. -/
structure Scanner where
  rest : List Char
  mark : Mark := {}
  tokens : List Token := []
  /-- How many flow collections are open. -/
  flow : Nat := 0
  /-- The column of the innermost block collection. -/
  indent : Int := -1
  /-- The columns of the block collections around it. -/
  indents : List Int := []
  /-- Whether a key may start here. -/
  keyAllowed : Bool := true
  /-- The candidate of each open flow collection, the innermost first. -/
  candidates : List (Option Candidate) := [none]

namespace Scanner

variable (s : Scanner)

def moveTo (rest : List Char) : Scanner :=
  { s with
    rest
    mark := s.mark.advance (s.rest.take (s.rest.length - rest.length)) }

def skip (n : Nat) : Scanner := s.moveTo (s.rest.drop n)

def emit (t : Token) : Scanner := { s with tokens := s.tokens ++ [t] }

def column : Int := s.mark.column

/-- Close block collections that are indented further than a column. -/
def unrollFrom (column : Int) : List Int → Scanner → Scanner
  | [], s => s
  | outer :: indents, s =>
    if column < s.indent then
      unrollFrom column indents { s.emit .blockEnd with indent := outer, indents }
    else s

def unroll (column : Int) : Scanner :=
  if s.flow = 0 then unrollFrom column s.indents s else s

/-- Open a block collection at a column, its token put in at a place. -/
def roll (column : Int) (place : Nat) (t : Token) : Scanner :=
  if s.flow = 0 ∧ s.indent < column then
    { s with
      indent := column
      indents := s.indent :: s.indents
      tokens := s.tokens.take place ++ t :: s.tokens.drop place }
  else s

/-- Forget candidates that are too far away. A required one must not be lost. -/
def dropStale : Option Scanner := do
  let candidates ← s.candidates.mapM fun candidate =>
    match candidate with
    | none => some none
    | some c =>
      if c.mark.line < s.mark.line ∨ c.mark.index + 1024 < s.mark.index then
        if c.required then none else some none
      else some (some c)
  return { s with candidates }

/-- Forget the innermost candidate. A required one must not be lost. -/
def dropCandidate : Option Scanner :=
  match s.candidates with
  | some c :: outer => if c.required then none else some { s with candidates := none :: outer }
  | _ => some s

def saveCandidate : Option Scanner :=
  if s.keyAllowed then do
    let s ← s.dropCandidate
    let candidate : Candidate :=
      ⟨s.flow = 0 ∧ s.indent = s.column, s.tokens.length, s.mark⟩
    return { s with candidates := some candidate :: s.candidates.drop 1 }
  else some s

def allowKey (b : Bool) : Scanner := { s with keyAllowed := b }

/-- Step over blanks, comments and line breaks. A tab counts as a blank only where
no key can start. -/
def skipGaps : Nat → Scanner → Scanner
  | 0, s => s
  | fuel + 1, s =>
    let tabs := 0 < s.flow ∨ !s.keyAllowed
    let rest := s.rest.dropWhile fun c => c == ' ' || (tabs && c == '\t')
    let rest := if rest.head? = some '#' then rest.dropWhile fun c => !isBreak c else rest
    let s := s.moveTo rest
    if rest.head?.any isBreak then
      let s := s.moveTo (readBreak rest).2
      skipGaps fuel (if s.flow = 0 then s.allowKey true else s)
    else s

def startFlow (t : Token) : Option Scanner := do
  let s ← s.saveCandidate
  let s := { s with flow := s.flow + 1, candidates := none :: s.candidates }
  return ((s.allowKey true).skip 1).emit t

def endFlow (t : Token) : Option Scanner := do
  let s ← s.dropCandidate
  let s :=
    if s.flow = 0 then s else { s with flow := s.flow - 1, candidates := s.candidates.drop 1 }
  return ((s.allowKey false).skip 1).emit t

def flowEntry : Option Scanner := do
  let s ← s.dropCandidate
  return ((s.allowKey true).skip 1).emit .flowEntry

def blockEntry : Option Scanner := do
  if s.flow = 0 ∧ !s.keyAllowed then none
  let s := s.roll s.column s.tokens.length .blockSequenceStart
  let s ← s.dropCandidate
  return ((s.allowKey true).skip 1).emit .blockEntry

def key : Option Scanner := do
  if s.flow = 0 ∧ !s.keyAllowed then none
  let s := s.roll s.column s.tokens.length .blockMappingStart
  let s ← s.dropCandidate
  return ((s.allowKey (s.flow = 0)).skip 1).emit .key

def value : Option Scanner :=
  match s.candidates with
  | some c :: outer =>
    let s := { s with tokens := s.tokens.take c.place ++ Token.key :: s.tokens.drop c.place }
    let s := s.roll c.mark.column c.place .blockMappingStart
    let s := { s with candidates := none :: outer }
    some (((s.allowKey false).skip 1).emit .value)
  | _ =>
    if s.flow = 0 ∧ !s.keyAllowed then none
    else
      let s := s.roll s.column s.tokens.length .blockMappingStart
      some (((s.allowKey (s.flow = 0)).skip 1).emit .value)

def isNameChar (c : Char) : Bool := c.isAlphanum || c == '_' || c == '-'

def name (t : List Char → Token) : Option Scanner := do
  let s ← s.saveCandidate
  let (name, rest) := (s.rest.drop 1).span isNameChar
  if name.isEmpty then none
  unless atGap rest || rest.head?.any ("?:,]\x7d%@\x60".toList.contains ·) do none
  return ((s.allowKey false).moveTo rest).emit (t name)

def blockScalar (folded : Bool) : Option Scanner := do
  let s ← s.dropCandidate
  let (text, rest) ← readBlock folded s.indent (s.rest.drop 1)
  return ((s.allowKey true).moveTo rest).emit (.scalar false text)

def quotedScalar (quote : Char) : Option Scanner := do
  let s ← s.saveCandidate
  let (text, rest) ← quotedWords quote (s.rest.length + 1) (s.mark.column + 1) (s.rest.drop 1)
  return ((s.allowKey false).moveTo rest).emit (.scalar false text)

def plainScalar : Option Scanner := do
  let s ← s.saveCandidate
  let (text, broken, rest) ←
    plainWords (0 < s.flow) (s.indent + 1) (s.rest.length + 1) {} s.mark.column s.rest
  return ((s.allowKey broken).moveTo rest).emit (.scalar true text)

def marker (t : Token) : Option Scanner := do
  let s ← (s.unroll (-1)).dropCandidate
  return ((s.allowKey false).skip 3).emit t

/-- The line that tells the version of YAML. -/
def directive : Option Scanner := do
  let s ← (s.unroll (-1)).dropCandidate
  if !"%YAML ".toList.isPrefixOf s.rest then none
  let (major, rest) := ((s.rest.drop 5).dropWhile isBlank).span Char.isDigit
  if rest.head? ≠ some '.' ∨ major.isEmpty then none
  let (minor, rest) := (rest.drop 1).span Char.isDigit
  if minor.isEmpty then none
  let rest := rest.dropWhile isBlank
  let rest := if rest.head? = some '#' then rest.dropWhile fun c => !isBreak c else rest
  if !atLineEnd rest then none
  return ((s.allowKey false).moveTo rest).emit (.version major minor)

def indicators : List Char := "-?:,[]\x7b\x7d#&*!|>'\"%@\x60".toList

def startsPlain (flow : Bool) : List Char → Bool
  | [] => false
  | c :: cs =>
    !(isBlank c || isBreak c || indicators.contains c)
      || (c == '-' && !cs.head?.any isBlank)
      || (!flow && (c == '?' || c == ':') && !atGap cs)

def token (c : Char) : Option Scanner :=
  let flow := decide (0 < s.flow)
  let alone := atGap (s.rest.drop 1)
  if s.mark.column = 0 ∧ c = '%' then s.directive
  else if isMarker ['-', '-', '-'] s.mark.column s.rest then s.marker .documentStart
  else if isMarker ['.', '.', '.'] s.mark.column s.rest then s.marker .documentEnd
  else if c = '[' then s.startFlow .flowSequenceStart
  else if c = '\x7b' then s.startFlow .flowMappingStart
  else if c = ']' then s.endFlow .flowSequenceEnd
  else if c = '\x7d' then s.endFlow .flowMappingEnd
  else if c = ',' then s.flowEntry
  else if c = '-' ∧ alone then s.blockEntry
  else if c = '?' ∧ (flow ∨ alone) then s.key
  else if c = ':' ∧ (flow ∨ alone) then s.value
  else if c = '*' then s.name .alias
  else if c = '&' then s.name .anchor
  else if c = '|' ∧ !flow then s.blockScalar false
  else if c = '>' ∧ !flow then s.blockScalar true
  else if c = '\'' ∨ c = '"' then s.quotedScalar c
  else if startsPlain flow s.rest then s.plainScalar
  else none

/-- Read tokens up to the end. -/
def run : Nat → Scanner → Option (List Token)
  | 0, _ => none
  | fuel + 1, s => do
    let s ← (s.skipGaps (s.rest.length + 1)).dropStale
    let s := s.unroll s.column
    match s.rest with
    | [] => return (← (s.unroll (-1)).dropCandidate).tokens
    | c :: _ => run fuel (← s.token c)

/-- At the start of a text. A byte order mark is stepped over, but takes up a
column. -/
def start (text : List Char) : Scanner :=
  let s : Scanner := { rest := text }
  if text.head?.any isByteOrderMark then s.skip 1 else s

end Scanner

def tokens? (text : List Char) : Option (List Token) :=
  if text.all isAllowed then Scanner.run (text.length + 1) (Scanner.start text) else none

end Yaml
end Data
end QueryLint
