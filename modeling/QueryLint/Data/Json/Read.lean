import QueryLint.Data.Json.Number
import QueryLint.Data.Node

/-!
# Reading JSON

Strict JSON: no comments, no trailing commas, no byte order mark, and nothing
but blanks around the one value. A string with half of a surrogate pair and a
number that is too large are well formed without having a value.
-/
namespace QueryLint
namespace Data
namespace Json

def isSpace (c : Char) : Bool :=
  c == ' ' || c == '\t' || c == '\n' || c == '\r'

def skipSpace (cs : List Char) : List Char := cs.dropWhile isSpace

def hexValue? (c : Char) : Option Nat :=
  if c.isDigit then some (c.toNat - 48)
  else if 'a' ≤ c ∧ c ≤ 'f' then some (c.toNat - 87)
  else if 'A' ≤ c ∧ c ≤ 'F' then some (c.toNat - 55)
  else none

def hexNumber? (cs : List Char) : Option Nat :=
  cs.foldlM (fun n c => (hexValue? c).map (n * 16 + ·)) 0

/-- A part of a string: a character, or a UTF-16 code unit given by its number. -/
inductive StringPart where
  | char (c : Char)
  | unit (n : Nat)

/-- The characters that may follow a backslash, and what they stand for. -/
def escapes : List (Char × Char) :=
  [('"', '"'), ('\\', '\\'), ('/', '/'), ('b', '\x08'), ('f', '\x0c'), ('n', '\n'), ('r', '\r'),
   ('t', '\t')]

/-- The parts of a string up to its closing quote, and what follows. -/
def stringParts : List Char → Option (List StringPart × List Char)
  | [] => none
  | '"' :: cs => some ([], cs)
  | '\\' :: 'u' :: a :: b :: c :: d :: cs => do
    let n ← hexNumber? [a, b, c, d]
    let (parts, rest) ← stringParts cs
    return (.unit n :: parts, rest)
  | '\\' :: e :: cs => do
    let c ← escapes.lookup e
    let (parts, rest) ← stringParts cs
    return (.char c :: parts, rest)
  | c :: cs => do
    if c.toNat < 0x20 ∨ c = '\\' then none
    let (parts, rest) ← stringParts cs
    return (.char c :: parts, rest)

def isHighSurrogate (n : Nat) : Bool := 0xD800 ≤ n && n ≤ 0xDBFF

def isLowSurrogate (n : Nat) : Bool := 0xDC00 ≤ n && n ≤ 0xDFFF

/-- The characters of a string's parts, with surrogates paired up. -/
def joinParts : List StringPart → Option (List Char)
  | [] => some []
  | .char c :: parts => (joinParts parts).map (c :: ·)
  | .unit n :: parts =>
    if isLowSurrogate n then none
    else if isHighSurrogate n then
      match parts with
      | .unit m :: parts =>
        if isLowSurrogate m then
          (joinParts parts).map (Char.ofNat (0x10000 + (n - 0xD800) * 0x400 + (m - 0xDC00)) :: ·)
        else none
      | _ => none
    else (joinParts parts).map (Char.ofNat n :: ·)

def readString (cs : List Char) : Option (Node × List Char) := do
  let (parts, rest) ← stringParts cs
  match joinParts parts with
  | some chars => return (.scalar (String.ofList chars) .string, rest)
  | none => return (.scalar "" .unreadable, rest)

def readDigits (cs : List Char) : Option (List Char × List Char) :=
  let (digits, rest) := cs.span Char.isDigit
  if digits.isEmpty then none else some (digits, rest)

def readWhole (cs : List Char) : Option (List Char × List Char) := do
  let (digits, rest) ← readDigits cs
  if digits.head? = some '0' ∧ 1 < digits.length then none
  return (digits, rest)

def readFraction : List Char → Option (Option (List Char) × List Char)
  | '.' :: cs => do
    let (digits, rest) ← readDigits cs
    return (some digits, rest)
  | cs => some (none, cs)

def readExponent : List Char → Option (Option (Bool × List Char) × List Char)
  | [] => some (none, [])
  | e :: cs =>
    if e = 'e' ∨ e = 'E' then do
      let (negative, cs) :=
        match cs with
        | '+' :: cs => (false, cs)
        | '-' :: cs => (true, cs)
        | cs => (false, cs)
      let (digits, rest) ← readDigits cs
      return (some (negative, digits), rest)
    else some (none, e :: cs)

def readNumber (cs : List Char) : Option (Node × List Char) := do
  let (negative, cs) :=
    match cs with
    | '-' :: cs => (true, cs)
    | cs => (false, cs)
  let (whole, cs) ← readWhole cs
  let (fraction, cs) ← readFraction cs
  let (exponent, cs) ← readExponent cs
  match Decimal.number? ⟨negative, whole, fraction, exponent⟩ with
  | some n => return (.scalar "" (.number n), cs)
  | none => return (.scalar "" .unreadable, cs)

def readWord (cs : List Char) : Option (Node × List Char) :=
  [("null", Scalar.null), ("true", Scalar.bool true), ("false", Scalar.bool false)].findSome?
    fun (word, meaning) =>
      if word.toList.isPrefixOf cs then some (.scalar word meaning, cs.drop word.length) else none

mutual

/-- A value and what follows it. `fuel` bounds the nesting and the items. -/
def readValue : Nat → List Char → Option (Node × List Char)
  | 0, _ => none
  | fuel + 1, cs =>
    match skipSpace cs with
    | '\x7b' :: cs =>
      match skipSpace cs with
      | '\x7d' :: cs => some (.mapping [], cs)
      | cs => do
        let (entries, cs) ← readEntries fuel cs
        return (.mapping entries, cs)
    | '[' :: cs =>
      match skipSpace cs with
      | ']' :: cs => some (.sequence [], cs)
      | cs => do
        let (items, cs) ← readItems fuel cs
        return (.sequence items, cs)
    | '"' :: cs => readString cs
    | cs => (readWord cs).or (readNumber cs)

/-- The items of an array up to its closing bracket. -/
def readItems : Nat → List Char → Option (List Node × List Char)
  | 0, _ => none
  | fuel + 1, cs => do
    let (item, cs) ← readValue fuel cs
    match skipSpace cs with
    | ',' :: cs =>
      let (items, cs) ← readItems fuel cs
      return (item :: items, cs)
    | ']' :: cs => return ([item], cs)
    | _ => none

/-- The entries of an object up to its closing brace. -/
def readEntries : Nat → List Char → Option (List (Node × Node) × List Char)
  | 0, _ => none
  | fuel + 1, cs => do
    let '"' :: cs := skipSpace cs | none
    let (key, cs) ← readString cs
    let ':' :: cs := skipSpace cs | none
    let (value, cs) ← readValue fuel cs
    match skipSpace cs with
    | ',' :: cs =>
      let (entries, cs) ← readEntries fuel cs
      return ((key, value) :: entries, cs)
    | '\x7d' :: cs => return ([(key, value)], cs)
    | _ => none

end

def read (text : List Char) : Option Node := do
  let (node, rest) ← readValue (text.length + 1) text
  if (skipSpace rest).isEmpty then return node else none

end Json
end Data
end QueryLint
