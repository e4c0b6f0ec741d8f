import QueryLint.Token.Lexer

/-!
# The lexer by characters

A second account of the lexer. Given the first character of a lexeme and the text
behind it, `scan` says how many more characters belong to the lexeme. Inductions over a
text go by characters, and this account is the one that they need; that it agrees with
the bytes that the lexer counts is shown branch by branch in `Lexer.extent_eq`.
-/
namespace QueryLint

/-- What a lexeme is, and how many characters follow its first one. -/
structure Scan where
  kind : TokenKind
  extra : Nat
  deriving DecidableEq, Repr

namespace Scan

/-- How many characters at the start of a text satisfy `p`. -/
def runLength (p : Char → Bool) (cs : List Char) : Nat :=
  (cs.takeWhile p).length

/-- A comment up to its line's end. Blanks at the end stay outside. -/
def lineComment (cs : List Char) : Scan :=
  ⟨.comment, (Text.trimBlankEnd (cs.takeWhile fun c => !Text.isLineBreak c)).length⟩

/-- How far the end of a block comment is, its two characters included. -/
def blockClose? : List Char → Option Nat
  | [] => none
  | c :: cs =>
    if c = '*' ∧ cs.head? = some '/' then some 2 else (blockClose? cs).map (· + 1)

/-- A block comment whose second character is the first of `cs`. -/
def blockComment (cs : List Char) : Scan :=
  match blockClose? (cs.drop 1) with
  | some n => ⟨.comment, n + 1⟩
  | none => ⟨.other, cs.length⟩

/-- How far a literal delimited by one `quote` reaches, and whether it is closed.
It has to be closed on its own line. A backslash, where it escapes, takes the
next character of the line with it. -/
def single (quote : Char) (escapes : Bool) : List Char → Bool × Nat
  | [] => (false, 0)
  | c :: cs =>
    if Text.isLineBreak c then (false, 0)
    else if c = quote then (true, 1)
    else if escapes && c == '\\' then
      match cs with
      | [] => (false, 1)
      | d :: ds =>
        if Text.isLineBreak d then (false, 1)
        else
          let r := single quote escapes ds
          (r.1, r.2 + 2)
    else
      let r := single quote escapes cs
      (r.1, r.2 + 1)

/-- How far a literal delimited by three quotes reaches, and whether it is
closed. It may run over lines. -/
def triple (quote : Char) (escapes : Bool) : List Char → Bool × Nat
  | [] => (false, 0)
  | c :: cs =>
    if c = quote ∧ [quote, quote].isPrefixOf cs then (true, 3)
    else if escapes && c == '\\' then
      match cs with
      | [] => (false, 1)
      | _ :: ds =>
        let r := triple quote escapes ds
        (r.1, r.2 + 2)
    else
      let r := triple quote escapes cs
      (r.1, r.2 + 1)

/-- A string literal, given the text behind its first quote. -/
def string (quote : Char) (escapes : Bool) (cs : List Char) : Scan :=
  let kind (closed : Bool) : TokenKind := if closed then .stringLiteral else .other
  if [quote, quote].isPrefixOf cs then
    let r := triple quote escapes (cs.drop 2)
    ⟨kind r.1, r.2 + 2⟩
  else
    let r := single quote escapes cs
    ⟨kind r.1, r.2⟩

/-- A name in backticks, given the text behind the first one. -/
def quotedName (cs : List Char) : Scan :=
  let r := single ('\x60') true cs
  ⟨if r.1 then .identifier else .other, r.2⟩

/-- A parameter or system variable, given the text behind its first `@`. -/
def parameter (cs : List Char) : Scan :=
  let sigils := if cs.head? = some '@' then 1 else 0
  let name := cs.drop sigils
  if name.head?.any Text.isNameStart then
    ⟨.identifier, sigils + runLength Text.isNamePart name⟩
  else ⟨.punctuation, 0⟩

/-- The length of the exponent at the start of a text. Without a digit there is
none. -/
def exponentLength : List Char → Nat
  | e :: cs =>
    if e = 'e' ∨ e = 'E' then
      match cs with
      | sign :: ds =>
        if sign = '+' ∨ sign = '-' then
          if ds.head?.any Char.isDigit then 2 + runLength Char.isDigit ds else 0
        else if sign.isDigit then 1 + runLength Char.isDigit cs
        else 0
      | [] => 0
    else 0
  | [] => 0

/-- The length of a point and the digits behind it. -/
def fractionLength : List Char → Nat
  | c :: cs => if c = '.' then 1 + runLength Char.isDigit cs else 0
  | [] => 0

/-- A number that starts with the digit or point `c`. -/
def number (c : Char) (cs : List Char) : Scan :=
  if c = '0' ∧ cs.head?.any (fun x => x == 'x' || x == 'X')
      ∧ (cs.drop 1).head?.any Lexer.isHexDigit then
    ⟨.numberLiteral, 1 + runLength Lexer.isHexDigit (cs.drop 1)⟩
  else
    let digits := runLength Char.isDigit cs
    let mantissa :=
      if c = '.' then digits else digits + fractionLength (cs.drop digits)
    ⟨.numberLiteral, mantissa + exponentLength (cs.drop mantissa)⟩

/-- A name, a keyword or a marked literal, starting with `c`. -/
def word (c : Char) (cs : List Char) : Scan :=
  let extra := runLength Text.isNamePart cs
  let word := c :: cs.take extra
  let plain : Scan := ⟨if Keyword.isKeyword word then .keyword else .identifier, extra⟩
  match cs.drop extra with
  | quote :: rest =>
    if (quote = '\'' ∨ quote = '"') ∧ Lexer.literalMarks.contains (Keyword.lower word) then
      let literal := string quote (!(Keyword.lower word).contains 'r') rest
      ⟨literal.kind, extra + 1 + literal.extra⟩
    else plain
  | [] => plain

def punctuation (c : Char) (cs : List Char) : Scan :=
  if cs.head?.any (fun d => Lexer.operators.contains (c, d)) then ⟨.punctuation, 1⟩
  else if Lexer.marks.contains c then ⟨.punctuation, 0⟩
  else ⟨.other, 0⟩

end Scan

/-- The lexeme that starts with `c` and is followed by `cs`. -/
def scan (c : Char) (cs : List Char) : Scan :=
  if c = '\n' then ⟨.newline, 0⟩
  else if c = '\r' then ⟨.newline, if cs.head? = some '\n' then 1 else 0⟩
  else if Text.isBlank c then ⟨.whitespace, Scan.runLength Text.isInlineBlank cs⟩
  else if c = '-' ∧ cs.head? = some '-' then Scan.lineComment cs
  else if c = '#' then Scan.lineComment cs
  else if c = '/' ∧ cs.head? = some '*' then Scan.blockComment cs
  else if c = '\'' ∨ c = '"' then Scan.string c true cs
  else if c = '\x60' then Scan.quotedName cs
  else if c = '@' then Scan.parameter cs
  else if c.isDigit then Scan.number c cs
  else if c = '.' ∧ cs.head?.any Char.isDigit then Scan.number c cs
  else if Text.isNameStart c then Scan.word c cs
  else Scan.punctuation c cs

end QueryLint
