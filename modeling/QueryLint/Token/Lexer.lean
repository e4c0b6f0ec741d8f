import QueryLint.Text.Letter
import QueryLint.Token.Basic

/-!
# The lexer

`Lexer.extent` decides what stands at the start of a text and how many bytes of the text
that is. The bytes are counted from the start, by a function for each class of lexemes,
and the text is cut behind them. Nothing in the count itself keeps it from being zero,
from ending inside a character or from leading past the text. Each function counts at
least one byte, and so the lexer comes to an end. Nothing is refused: what fits no class
is `other`.
-/
namespace QueryLint

/-- What stands at the start of a text, and how many bytes it has. -/
structure Extent where
  kind : TokenKind
  size : Nat
  deriving DecidableEq, Repr

namespace Lexer

def one (text : List Char) : Nat :=
  Text.byteLength (text.take 1)

/-- The bytes of the characters at the start that satisfy `p`. -/
def run (p : Char → Bool) (text : List Char) : Nat :=
  Text.byteLength (text.takeWhile p)

def isHexDigit (c : Char) : Bool :=
  c.isDigit || ('a' ≤ c && c ≤ 'f') || ('A' ≤ c && c ≤ 'F')

/-- A comment up to its line's end. Blanks at the end stay outside. -/
def lineComment (text : List Char) : Extent :=
  ⟨.comment,
    Text.byteLength (Text.trimBlankEnd (text.takeWhile fun c => !Text.isLineBreak c))⟩

/-- The byte at which a block comment is closed. -/
def blockClose? : List Char → Option Nat
  | [] => none
  | c :: cs =>
    if ['*', '/'].isPrefixOf (c :: cs) then some 0 else (blockClose? cs).map (c.utf8Size + ·)

def blockComment (text : List Char) : Extent :=
  match blockClose? (Text.dropBytes 2 text) with
  | some i => ⟨.comment, 2 + i + 2⟩
  | none => ⟨.other, Text.byteLength text⟩

/-- How far a literal reaches behind its one `quote`, and whether it is closed. It has
to be closed on its own line. A backslash, where it escapes, takes the next character of
the line with it. -/
def single (quote : Char) (escapes : Bool) : List Char → Bool × Nat
  | [] => (false, 0)
  | c :: cs =>
    if Text.isLineBreak c then (false, 0)
    else if escapes && c == '\\' then
      match cs with
      | [] => (false, c.utf8Size)
      | d :: ds =>
        if Text.isLineBreak d then (false, c.utf8Size)
        else
          let r := single quote escapes ds
          (r.1, c.utf8Size + d.utf8Size + r.2)
    else if c = quote then (true, c.utf8Size)
    else
      let r := single quote escapes cs
      (r.1, c.utf8Size + r.2)

/-- How far a literal reaches behind its three quotes, and whether it is closed. It may
run over lines. -/
def triple (quote : Char) (escapes : Bool) : List Char → Bool × Nat
  | [] => (false, 0)
  | c :: cs =>
    if [quote, quote, quote].isPrefixOf (c :: cs) then (true, 3)
    else if escapes && c == '\\' then
      match cs with
      | [] => (false, c.utf8Size)
      | d :: ds =>
        let r := triple quote escapes ds
        (r.1, c.utf8Size + d.utf8Size + r.2)
    else
      let r := triple quote escapes cs
      (r.1, c.utf8Size + r.2)

def string (quote : Char) (escapes : Bool) (text : List Char) : Extent :=
  let kind (closed : Bool) : TokenKind := if closed then .stringLiteral else .other
  if [quote, quote, quote].isPrefixOf text then
    let r := triple quote escapes (Text.dropBytes 3 text)
    ⟨kind r.1, 3 + r.2⟩
  else
    let r := single quote escapes (text.drop 1)
    ⟨kind r.1, one text + r.2⟩

def quotedName (text : List Char) : Extent :=
  let r := single ('\x60') true (text.drop 1)
  ⟨if r.1 then .identifier else .other, one text + r.2⟩

/-- A parameter or system variable; an `@` without a name is punctuation. -/
def parameter (text : List Char) : Extent :=
  let sigils := if ['@', '@'].isPrefixOf text then 2 else 1
  let name := Text.dropBytes sigils text
  if name.head?.any Text.isNameStart then ⟨.identifier, sigils + run Text.isNamePart name⟩
  else ⟨.punctuation, one text⟩

def fraction (text : List Char) : Nat :=
  if text.head? = some '.' then one text + run Char.isDigit (text.drop 1) else 0

/-- An exponent. Without a digit there is none. -/
def exponent (text : List Char) : Nat :=
  let sign := if text[1]?.any fun c => c == '+' || c == '-' then 1 else 0
  if text.head?.any (fun c => c == 'e' || c == 'E') ∧ text[1 + sign]?.any Char.isDigit then
    1 + sign + run Char.isDigit (Text.dropBytes (1 + sign) text)
  else 0

/-- A number that starts with a digit or a point. -/
def number (text : List Char) : Extent :=
  let hex := Text.dropBytes 2 text
  if (['0', 'x'].isPrefixOf text ∨ ['0', 'X'].isPrefixOf text) ∧ hex.head?.any isHexDigit then
    ⟨.numberLiteral, 2 + run isHexDigit hex⟩
  else
    let digits := run Char.isDigit text
    let mantissa := digits + fraction (Text.dropBytes digits text)
    ⟨.numberLiteral, mantissa + exponent (Text.dropBytes mantissa text)⟩

/-- The words that turn a quote right behind them into a literal of their own. -/
def literalMarks : List (List Char) :=
  ["r", "b", "rb", "br"].map String.toList

def word (text : List Char) : Extent :=
  let size := run Text.isNamePart text
  let word := Text.takeBytes size text
  let plain : Extent := ⟨if Keyword.isKeyword word then .keyword else .identifier, size⟩
  match Text.dropBytes size text with
  | quote :: rest =>
    if (quote = '\'' ∨ quote = '"') ∧ literalMarks.contains (Keyword.lower word) then
      let literal := string quote (!(Keyword.lower word).contains 'r') (quote :: rest)
      ⟨literal.kind, size + literal.size⟩
    else plain
  | [] => plain

def operators : List (Char × Char) :=
  [('<', '='), ('>', '='), ('<', '>'), ('!', '='), ('|', '|'), ('<', '<'), ('>', '>'), ('=', '>')]

def marks : List Char :=
  ",;()[]\x7b\x7d.+-*/%=<>!|&^~:?@".toList

def punctuation (c : Char) (text : List Char) : Extent :=
  match operators.find? fun op => [op.1, op.2].isPrefixOf text with
  | some op => ⟨.punctuation, Text.byteLength [op.1, op.2]⟩
  | none => ⟨if marks.contains c then .punctuation else .other, one text⟩

/-- The extent of the lexeme that starts with `c` and is followed by `cs`. -/
def extent (c : Char) (cs : List Char) : Extent :=
  let text := c :: cs
  if c = '\n' then ⟨.newline, one text⟩
  else if c = '\r' then ⟨.newline, one text + if cs.head? = some '\n' then one cs else 0⟩
  else if Text.isBlank c then ⟨.whitespace, run Text.isInlineBlank text⟩
  else if c = '-' ∧ cs.head? = some '-' then lineComment text
  else if c = '#' then lineComment text
  else if c = '/' ∧ cs.head? = some '*' then blockComment text
  else if c = '\'' ∨ c = '"' then string c true text
  else if c = '\x60' then quotedName text
  else if c = '@' then parameter text
  else if c.isDigit then number text
  else if c = '.' ∧ cs.head?.any Char.isDigit then number text
  else if Text.isNameStart c then word text
  else punctuation c text

section Progress

variable {c : Char} {cs : List Char}

theorem one_pos : 0 < one (c :: cs) :=
  Text.byteLength_pos_of_ne_nil (List.cons_ne_nil _ _)

theorem run_pos {p : Char → Bool} (h : p c = true) : 0 < run p (c :: cs) := by
  apply Text.byteLength_pos_of_ne_nil
  rw [List.takeWhile_cons_of_pos h]
  exact List.cons_ne_nil _ _

theorem lineComment_pos (h : Text.isBlank c = false) : 0 < (lineComment (c :: cs)).size := by
  apply Text.byteLength_pos_of_ne_nil
  rw [List.takeWhile_cons, Text.not_isLineBreak_of_not_isBlank h, Bool.not_false, if_pos rfl,
    Text.trimBlankEnd_cons h]
  exact List.cons_ne_nil _ _

theorem blockComment_pos : 0 < (blockComment (c :: cs)).size := by
  unfold blockComment
  split
  · exact Nat.succ_pos _
  · exact Text.byteLength_pos_of_ne_nil (List.cons_ne_nil c cs)

theorem string_pos (quote : Char) (escapes : Bool) :
    0 < (string quote escapes (c :: cs)).size := by
  unfold string
  dsimp only
  split
  · exact Nat.add_pos_left (Nat.succ_pos 2) _
  · exact Nat.add_pos_left one_pos _

theorem quotedName_pos : 0 < (quotedName (c :: cs)).size :=
  Nat.add_pos_left one_pos _

theorem parameter_pos : 0 < (parameter (c :: cs)).size := by
  unfold parameter
  dsimp only
  split
  · split
    · exact Nat.add_pos_left Nat.two_pos _
    · exact one_pos
  · split
    · exact Nat.add_pos_left Nat.one_pos _
    · exact one_pos

/-- Without a digit in front there is a point, and the fraction is not empty. -/
theorem number_pos (h : c.isDigit = true ∨ c = '.') : 0 < (number (c :: cs)).size := by
  unfold number
  dsimp only
  split
  · exact Nat.add_pos_left Nat.two_pos _
  · apply Nat.add_pos_left
    rcases h with h | rfl
    · exact Nat.add_pos_left (run_pos h) _
    · apply Nat.add_pos_right
      exact Nat.add_pos_left one_pos _

theorem word_pos (h : Text.isNameStart c = true) : 0 < (word (c :: cs)).size := by
  have hrun : 0 < run Text.isNamePart (c :: cs) := run_pos (Text.isNamePart_of_isNameStart h)
  unfold word
  dsimp only
  split
  · split
    · exact Nat.add_pos_left hrun _
    · exact hrun
  · exact hrun

theorem punctuation_pos : 0 < (punctuation c (c :: cs)).size := by
  unfold punctuation
  split
  · exact Text.byteLength_pos_of_ne_nil (List.cons_ne_nil _ _)
  · exact one_pos

theorem size_pos_ite {p : Prop} [Decidable p] {a b : Extent} (ha : p → 0 < a.size)
    (hb : ¬p → 0 < b.size) : 0 < (if p then a else b).size := by
  split
  · exact ha ‹p›
  · exact hb ‹¬p›

/-- Whatever a lexeme starts with, it has a byte. -/
theorem extent_pos (c : Char) (cs : List Char) : 0 < (extent c cs).size := by
  refine size_pos_ite (fun _ => one_pos) fun hfeed => ?_
  refine size_pos_ite (fun _ => Nat.add_pos_left one_pos _) fun hreturn => ?_
  refine size_pos_ite (fun hblank => run_pos ?_) fun hblank => ?_
  · simp [Text.isInlineBlank, Text.isLineBreak, hfeed, hreturn, hblank]
  rw [Bool.not_eq_true] at hblank
  refine size_pos_ite (fun _ => lineComment_pos hblank) fun _ => ?_
  refine size_pos_ite (fun _ => lineComment_pos hblank) fun _ => ?_
  refine size_pos_ite (fun _ => blockComment_pos) fun _ => ?_
  refine size_pos_ite (fun _ => string_pos c true) fun _ => ?_
  refine size_pos_ite (fun _ => quotedName_pos) fun _ => ?_
  refine size_pos_ite (fun _ => parameter_pos) fun _ => ?_
  refine size_pos_ite (fun hdigit => number_pos (Or.inl hdigit)) fun _ => ?_
  refine size_pos_ite (fun hpoint => number_pos (Or.inr hpoint.1)) fun _ => ?_
  exact size_pos_ite word_pos fun _ => punctuation_pos

end Progress

theorem length_lt_of_cutAt? {n : Nat} {text chars rest : List Char} (hn : 0 < n)
    (h : Text.cutAt? n text = some (chars, rest)) : rest.length < text.length := by
  obtain ⟨rfl, hsize⟩ := Text.append_eq_of_cutAt? h
  have hne : chars ≠ [] := by
    rintro rfl
    simp [Text.byteLength] at hsize
    omega
  rw [List.length_append]
  exact Nat.lt_add_of_pos_left (List.length_pos_iff.mpr hne)

end Lexer

def lexemes : List Char → List Lexeme
  | [] => []
  | c :: cs =>
    match _h : Text.cutAt? (Lexer.extent c cs).size (c :: cs) with
    | none => []
    | some (chars, rest) => ⟨(Lexer.extent c cs).kind, chars⟩ :: lexemes rest
termination_by text => text.length
decreasing_by exact Lexer.length_lt_of_cutAt? (Lexer.extent_pos c cs) _h

/-- Lexemes placed one behind the other, the first at `p` and at a byte offset. -/
def place (p : Position) (offset : Nat) : List Lexeme → List Token
  | [] => []
  | l :: ls =>
    let stop := p.advance l.chars
    let next := offset + Text.byteLength l.chars
    { l with range := ⟨p, stop⟩, span := ⟨offset, next⟩ } :: place stop next ls

def tokenize (text : List Char) : List Token :=
  place Position.origin 0 (lexemes text)

end QueryLint
