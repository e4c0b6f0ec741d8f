import QueryLint.Token.Basic

/-!
# Statements

A document is cut at its separators: the semicolons outside any pair of
brackets. Closing brackets without a partner are tolerated, so the depth of
nesting never falls below zero. A piece without anything but trivia is no
statement; the others are, in order, and are numbered from zero.
-/
namespace QueryLint

/-- The nesting depth behind a lexeme that stands at a given depth. -/
def Lexeme.depthAfter (l : Lexeme) (depth : Nat) : Nat :=
  if l.kind = .punctuation then
    if l.chars = ['('] ∨ l.chars = ['['] ∨ l.chars = ['\x7b'] then depth + 1
    else if l.chars = [')'] ∨ l.chars = [']'] ∨ l.chars = ['\x7d'] then depth - 1
    else depth
  else depth

/-- Whether a lexeme at a given depth ends a statement. -/
def Lexeme.separates (l : Lexeme) (depth : Nat) : Bool :=
  l.isPunctuation ";" && depth == 0

/-- The pieces between separators, the one behind the last separator included. -/
def pieces (depth : Nat) : List Token → List (List Token)
  | [] => [[]]
  | t :: ts =>
    if t.separates depth then [] :: pieces depth ts
    else
      match pieces (t.depthAfter depth) ts with
      | [] => [[t]]
      | piece :: rest => (t :: piece) :: rest

theorem pieces_ne_nil (depth : Nat) (ts : List Token) : pieces depth ts ≠ [] := by
  cases ts with
  | nil => simp [pieces]
  | cons t ts =>
    simp only [pieces]
    split
    · simp
    · split <;> simp

structure Statement where
  /-- Its number among the statements of the document. -/
  id : Nat
  /-- The place of its first token among the tokens of the document. -/
  first : Nat
  tokens : List Token
  /-- Whether a separator closes it. -/
  terminated : Bool
  deriving Repr

namespace Statement

/-- The statements among consecutive pieces, of which the first starts at token
`first` and would get the number `id`. -/
def ofPieces (id first : Nat) : List (List Token) → List Statement
  | [] => []
  | piece :: rest =>
    let next := first + piece.length + 1
    if piece.all (·.isTrivia) then ofPieces id next rest
    else ⟨id, first, piece, !rest.isEmpty⟩ :: ofPieces (id + 1) next rest

variable (s : Statement)

/-- The places of its tokens among those of the document. -/
def tokenSpan : Span := ⟨s.first, s.first + s.tokens.length⟩

def range : Range :=
  Range.between (s.tokens.head?.elim {} (·.range.start)) (s.tokens.getLast?.elim {} (·.range.stop))

def span : Span :=
  ⟨s.tokens.head?.elim 0 (·.span.start), s.tokens.getLast?.elim 0 (·.span.stop)⟩

def raw : List Char := Token.join s.tokens

/-- The keyword that it starts with, in upper case. -/
def kind : Option (List Char) :=
  match Token.firstSignificant? s.tokens with
  | some t => if t.kind = .keyword then some (Keyword.upper t.chars) else none
  | none => none

/-- Its significant tokens with their places in the document. -/
def significant : List (Nat × Token) :=
  (s.tokens.zipIdx s.first).filterMap fun (t, i) => if t.isSignificant then some (i, t) else none

/-- The line of its first significant token, or of its first token if it holds
comments only. -/
def startLine : Nat :=
  match Token.firstSignificant? s.tokens with
  | some t => t.range.start.line
  | none => s.range.start.line

def displayId : String := "#" ++ toString s.id

end Statement
end QueryLint
