import QueryLint.Statement
import QueryLint.Text.LineIndex
import QueryLint.Token.Lexer

/-!
# Documents

A document is a text with its tokens, its statements and the position of its
end. Parsing never fails.
-/
namespace QueryLint

structure Document where
  text : List Char
  tokens : List Token
  statements : List Statement
  /-- The position behind the last character. -/
  stop : Position

namespace Document

def parse (text : List Char) : Document :=
  let tokens := tokenize text
  { text
    tokens
    statements := Statement.ofPieces 0 0 (pieces 0 tokens)
    stop := (Text.LineIndex.ofText text).position (Text.byteLength text) }

variable (d : Document)

/-- A document of separators and trivia only holds no statement. -/
def isBlank : Bool := d.statements.isEmpty

def statement? (id : Nat) : Option Statement :=
  d.statements.find? (·.id == id)

/-- The place of the first significant token behind place `i`. -/
def nextSignificant? (i : Nat) : Option Nat :=
  ((d.tokens.drop (i + 1)).findIdx? (·.isSignificant)).map (· + (i + 1))

end Document
end QueryLint
