import QueryLint.Range
import QueryLint.Token.Keyword

/-!
# Tokens

A lexeme is a piece of text with its lexical kind; a token is a lexeme placed in
a document. Trivia are blanks and line breaks; a token is significant when it is
neither trivia nor a comment.
-/
namespace QueryLint

inductive TokenKind where
  /-- A run of blanks inside one line. -/
  | whitespace
  /-- A single line break. -/
  | newline
  /-- A bare, backtick-quoted or `@`-marked name. -/
  | identifier
  | keyword
  | punctuation
  /-- A quoted string or bytes literal, with its delimiters. -/
  | stringLiteral
  | numberLiteral
  /-- A line or block comment, with its delimiters. -/
  | comment
  /-- A character of no class, or a literal or block comment left open. -/
  | other
  deriving DecidableEq, Repr, Inhabited

structure Lexeme where
  kind : TokenKind
  chars : List Char
  deriving DecidableEq, Repr, Inhabited

namespace Lexeme

variable (l : Lexeme)

def text : String := String.ofList l.chars

def isTrivia : Bool :=
  l.kind == .whitespace || l.kind == .newline

def isComment : Bool :=
  l.kind == .comment

def isSignificant : Bool :=
  !l.isTrivia && !l.isComment

def isLineComment : Bool :=
  l.isComment && (['-', '-'].isPrefixOf l.chars || ['#'].isPrefixOf l.chars)

/-- Whether the lexeme is the given keyword, in any ASCII case. -/
def isKeyword (word : String) : Bool :=
  l.kind == .keyword && Keyword.lower l.chars == Keyword.lower word.toList

def isPunctuation (mark : String) : Bool :=
  l.kind == .punctuation && l.chars == mark.toList

end Lexeme

structure Token extends Lexeme where
  range : Range
  span : Span
  deriving DecidableEq, Repr, Inhabited

namespace Token

/-- The text that a list of tokens was read from. -/
def join (tokens : List Token) : List Char :=
  tokens.flatMap (·.chars)

def firstSignificant? (tokens : List Token) : Option Token :=
  tokens.find? (·.isSignificant)

end Token
end QueryLint
