import QueryLint.Severity

/-!
# Kinds of rules

The rules that there are, with their names, codes and texts. The order of `all`
is the order in which rules are built and listed.
-/
namespace QueryLint

inductive RuleKind where
  | leadingWhitespace
  | trailingWhitespace
  | finalNewline
  | leadingComma
  | selectTrailingComma
  | isNull
  | selectModifiers
  | distinctParentheses
  deriving DecidableEq, Repr, Inhabited

namespace RuleKind

def all : List RuleKind :=
  [.leadingWhitespace, .trailingWhitespace, .finalNewline, .leadingComma, .selectTrailingComma,
   .isNull, .selectModifiers, .distinctParentheses]

def name : RuleKind → String
  | leadingWhitespace => "leading-whitespace"
  | trailingWhitespace => "trailing-whitespace"
  | finalNewline => "final-newline"
  | leadingComma => "leading-comma"
  | selectTrailingComma => "select-trailing-comma"
  | isNull => "is-null"
  | selectModifiers => "select-modifiers"
  | distinctParentheses => "distinct-parentheses"

def code : RuleKind → String
  | leadingWhitespace => "LT13"
  | trailingWhitespace => "LT01"
  | finalNewline => "LT12"
  | leadingComma => "LT04"
  | selectTrailingComma => "CV03"
  | isNull => "CV05"
  | selectModifiers => "LT10"
  | distinctParentheses => "ST08"

def description : RuleKind → String
  | leadingWhitespace => "Disallows blank lines or whitespace before the first token of a file"
  | trailingWhitespace => "Disallows whitespace at the end of a line"
  | finalNewline => "Requires exactly one line break at the end of a file"
  | leadingComma => "Enforces a consistent position for commas in multi-line lists"
  | selectTrailingComma => "Disallows a comma after the last item of a select list"
  | isNull => "Requires IS / IS NOT for comparisons with NULL"
  | selectModifiers => "Requires SELECT modifiers to share a line with SELECT"
  | distinctParentheses => "Disallows parentheses around a single DISTINCT column"

/-- The severity of a rule that is just on. -/
def severity : RuleKind → Severity
  | leadingWhitespace => .error
  | trailingWhitespace => .warning
  | finalNewline => .error
  | leadingComma => .warning
  | selectTrailingComma => .warning
  | isNull => .warning
  | selectModifiers => .error
  | distinctParentheses => .error

def message : RuleKind → String
  | leadingWhitespace => "Files must not begin with newlines or whitespace."
  | trailingWhitespace => "Trailing whitespace."
  | finalNewline => "Files must end with a single trailing newline."
  | leadingComma => "Commas should not appear at the start of a line."
  | selectTrailingComma => "Trailing comma within select clause."
  | isNull => "Comparisons with NULL should use “IS” or “IS NOT”."
  | selectModifiers => "SELECT modifiers (e.g. DISTINCT) must be on the same line as SELECT"
  | distinctParentheses => "DISTINCT used with parentheses."

def ofName? (name : String) : Option RuleKind :=
  all.find? (·.name == name)

theorem mem_all (k : RuleKind) : k ∈ all := by
  cases k <;> decide

theorem ofName?_name (k : RuleKind) : ofName? k.name = some k := by
  cases k <;> decide

def sortedNames : List String :=
  (all.map name).mergeSort fun a b => decide (a ≤ b)

end RuleKind
end QueryLint
