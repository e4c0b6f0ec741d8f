import QueryLint.Settings.Basic

/-!
# Linting

All rules of a configuration look at a document; what they report is sorted by
place and then by rule, and cut off at a limit.
-/
namespace QueryLint

namespace Linter

/-- Everything that rules report about a document, rule by rule. -/
def collect (rules : List Rule) (d : Document) : List Diagnostic :=
  rules.flatMap (·.diagnostics d)

/-- The first diagnostics in order, up to a limit. -/
def run (rules : List Rule) (limit : Nat) (d : Document) : List Diagnostic :=
  ((collect rules d).mergeSort Diagnostic.ordered).take limit

end Linter

def Settings.lintDocument (s : Settings) (d : Document) : List Diagnostic :=
  Linter.run s.lint.buildRules s.maxProblems d

def lint (s : Settings) (text : List Char) : List Diagnostic :=
  s.lintDocument (Document.parse text)

end QueryLint
