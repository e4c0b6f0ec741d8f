import QueryLint.Edit
import QueryLint.Severity

/-!
# Diagnostics

A diagnostic is a finding at a place in a document. A report lists diagnostics
one a line, numbered from 1.
-/
namespace QueryLint

structure Diagnostic where
  message : String
  severity : Severity
  range : Range
  /-- The name of the rule that reports it. -/
  source : String
  /-- The short code of that rule. -/
  code : String
  fix : Option Fix
  deriving DecidableEq, Repr

namespace Diagnostic

/-- Whether `a` may stand before `b`: by start position, then by the rule's name. -/
def ordered (a b : Diagnostic) : Bool :=
  a.range.start < b.range.start || (a.range.start == b.range.start && a.source ≤ b.source)

def numbered (lines : List String) : String :=
  if lines.isEmpty then "(no diagnostics)"
  else "\n".intercalate ((lines.zipIdx 1).map fun (line, i) => "[" ++ toString i ++ "] " ++ line)

def line (d : Diagnostic) : String :=
  d.range.display ++ " " ++ d.severity.display ++ " " ++ d.source ++ ": " ++ d.message ++
    match d.fix with
    | some fix => " (fix: " ++ fix.label ++ ")"
    | none => ""

def report (diagnostics : List Diagnostic) : String :=
  numbered (diagnostics.map line)

def reportMessages (messages : List String) : String :=
  numbered messages

end Diagnostic
end QueryLint
