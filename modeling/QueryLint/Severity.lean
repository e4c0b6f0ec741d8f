/-!
# Severities and levels

A diagnostic has a `Severity`. A rule is set to a `Level`: off, on at the rule's
own severity, or at a severity of its own.
-/
namespace QueryLint

inductive Severity where
  | error
  | warning
  | information
  | hint
  deriving DecidableEq, Repr, Inhabited

namespace Severity

def all : List Severity := [.error, .warning, .information, .hint]

def name : Severity → String
  | error => "error"
  | warning => "warning"
  | information => "information"
  | hint => "hint"

def display : Severity → String
  | error => "error"
  | warning => "warning"
  | information => "info"
  | hint => "hint"

/-- The number that editors use, from 1 for an error to 4 for a hint. -/
def code : Severity → Nat
  | error => 1
  | warning => 2
  | information => 3
  | hint => 4

def isError (s : Severity) : Bool := s == error

def isWarningOrHigher (s : Severity) : Bool := s == error || s == warning

def ofName? (name : String) : Option Severity :=
  all.find? (·.name == name)

end Severity

inductive Level where
  | off
  /-- At the rule's own severity. -/
  | on
  | hint
  | info
  | warn
  | error
  deriving DecidableEq, Repr, Inhabited

namespace Level

def all : List Level := [.off, .on, .hint, .info, .warn, .error]

def name : Level → String
  | off => "off"
  | on => "on"
  | hint => "hint"
  | info => "info"
  | warn => "warn"
  | error => "error"

def aliases : List (String × Level) :=
  [("information", .info), ("warning", .warn)]

def ofName? (name : String) : Option Level :=
  (all.find? (·.name == name)).or (aliases.lookup name)

/-- The level with the given spelling, in any ASCII case. -/
def ofKeyword? (keyword : String) : Option Level :=
  ofName? (String.ofList (keyword.toList.map Char.toLower))

def isEnabled (l : Level) : Bool := l != off

/-- The severity that a rule with the severity `own` reports at; none when the
rule is off. -/
def resolve (own : Severity) : Level → Option Severity
  | off => none
  | on => some own
  | hint => some .hint
  | info => some .information
  | warn => some .warning
  | error => some .error

theorem resolve_isSome (own : Severity) (l : Level) : (l.resolve own).isSome = l.isEnabled := by
  cases l <;> rfl

end Level
end QueryLint
