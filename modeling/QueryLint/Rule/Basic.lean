import QueryLint.Codec.Record
import QueryLint.Diagnostic
import QueryLint.Rule.Kind
import QueryLint.Rule.Layout
import QueryLint.Rule.Null
import QueryLint.Rule.Select

/-!
# Rules

A `Check` is what a rule looks for, its options included. A `Rule` is a check at
a severity, or off, together with its place among the rules of the same kind.
A rule that is off and a document without statements give no diagnostics.
-/
namespace QueryLint

open Data (Value)

inductive Check where
  | leadingWhitespace
  | trailingWhitespace
  | finalNewline
  | leadingComma (position : CommaPosition)
  | selectTrailingComma
  | isNull
  | selectModifiers
  | distinctParentheses
  deriving DecidableEq, Repr

namespace CommaPosition

def ofValue? (v : Value) : Option CommaPosition := do ofName? (← Codec.tag? v)

/-- The position that options ask for: the field `position` of an object, or the
only item of an array. -/
def ofOptions? : Value → Option CommaPosition
  | .object fields =>
    match fields.lookup "position" with
    | some v => ofValue? v
    | none => some .trailing
  | .array [] => some .trailing
  | .array [v] => ofValue? v
  | _ => none

end CommaPosition

namespace Check

/-- The check of a kind of rule under options. Options that are not understood
count as none. -/
def ofOptions (options : Option Value) : RuleKind → Check
  | .leadingWhitespace => .leadingWhitespace
  | .trailingWhitespace => .trailingWhitespace
  | .finalNewline => .finalNewline
  | .leadingComma => .leadingComma ((options.bind CommaPosition.ofOptions?).getD .trailing)
  | .selectTrailingComma => .selectTrailingComma
  | .isNull => .isNull
  | .selectModifiers => .selectModifiers
  | .distinctParentheses => .distinctParentheses

def kind : Check → RuleKind
  | leadingWhitespace => .leadingWhitespace
  | trailingWhitespace => .trailingWhitespace
  | finalNewline => .finalNewline
  | leadingComma _ => .leadingComma
  | selectTrailingComma => .selectTrailingComma
  | isNull => .isNull
  | selectModifiers => .selectModifiers
  | distinctParentheses => .distinctParentheses

@[simp]
theorem kind_ofOptions (options : Option Value) (k : RuleKind) :
    (ofOptions options k).kind = k := by
  cases k <;> rfl

def message : Check → String
  | leadingComma .leading => "Commas should not appear at the end of a line."
  | check => check.kind.message

/-- The position of commas, of the check that has one. -/
def commaPosition? : Check → Option CommaPosition
  | leadingComma position => some position
  | _ => none

def findings (d : Document) : Check → List Finding
  | leadingWhitespace => Layout.leadingWhitespace d
  | trailingWhitespace => Layout.trailingWhitespace d
  | finalNewline => Layout.finalNewline d
  | leadingComma position => Layout.commas position d
  | selectTrailingComma => Select.trailingComma d
  | isNull => Null.comparisons d
  | selectModifiers => Select.modifiers d
  | distinctParentheses => Select.distinctParentheses d

end Check

/-- The settings of one rule: its level and its options. -/
structure RuleSetting where
  level : Level
  options : Option Value

namespace RuleSetting

/-- The setting of a rule that nobody asked for. -/
def off : RuleSetting := ⟨.off, none⟩

end RuleSetting

structure Rule where
  check : Check
  /-- None when the rule is off. -/
  active : Option Severity
  /-- Its place among the rules of the same kind. -/
  index : Nat
  deriving DecidableEq, Repr

namespace Rule

def ofSetting (kind : RuleKind) (setting : RuleSetting) (index : Nat) : Rule :=
  ⟨Check.ofOptions setting.options kind, setting.level.resolve kind.severity, index⟩

variable (r : Rule)

def kind : RuleKind := r.check.kind

def isEnabled : Bool := r.active.isSome

/-- The severity that the rule reports at, or would if it were on. -/
def severity : Severity := r.active.getD r.kind.severity

def message : String := r.check.message

def diagnose (f : Finding) : Diagnostic :=
  { message := r.message
    severity := r.severity
    range := f.range
    source := r.kind.name
    code := r.kind.code
    fix := f.fix }

def diagnostics (d : Document) : List Diagnostic :=
  if r.isEnabled ∧ ¬ d.isBlank then (r.check.findings d).map r.diagnose else []

/-- The diagnostics of a rule, if there are any. -/
def evaluate (d : Document) : Option (List Diagnostic) :=
  let found := r.diagnostics d
  if found.isEmpty then none else some found

end Rule
end QueryLint
