import QueryLint.Config.Lint

/-!
# Settings

A lint configuration and the largest number of diagnostics to report. Settings
that come from a file have to allow at least one diagnostic and name known
presets and rules only.
-/
namespace QueryLint

structure Settings where
  /-- Diagnostics beyond this number are dropped. -/
  maxProblems : Nat := 1000
  lint : LintConfig := LintConfig.recommended

inductive SettingsFault where
  | noProblems
  | config (fault : ConfigFault)
  deriving DecidableEq, Repr

namespace SettingsFault

def message : SettingsFault → String
  | noProblems => "maxNumberOfProblems must be greater than 0"
  | config fault => fault.message

end SettingsFault

namespace Settings

/-- Refuse a limit of zero, then what the configuration refuses. -/
def validate (s : Settings) : Except SettingsFault Unit :=
  if s.maxProblems = 0 then .error .noProblems
  else
    match s.lint.validate with
    | .ok () => .ok ()
    | .error fault => .error (.config fault)

end Settings
end QueryLint
