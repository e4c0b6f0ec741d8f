import QueryLint.Path
import QueryLint.Settings.Basic
import QueryLint.Text.Blank

/-!
# Loading settings

A settings file is recognised by its name, read in the format that the name
stands for, and checked. A blank file stands for the default settings. A file
without an extension is tried in both formats; only what cannot be read in the
first one is tried in the second.
-/
namespace QueryLint
namespace Settings

/-- The name of a settings file without an extension. -/
def bareFile : String := ".sqlintrc"

/-- The names that settings files have, the preferred ones first. -/
def fileNames : List String :=
  [".sqlintrc.yaml", ".sqlintrc.yml", ".sqlintrc.json", ".sqlintrc", "sqlint.config.yaml",
   "sqlint.config.json"]

inductive Format where
  | yaml
  | json
  /-- YAML, and JSON if that cannot be read. -/
  | either
  deriving DecidableEq, Repr

def Format.ofPath? (path : List Char) : Option Format :=
  let extension := (Path.extension? path).getD []
  if extension = "yml".toList ∨ extension = "yaml".toList then some .yaml
  else if extension = "json".toList then some .json
  else if Path.fileName? path = some bareFile.toList then some .either
  else none

inductive LoadFault where
  /-- There is no text to read. -/
  | noText
  | unsupported
  | noYaml
  | noJson
  | invalid (fault : SettingsFault)
  deriving DecidableEq, Repr

namespace LoadFault

/-- The text of a fault of the file at a path. -/
def message (path : String) : LoadFault → String
  | noText => "Failed to read config file: " ++ path
  | unsupported => "Unsupported config format: " ++ path
  | noYaml => "Invalid config in " ++ path ++ ": YAML parse error"
  | noJson => "Invalid config in " ++ path ++ ": JSON parse error"
  | invalid fault => "Invalid config in " ++ path ++ ": " ++ fault.message

end LoadFault

structure Readers where
  yaml? : List Char → Option Settings
  json? : List Char → Option Settings

namespace Readers

variable (readers : Readers)

def read (contents : List Char) : Format → Except LoadFault Settings
  | .yaml =>
    match readers.yaml? contents with
    | some s => .ok s
    | none => .error .noYaml
  | .json =>
    match readers.json? contents with
    | some s => .ok s
    | none => .error .noJson
  | .either =>
    match readers.yaml? contents with
    | some s => .ok s
    | none =>
      match readers.json? contents with
      | some s => .ok s
      | none => .error .noJson

/-- The settings of a file with the given contents. -/
def load (contents path : List Char) : Except LoadFault Settings :=
  match Format.ofPath? path with
  | none => .error .unsupported
  | some format =>
    if (Text.trimBlank contents).isEmpty then .ok {}
    else
      match readers.read contents format with
      | .error fault => .error fault
      | .ok s =>
        match s.validate with
        | .ok () => .ok s
        | .error fault => .error (.invalid fault)

end Readers

/-- The first settings file in a directory, then in the directories above it. -/
def find? (isFile : List Char → Bool) (directory : List Char) : Option (List Char) :=
  let candidates := fileNames.map fun name => Path.join directory name.toList
  match candidates.find? isFile with
  | some path => some path
  | none =>
    match _h : Path.parent? directory with
    | none => none
    | some up => find? isFile up
termination_by directory.length
decreasing_by exact Path.length_parent?_lt (by assumption)

end Settings
end QueryLint
