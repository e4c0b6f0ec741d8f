import QueryLint.Codec.Settings
import QueryLint.Data.Json.Read
import QueryLint.Data.Yaml.Read
import QueryLint.Settings.Load

/-!
# Settings in a text

Of what a settings text says, only the fields of settings are read; others belong
to someone else and may hold anything that is well formed. How deep a field may
be nested has a bound.
-/
namespace QueryLint

open Data (Value Node)
open Data.Yaml (Tree Reading)

namespace Settings

/-- How deep a field may be nested in JSON. -/
def jsonDepth : Nat := 126

def jsonField? (node : Node) : Option Value := do
  let v ← node.value? .typed
  if v.depth ≤ jsonDepth then return v else none

/-- The fields of settings among the entries of a JSON object. -/
def jsonFields? : List (Node × Node) → Option (List (String × Value))
  | [] => some []
  | (key, node) :: entries => do
    let name ← key.name? .typed
    let rest ← jsonFields? entries
    if recordNames.contains name then return (name, ← jsonField? node) :: rest else return rest

/-- The value of a JSON text, without the fields that are not used. -/
def jsonValue? : Node → Option Value
  | .mapping entries => .object <$> jsonFields? entries
  | .sequence items => .array <$> items.mapM jsonField?
  | .scalar _ _ => none

def ofJson? (text : List Char) : Option Settings := do
  let v ← jsonValue? (← Data.Json.read text)
  (ofValue v).toOption

/-- How deep a field may be nested in YAML. -/
def yamlDepth : Nat := 127

/-- The value of a rule entry in YAML. Names are taken as they are written, except
inside of options that stand beside the level. -/
def yamlEntry? : Node → Option Value
  | .mapping entries => do
    let fields ← entries.mapM fun (key, node) => do
      let name ← key.name? .written
      let v ← node.value? (if name = "options" then .written else .typed)
      return (name, v)
    return .object fields
  | node => node.value? .written

/-- The natural number of a node in YAML; not even zero has a minus in front. -/
def yamlNat? : Node → Option Nat
  | .scalar written (.number (.int (.ofNat n))) =>
    if written.toList.head? = some '-' then none else some n
  | _ => none

/-- The name of a field of a lint configuration in YAML: a string, or the place of
the field in the record. -/
def yamlLintName? (key : Node) : Option String :=
  match yamlNat? key with
  | some n => LintConfig.recordNames[n]?
  | none => key.name? .typed

/-- The value of a field of settings in YAML. -/
def yamlField? (name : String) (node : Node) : Option Value :=
  match name, node with
  | "maxNumberOfProblems", node => (yamlNat? node).map fun n => .number (.int n)
  | "lint", .mapping entries => do
    let fields ← entries.mapM fun (key, node) => do
      return (← yamlLintName? key, ← node.value? .typed)
    return .object fields
  | "rules", .mapping entries => do
    let fields ← entries.mapM fun (key, node) => do
      return (← key.name? .written, ← yamlEntry? node)
    return .object fields
  | _, node => node.value? .typed

/-- The fields of settings among the entries of a YAML mapping. -/
def yamlFields (d : Data.Yaml.Document) : List (Tree × Tree) → Reading (List (String × Value))
  | [] => pure []
  | (key, tree) :: entries => do
    let name ← StateT.lift ((← d.node 0 key).name? .written)
    if recordNames.contains name then
      let v ← StateT.lift (yamlField? name (← d.node yamlDepth tree))
      return (name, v) :: (← yamlFields d entries)
    else yamlFields d entries

/-- The settings of a YAML document; an empty one says nothing. -/
def ofDocument? (d : Data.Yaml.Document) : Option Settings :=
  match d.root.content with
  | .scalar "" .null => some {}
  | .mapping entries => do
    let (fields, _) ← (yamlFields d entries).run d.aliasLimit
    (ofValue (.object fields)).toOption
  | _ => none

def ofYaml? (text : List Char) : Option Settings := do ofDocument? (← Data.Yaml.read text)

def Readers.standard : Readers := ⟨ofYaml?, ofJson?⟩

end Settings
end QueryLint
