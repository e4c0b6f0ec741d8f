import QueryLint.Codec.Record
import QueryLint.Diagnostic

/-!
# Positions, edits and diagnostics as values

Lines and columns are integers of 32 bits. All fields have to be present.
-/
namespace QueryLint

open Data (Value)

namespace Severity

def ofValue? (v : Value) : Option Severity := do ofName? (← Codec.tag? v)

end Severity

namespace Level

def ofValue? (v : Value) : Option Level := do ofName? (← Codec.tag? v)

end Level

namespace Position

def ofValue? (v : Value) : Option Position := do
  let fields ← Codec.fields? ["line", "character"] v
  let line ← (← fields.lookup "line").natBelow? (Nat.pow 2 32)
  let character ← (← fields.lookup "character").natBelow? (Nat.pow 2 32)
  return ⟨line, character⟩

def toValue (p : Position) : Value :=
  .object [("line", .number (.int p.line)), ("character", .number (.int p.character))]

end Position

namespace Range

def ofValue? (v : Value) : Option Range := do
  let fields ← Codec.fields? ["start", "end"] v
  let start ← Position.ofValue? (← fields.lookup "start")
  let stop ← Position.ofValue? (← fields.lookup "end")
  return ⟨start, stop⟩

def toValue (r : Range) : Value :=
  .object [("start", r.start.toValue), ("end", r.stop.toValue)]

end Range

namespace Edit

def ofValue? (v : Value) : Option Edit := do
  let fields ← Codec.fields? ["range", "newText"] v
  let range ← Range.ofValue? (← fields.lookup "range")
  let newText ← (← fields.lookup "newText").string?
  return ⟨range, newText⟩

def toValue (e : Edit) : Value :=
  .object [("range", e.range.toValue), ("newText", .string e.newText)]

end Edit

namespace Fix

def ofValue? (v : Value) : Option Fix := do
  let fields ← Codec.fields? ["label", "edits"] v
  let label ← (← fields.lookup "label").string?
  let .array items ← fields.lookup "edits" | none
  return ⟨label, ← items.mapM Edit.ofValue?⟩

def toValue (f : Fix) : Value :=
  .object [("label", .string f.label), ("edits", .array (f.edits.map Edit.toValue))]

end Fix

namespace Diagnostic

/-- A diagnostic without a fix has no field for it. -/
def toValue (d : Diagnostic) : Value :=
  .object
    ([("message", .string d.message), ("severity", .string d.severity.name),
      ("range", d.range.toValue), ("source", .string d.source), ("code", .string d.code)] ++
      (d.fix.map fun fix => ("fix", fix.toValue)).toList)

end Diagnostic
end QueryLint
