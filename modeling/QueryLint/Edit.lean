import QueryLint.Range

/-!
# Edits and fixes

An edit replaces a range of a text; a fix is a labelled list of edits that
belong together.
-/
namespace QueryLint

structure Edit where
  range : Range
  newText : String
  deriving DecidableEq, Repr

namespace Edit

def delete (range : Range) : Edit := ⟨range, ""⟩

def isDeletion (e : Edit) : Bool := e.newText.isEmpty && !e.range.isEmpty

def isInsertion (e : Edit) : Bool := e.range.isEmpty && !e.newText.isEmpty

end Edit

structure Fix where
  label : String
  edits : List Edit
  deriving DecidableEq, Repr

namespace Fix

def delete (label : String) (range : Range) : Fix := ⟨label, [Edit.delete range]⟩

def replace (label : String) (range : Range) (newText : String) : Fix := ⟨label, [⟨range, newText⟩]⟩

end Fix
end QueryLint
