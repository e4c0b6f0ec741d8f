import QueryLint.Diagnostic
import QueryLint.Text.LineIndex

/-!
# Applying edits

The ranges of all edits speak of the text before any of them. Edits go in from
the last start to the first, so that one does not move the others; edits with
the same start keep their order. An edit whose bytes are not a piece of the text
at its turn cannot be applied, and then no edit is.

Of several fixes, one whose edits clash with an edit taken before is skipped.
-/
namespace QueryLint

namespace Edit

/-- Replace the bytes from `start` to `stop`. Both have to be character
boundaries, in order. -/
def splice? (start stop : Nat) (newText : List Char) (text : List Char) : Option (List Char) :=
  if start ≤ stop then do
    let (upTo, after) ← Text.cutAt? stop text
    let (before, _) ← Text.cutAt? start upTo
    return before ++ newText ++ after
  else none

/-- The bytes of an edit in the text that it speaks of. -/
def span (index : Text.LineIndex) (e : Edit) : Span :=
  ⟨index.offset e.range.start, index.offset e.range.stop⟩

/-- Edits in the order in which they go in. -/
def backToFront (edits : List Edit) : List Edit :=
  edits.mergeSort fun a b => decide (b.range.start ≤ a.range.start)

def applyAll? (text : List Char) (edits : List Edit) : Option (List Char) :=
  let index := Text.LineIndex.ofText text
  (backToFront edits).foldlM
    (fun result e => splice? (e.span index).start (e.span index).stop e.newText.toList result) text

/-- Whether an edit cannot go in together with one taken before: they overlap,
or it inserts where the other starts. -/
def clashes (e taken : Edit) : Bool :=
  e.range.overlaps taken.range || (e.range.isEmpty && e.range.start == taken.range.start)

end Edit

namespace Fix

def applyTo? (text : List Char) (fix : Fix) : Option (List Char) :=
  Edit.applyAll? text fix.edits

/-- Whether some edit of the fix clashes with an edit taken before. -/
def clashes (fix : Fix) (taken : List Edit) : Bool :=
  fix.edits.any fun e => taken.any e.clashes

/-- The edits of the fixes that are kept, in order: each that does not clash with
the ones kept before it. -/
def keptEdits (taken : List Edit) : List Fix → List Edit
  | [] => taken
  | fix :: fixes =>
    if fix.clashes taken then keptEdits taken fixes else keptEdits (taken ++ fix.edits) fixes

def applyAll? (text : List Char) (fixes : List Fix) : Option (List Char) :=
  Edit.applyAll? text (keptEdits [] fixes)

end Fix

/-- The text after the fixes of a list of diagnostics. -/
def Diagnostic.applyFixes? (text : List Char) (diagnostics : List Diagnostic) :
    Option (List Char) :=
  Fix.applyAll? text (diagnostics.filterMap (·.fix))

end QueryLint
