import QueryLint.Path

/-!
# File trees

A tree of directories and files, kept as a list of absolute places. Going up from
a directory is possible only where the directory exists.
-/
namespace QueryLint

abbrev Place := List (List Char)

inductive FileEntry where
  | directory
  | file (contents : List UInt8)
  deriving DecidableEq, Repr

structure FileTree where
  entries : List (Place × FileEntry) := []

namespace FileTree

variable (t : FileTree)

/-- What stands at a place; the root is a directory. -/
def get? (place : Place) : Option FileEntry :=
  if place.isEmpty then some .directory else t.entries.lookup place

def isDirectory (place : Place) : Bool := t.get? place == some .directory

/-- The place that components lead to from a directory. Every component but the
last one has to lead to a directory. -/
def walk? (place : Place) : List (List Char) → Option Place
  | [] => some place
  | name :: names =>
    if t.isDirectory place then
      if name = ['.', '.'] then
        if place.isEmpty then none else walk? place.dropLast names
      else walk? (place ++ [name]) names
    else none

/-- Whether a path ends in a way that only a directory can be named by. -/
def namesDirectory (path : List Char) : Bool :=
  (Path.split path).getLast?.any fun piece => piece.isEmpty || piece == ['.']

def read? (path : List Char) : Option (List UInt8) :=
  if namesDirectory path then none
  else
    match (t.walk? [] (Path.components path)).bind t.get? with
    | some (.file contents) => some contents
    | _ => none

def isFile (path : List Char) : Bool := (t.read? path).isSome

/-- The text of the file at a path, if it is UTF-8. -/
def readText? (path : List Char) : Option (List Char) := do
  let bytes ← t.read? path
  let text ← String.fromUTF8? ⟨bytes.toArray⟩
  return text.toList

def set (place : Place) (entry : FileEntry) : FileTree :=
  ⟨(place, entry) :: t.entries.filter fun e => e.1 != place⟩

/-- Make a directory and those above it. -/
def makeDirectories (place : Place) : FileTree :=
  (List.range place.length).foldl
    (fun t n =>
      let above := place.take (n + 1)
      if (t.get? above).isSome then t else t.set above .directory) t

/-- Write a file; the directories above it are made. -/
def write (place : Place) (contents : List UInt8) : FileTree :=
  (t.makeDirectories place.dropLast).set place (.file contents)

def remove (place : Place) : FileTree :=
  ⟨t.entries.filter fun e => e.1 != place⟩

end FileTree
end QueryLint
