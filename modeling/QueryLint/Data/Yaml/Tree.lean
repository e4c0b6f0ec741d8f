import QueryLint.Data.Node

/-!
# Trees of YAML

What a YAML text says, its aliases included. A node that an alias may stand for
has a number, and an alias stands for the last node, in the order of the text,
that has its number. It may stand inside of that node, which then has no end: such
a part does no harm as long as nobody reads it. Reading a part goes down to a
bounded depth and follows a bounded number of aliases.
-/
namespace QueryLint
namespace Data
namespace Yaml

inductive Tree where
  | scalar (written : String) (meaning : Scalar)
  | sequence (items : List Tree)
  | mapping (entries : List (Tree × Tree))
  | anchored (number : Nat) (tree : Tree)
  | reference (number : Nat)
  deriving Repr, Inhabited

namespace Tree

def empty : Tree := scalar "" .null

def content : Tree → Tree
  | anchored _ t => t
  | t => t

mutual

/-- The trees with a number, in the order of the text. -/
def numbered : Tree → List (Nat × Tree)
  | scalar _ _ => []
  | sequence items => numberedItems items
  | mapping entries => numberedEntries entries
  | anchored n t => (n, t) :: numbered t
  | reference _ => []

def numberedItems : List Tree → List (Nat × Tree)
  | [] => []
  | t :: ts => numbered t ++ numberedItems ts

def numberedEntries : List (Tree × Tree) → List (Nat × Tree)
  | [] => []
  | (key, value) :: entries => numbered key ++ numbered value ++ numberedEntries entries

end

mutual

/-- How much there is to read: a scalar and an alias count once, a collection
counts at its start and at its end. -/
def size : Tree → Nat
  | scalar _ _ => 1
  | sequence items => sizeItems items + 2
  | mapping entries => sizeEntries entries + 2
  | anchored _ t => size t
  | reference _ => 1

def sizeItems : List Tree → Nat
  | [] => 0
  | t :: ts => size t + sizeItems ts

def sizeEntries : List (Tree × Tree) → Nat
  | [] => 0
  | (key, value) :: entries => size key + size value + sizeEntries entries

end

end Tree

structure Document where
  root : Tree

/-- A step of reading that keeps count of the aliases that may still be
followed. -/
abbrev Reading := StateT Nat Option

namespace Document

variable (d : Document)

def target? (number : Nat) : Option Tree := d.root.numbered.reverse.lookup number

/-- How many aliases may be followed. -/
def aliasLimit : Nat := 100 * d.root.size

def follow : Tree → Reading Tree
  | .reference number => do
    match ← get with
    | 0 => failure
    | left + 1 =>
      set left
      StateT.lift (d.target? number)
  | t => pure t.content

/-- A tree as a node, its aliases replaced. Collections may be nested as deep as
the first argument says. -/
def node : Nat → Tree → Reading Node
  | 0, t => do
    match ← d.follow t with
    | .scalar written meaning => pure (.scalar written meaning)
    | _ => failure
  | depth + 1, t => do
    match ← d.follow t with
    | .scalar written meaning => pure (.scalar written meaning)
    | .sequence items => return .sequence (← items.mapM (node depth))
    | .mapping entries =>
      return .mapping (← entries.mapM fun (key, value) => do
        return (← node depth key, ← node depth value))
    | _ => failure

end Document

end Yaml
end Data
end QueryLint
