import QueryLint.Data.Yaml.Plain
import QueryLint.Data.Yaml.Token
import QueryLint.Data.Yaml.Tree

/-!
# Reading YAML

From tokens to the one document that a text holds. A name that stands before a
node takes as its number the number of names taken so far, also if it is one of
them; so two names can come to have one number. An alias has to come behind its
name. A text without any token holds an empty tree, as a document without content
does.
-/
namespace QueryLint
namespace Data
namespace Yaml

abbrev Anchors := List (List Char × Nat)

/-- A part of a document, the names known behind it, and the tokens left. -/
abbrev Part (α : Type) := α × Anchors × List Token

def scalarTree (plain : Bool) (text : List Char) : Tree :=
  let s := String.ofList text
  .scalar s (if plain then plainMeaning s else .string)

def nextIn (ts : List Token) (stops : List Token) : Bool :=
  ts.head?.any stops.contains

/-- The number that a name takes, and the names behind it. -/
def Anchors.take (anchors : Anchors) (name : List Char) : Nat × Anchors :=
  (anchors.length, (name, anchors.length) :: anchors.filter fun anchor => anchor.1 != name)

def numberedTree (number : Option Nat) (tree : Tree) : Tree :=
  match number with
  | some n => .anchored n tree
  | none => tree

mutual

/-- A node. `block` says whether a block collection may stand here, and `inMapping`
whether a sequence may stand here without indentation. -/
def readNode (block inMapping : Bool) : Nat → Anchors → List Token → Option (Part Tree)
  | 0, _, _ => none
  | _ + 1, anchors, .alias name :: ts => do return (.reference (← anchors.lookup name), anchors, ts)
  | fuel + 1, anchors, ts => do
    let (number, anchors, ts) :=
      match ts with
      | .anchor name :: ts => (some (anchors.take name).1, (anchors.take name).2, ts)
      | ts => (none, anchors, ts)
    let finish (tree : Tree) (anchors : Anchors) (ts : List Token) : Option (Part Tree) :=
      some (numberedTree number tree, anchors, ts)
    match ts with
    | .blockEntry :: _ =>
      if inMapping then
        let (items, anchors, ts) ← readDashes fuel anchors ts
        finish (.sequence items) anchors ts
      else if number.isSome then finish Tree.empty anchors ts
      else none
    | .scalar plain text :: ts => finish (scalarTree plain text) anchors ts
    | .flowSequenceStart :: ts =>
      let (items, anchors, ts) ← readFlowItems true fuel anchors ts
      finish (.sequence items) anchors ts
    | .flowMappingStart :: ts =>
      let (entries, anchors, ts) ← readFlowEntries true fuel anchors ts
      finish (.mapping entries) anchors ts
    | .blockSequenceStart :: rest =>
      if block then
        let (items, anchors, ts) ← readBlockItems fuel anchors rest
        finish (.sequence items) anchors ts
      else if number.isSome then finish Tree.empty anchors ts
      else none
    | .blockMappingStart :: rest =>
      if block then
        let (entries, anchors, ts) ← readBlockEntries fuel anchors rest
        finish (.mapping entries) anchors ts
      else if number.isSome then finish Tree.empty anchors ts
      else none
    | ts => if number.isSome then finish Tree.empty anchors ts else none

/-- A node, or nothing if a token says that there is none. -/
def readNodeUnless (stops : List Token) (block inMapping : Bool) :
    Nat → Anchors → List Token → Option (Part Tree)
  | 0, _, _ => none
  | fuel + 1, anchors, ts =>
    if nextIn ts stops then some (Tree.empty, anchors, ts)
    else readNode block inMapping fuel anchors ts

/-- The items of a block sequence up to its end. -/
def readBlockItems : Nat → Anchors → List Token → Option (Part (List Tree))
  | 0, _, _ => none
  | fuel + 1, anchors, ts =>
    match ts with
    | .blockEntry :: ts => do
      let (item, anchors, ts) ←
        readNodeUnless [.blockEntry, .blockEnd] true false fuel anchors ts
      let (items, anchors, ts) ← readBlockItems fuel anchors ts
      return (item :: items, anchors, ts)
    | .blockEnd :: ts => some ([], anchors, ts)
    | _ => none

/-- The items of a sequence that is indented like the mapping around it. -/
def readDashes : Nat → Anchors → List Token → Option (Part (List Tree))
  | 0, _, _ => none
  | fuel + 1, anchors, ts =>
    match ts with
    | .blockEntry :: ts => do
      let (item, anchors, ts) ←
        readNodeUnless [.blockEntry, .key, .value, .blockEnd] true false fuel anchors ts
      let (items, anchors, ts) ← readDashes fuel anchors ts
      return (item :: items, anchors, ts)
    | ts => some ([], anchors, ts)

/-- The entries of a block mapping up to its end. -/
def readBlockEntries : Nat → Anchors → List Token → Option (Part (List (Tree × Tree)))
  | 0, _, _ => none
  | fuel + 1, anchors, ts =>
    match ts with
    | .blockEnd :: ts => some ([], anchors, ts)
    | .key :: ts => do
      let (key, anchors, ts) ←
        readNodeUnless [.key, .value, .blockEnd] true true fuel anchors ts
      let (value, anchors, ts) ← readBlockValue fuel anchors ts
      let (entries, anchors, ts) ← readBlockEntries fuel anchors ts
      return ((key, value) :: entries, anchors, ts)
    | _ => none

def readBlockValue : Nat → Anchors → List Token → Option (Part Tree)
  | 0, _, _ => none
  | fuel + 1, anchors, ts =>
    match ts with
    | .value :: ts => readNodeUnless [.key, .value, .blockEnd] true true fuel anchors ts
    | ts => some (Tree.empty, anchors, ts)

/-- The items of a flow sequence up to its end. All but the first one follow a
comma. -/
def readFlowItems (first : Bool) : Nat → Anchors → List Token → Option (Part (List Tree))
  | 0, _, _ => none
  | fuel + 1, anchors, ts => do
    if let .flowSequenceEnd :: ts := ts then return ([], anchors, ts)
    let ts ←
      match ts with
      | .flowEntry :: ts => if first then none else some ts
      | ts => if first then some ts else none
    match ts with
    | .flowSequenceEnd :: ts => return ([], anchors, ts)
    | .key :: ts =>
      let stops := [Token.value, .flowEntry, .flowSequenceEnd]
      let (key, anchors, ts) ←
        if nextIn ts stops then some (Tree.empty, anchors, ts.drop 1)
        else readNode false false fuel anchors ts
      let (value, anchors, ts) ←
        readFlowValue [.flowEntry, .flowSequenceEnd] fuel anchors ts
      let (items, anchors, ts) ← readFlowItems false fuel anchors ts
      return (.mapping [(key, value)] :: items, anchors, ts)
    | ts =>
      let (item, anchors, ts) ← readNode false false fuel anchors ts
      let (items, anchors, ts) ← readFlowItems false fuel anchors ts
      return (item :: items, anchors, ts)

/-- The entries of a flow mapping up to its end. All but the first one follow a
comma. -/
def readFlowEntries (first : Bool) : Nat → Anchors → List Token → Option (Part (List (Tree × Tree)))
  | 0, _, _ => none
  | fuel + 1, anchors, ts => do
    if let .flowMappingEnd :: ts := ts then return ([], anchors, ts)
    let ts ←
      match ts with
      | .flowEntry :: ts => if first then none else some ts
      | ts => if first then some ts else none
    match ts with
    | .flowMappingEnd :: ts => return ([], anchors, ts)
    | .key :: ts =>
      let (key, anchors, ts) ←
        readNodeUnless [.value, .flowEntry, .flowMappingEnd] false false fuel anchors ts
      let (value, anchors, ts) ←
        readFlowValue [.flowEntry, .flowMappingEnd] fuel anchors ts
      let (entries, anchors, ts) ← readFlowEntries false fuel anchors ts
      return ((key, value) :: entries, anchors, ts)
    | ts =>
      let (key, anchors, ts) ← readNode false false fuel anchors ts
      let (entries, anchors, ts) ← readFlowEntries false fuel anchors ts
      return ((key, Tree.empty) :: entries, anchors, ts)

def readFlowValue (stops : List Token) : Nat → Anchors → List Token → Option (Part Tree)
  | 0, _, _ => none
  | fuel + 1, anchors, ts =>
    match ts with
    | .value :: ts => readNodeUnless stops false false fuel anchors ts
    | ts => some (Tree.empty, anchors, ts)

end

/-- The tree of a document, and the tokens behind it. -/
def readDocument (ts : List Token) : Option (Tree × List Token) := do
  let fuel := 4 * ts.length + 4
  let (tree, _, ts) ←
    match ts with
    | .documentStart :: ts =>
      match ts with
      | [] | .documentStart :: _ | .documentEnd :: _ | .version _ _ :: _ =>
        some (Tree.empty, [], ts)
      | ts => readNode true false fuel [] ts
    | ts => readNode true false fuel [] ts
  return (tree, ts)

/-- The lines before a document that tell the version: at most one, and only
versions that are known. -/
def skipVersion : List Token → Option (List Token)
  | .version major minor :: ts =>
    if major = ['1'] ∧ (minor = ['1'] ∨ minor = ['2']) ∧ ts.head? = some .documentStart then some ts
    else none
  | ts => some ts

/-- The document of a text, if it holds no more than one. -/
def read (text : List Char) : Option Document := do
  let ts ← tokens? text
  if ts.isEmpty then return ⟨Tree.empty⟩
  let (tree, rest) ← readDocument (← skipVersion ts)
  if (rest.dropWhile (· == .documentEnd)).isEmpty then return ⟨tree⟩ else none

end Yaml
end Data
end QueryLint
