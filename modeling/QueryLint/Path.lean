/-!
# Paths

Paths are texts of components divided by slashes. Empty components and single
dots count for nothing, so a slash at the end of a path does not change the file
that it names.
-/
namespace QueryLint
namespace Path

def split : List Char → List (List Char)
  | [] => [[]]
  | c :: cs =>
    if c = '/' then [] :: split cs
    else
      match split cs with
      | [] => [[c]]
      | piece :: pieces => (c :: piece) :: pieces

def components (path : List Char) : List (List Char) :=
  (split path).filter fun piece => !piece.isEmpty && piece != ['.']

/-- The last component, unless it leads upwards. -/
def fileName? (path : List Char) : Option (List Char) :=
  (components path).getLast?.filter (· != ['.', '.'])

/-- What follows the last dot of a name. A dot at the start does not count. -/
def extensionOf? (name : List Char) : Option (List Char) :=
  let ending := name.reverse.takeWhile (· != '.')
  if ending.length + 1 < name.length then some ending.reverse else none

/-- The extension of the file that a path names. -/
def extension? (path : List Char) : Option (List Char) :=
  (fileName? path).bind extensionOf?

/-- A path without slashes and single dots at its end. The argument is
reversed. -/
def trimBack : List Char → List Char
  | '/' :: cs => trimBack cs
  | '.' :: '/' :: cs => trimBack ('/' :: cs)
  | ['.'] => []
  | cs => cs
termination_by cs => cs.length

/-- A path without slashes and single dots at its start. -/
def trimFront : List Char → List Char
  | '/' :: cs => trimFront cs
  | '.' :: '/' :: cs => trimFront cs
  | cs => cs

/-- The path without its last component; none if it has no component. -/
def parent? (path : List Char) : Option (List Char) :=
  match trimBack path.reverse with
  | [] => none
  | cs => some (trimBack (cs.dropWhile (· != '/'))).reverse

/-- A file in the directory that a path names. -/
def join (directory file : List Char) : List Char :=
  if directory.isEmpty ∨ directory.getLast? = some '/' then directory ++ file
  else directory ++ '/' :: file

theorem length_trimBack_le (cs : List Char) : (trimBack cs).length ≤ cs.length := by
  fun_induction trimBack cs <;> simp_all <;> omega

theorem trimBack_ne_slash_cons (cs rest : List Char) : trimBack cs ≠ '/' :: rest := by
  fun_induction trimBack cs with
  | case1 cs ih => exact ih
  | case2 cs ih => exact ih
  | case3 => simp
  | case4 cs hslash _ _ =>
    intro h
    exact hslash rest h

theorem length_parent?_lt {path up : List Char} (h : parent? path = some up) :
    up.length < path.length := by
  unfold parent? at h
  have htrim := length_trimBack_le path.reverse
  have hslash := trimBack_ne_slash_cons path.reverse
  split at h
  · simp at h
  · rename_i cs hne
    obtain rfl := Option.some.inj h
    cases hcs : trimBack path.reverse with
    | nil => exact absurd hcs hne
    | cons c cs =>
      have hc : c ≠ '/' := fun hc => hslash cs (hc ▸ hcs)
      have hdrop : ((c :: cs).dropWhile (· != '/')).length ≤ cs.length := by
        rw [List.dropWhile_cons_of_pos (by simpa using hc)]
        exact (List.dropWhile_suffix _).length_le
      have := length_trimBack_le ((c :: cs).dropWhile (· != '/'))
      simp only [hcs, List.length_cons, List.length_reverse] at htrim ⊢
      omega

end Path
end QueryLint
