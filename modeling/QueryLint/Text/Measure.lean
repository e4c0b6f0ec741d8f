/-!
# Measures of text

A text is measured in bytes of its UTF-8 form for offsets, and in UTF-16 code
units for the columns of an editor. Both are sums over the characters, so they
turn concatenation into addition.
-/
namespace QueryLint
namespace Text

def byteLength : List Char → Nat
  | [] => 0
  | c :: cs => c.utf8Size + byteLength cs

/-- UTF-16 code units of one character: two outside the basic plane. -/
def charUnits (c : Char) : Nat :=
  if c.toNat < 0x10000 then 1 else 2

@[simp]
theorem byteLength_append (cs ds : List Char) :
    byteLength (cs ++ ds) = byteLength cs + byteLength ds := by
  induction cs with
  | nil => simp [byteLength]
  | cons c cs ih => simp [byteLength, ih, Nat.add_assoc]

theorem charUnits_pos (c : Char) : 0 < charUnits c := by
  unfold charUnits
  split <;> decide

theorem byteLength_pos_of_ne_nil {cs : List Char} (h : cs ≠ []) : 0 < byteLength cs := by
  cases cs with
  | nil => exact absurd rfl h
  | cons c cs => simp only [byteLength]; have := c.utf8Size_pos; omega

/-- Cut a text in two at a byte offset. There is no cut past the end, and none
inside a character. -/
def cutAt? : Nat → List Char → Option (List Char × List Char)
  | 0, cs => some ([], cs)
  | _ + 1, [] => none
  | n + 1, c :: cs =>
    if c.utf8Size ≤ n + 1 then
      (cutAt? (n + 1 - c.utf8Size) cs).map fun p => (c :: p.1, p.2)
    else none

theorem cutAt?_byteLength (cs ds : List Char) :
    cutAt? (byteLength cs) (cs ++ ds) = some (cs, ds) := by
  induction cs with
  | nil => simp [byteLength, cutAt?]
  | cons c cs ih =>
    obtain ⟨n, hn⟩ : ∃ n, c.utf8Size = n + 1 := ⟨c.utf8Size - 1, by have := c.utf8Size_pos; omega⟩
    have hb : byteLength (c :: cs) = (byteLength cs + n) + 1 := by simp only [byteLength]; omega
    rw [hb, List.cons_append, cutAt?, if_pos (by omega),
      show byteLength cs + n + 1 - c.utf8Size = byteLength cs by omega, ih]
    rfl

/-- The longest beginning of a text that fits into `n` bytes. -/
def takeBytes : Nat → List Char → List Char
  | _, [] => []
  | n, c :: cs => if c.utf8Size ≤ n then c :: takeBytes (n - c.utf8Size) cs else []

/-- What follows the first `n` bytes; a character that the cut would split is
dropped whole. -/
def dropBytes : Nat → List Char → List Char
  | 0, cs => cs
  | _ + 1, [] => []
  | n + 1, c :: cs => dropBytes (n + 1 - c.utf8Size) cs

theorem append_eq_of_cutAt? {n : Nat} {cs before after : List Char}
    (h : cutAt? n cs = some (before, after)) :
    before ++ after = cs ∧ byteLength before = n := by
  induction cs generalizing n before after with
  | nil =>
    cases n with
    | zero => simp [cutAt?] at h; simp [h, byteLength]
    | succ n => simp [cutAt?] at h
  | cons c cs ih =>
    cases n with
    | zero => simp [cutAt?] at h; simp [h, byteLength]
    | succ n =>
      rw [cutAt?] at h
      split at h
      · rename_i hc
        obtain ⟨⟨b, a⟩, hp, he⟩ := Option.map_eq_some_iff.mp h
        obtain ⟨rfl, rfl⟩ := Prod.mk.inj he
        obtain ⟨h1, h2⟩ := ih hp
        simp only [List.cons_append, h1, byteLength, h2, true_and]
        omega
      · simp at h

end Text
end QueryLint
