import QueryLint.Range

/-!
# Cuts of a text at byte offsets

Where a text is written as a concatenation, the byte lengths of its parts are
the offsets at which it can be cut, and the cuts give the parts back.
-/
namespace QueryLint
namespace Text

/-- The part of a text between two byte offsets. There is none if one of them
lies past the end or inside a character, or if they are out of order. -/
def slice? (text : List Char) (s : Span) : Option (List Char) :=
  if s.start ≤ s.stop then
    (cutAt? s.start text).bind fun cut => (cutAt? (s.stop - s.start) cut.2).map Prod.fst
  else none

theorem byteLength_cons (c : Char) (cs : List Char) :
    byteLength (c :: cs) = c.utf8Size + byteLength cs :=
  rfl

theorem byteLength_take_add (cs : List Char) (m n : Nat) :
    byteLength (cs.take (m + n)) = byteLength (cs.take m) + byteLength ((cs.drop m).take n) := by
  rw [List.take_add, byteLength_append]

theorem slice?_append (before part after : List Char) :
    slice? (before ++ part ++ after) ⟨byteLength before, byteLength before + byteLength part⟩ =
      some part := by
  unfold slice?
  rw [if_pos (Nat.le_add_right _ _), List.append_assoc, cutAt?_byteLength, Option.bind_some]
  dsimp only
  rw [Nat.add_sub_cancel_left, cutAt?_byteLength]
  rfl

theorem takeBytes_append (before after : List Char) :
    takeBytes (byteLength before) (before ++ after) = before := by
  induction before with
  | nil =>
    cases after with
    | nil => rfl
    | cons c cs =>
      have hc := c.utf8Size_pos
      simp only [List.nil_append, byteLength, takeBytes]
      rw [if_neg (by omega)]
  | cons c cs ih =>
    simp only [List.cons_append, byteLength, takeBytes]
    rw [if_pos (Nat.le_add_right _ _), Nat.add_sub_cancel_left, ih]

theorem takeBytes_take (cs : List Char) (n : Nat) :
    takeBytes (byteLength (cs.take n)) cs = cs.take n := by
  have happend := takeBytes_append (cs.take n) (cs.drop n)
  rwa [List.take_append_drop] at happend

theorem prefix_of_byteLength_le {front front' text : List Char} (h : front <+: text)
    (h' : front' <+: text) (hle : byteLength front ≤ byteLength front') : front <+: front' := by
  rcases List.prefix_or_prefix_of_prefix h h' with hprefix | hprefix
  · exact hprefix
  · obtain ⟨more, rfl⟩ := hprefix
    have hmore : more = [] := by
      rw [byteLength_append] at hle
      cases more with
      | nil => rfl
      | cons c cs =>
        have hpos := byteLength_pos_of_ne_nil (List.cons_ne_nil c cs)
        omega
    exact ⟨[], by rw [hmore, List.append_nil, List.append_nil]⟩

theorem dropBytes_zero (cs : List Char) : dropBytes 0 cs = cs := by
  cases cs <;> rfl

theorem dropBytes_cons {n : Nat} {c : Char} (h : c.utf8Size ≤ n) (cs : List Char) :
    dropBytes n (c :: cs) = dropBytes (n - c.utf8Size) cs := by
  have hc := c.utf8Size_pos
  obtain ⟨m, rfl⟩ : ∃ m, n = m + 1 := ⟨n - 1, by omega⟩
  rw [dropBytes]

theorem dropBytes_append (before after : List Char) :
    dropBytes (byteLength before) (before ++ after) = after := by
  induction before with
  | nil => exact dropBytes_zero after
  | cons c cs ih =>
    rw [List.cons_append, byteLength_cons, dropBytes_cons (Nat.le_add_right _ _),
      Nat.add_sub_cancel_left, ih]

theorem dropBytes_take (cs : List Char) (n : Nat) :
    dropBytes (byteLength (cs.take n)) cs = cs.drop n := by
  have happend := dropBytes_append (cs.take n) (cs.drop n)
  rwa [List.take_append_drop] at happend

/-- A character outside the basic plane takes more than one byte, so text never
has more UTF-16 code units than bytes. -/
theorem charUnits_le_utf8Size (c : Char) : charUnits c ≤ c.utf8Size := by
  have hc := c.utf8Size_pos
  unfold charUnits
  split
  · omega
  · rename_i h
    have hne : c.utf8Size ≠ 1 := by
      intro hone
      have hle := Char.utf8Size_eq_one_iff.mp hone
      rw [UInt32.le_iff_toNat_le] at hle
      simp only [Char.toNat] at h
      have : (0x7f : UInt32).toNat = 127 := rfl
      omega
    omega

end Text
end QueryLint
