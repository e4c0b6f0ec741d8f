import QueryLint.Proofs.Text.Offset

/-!
# Positions and byte offsets as inverse to each other

The cuts of a text that part no line break are the places that positions can
name. A byte offset has the position of the last such cut before it
(`exists_cut_of_position`), and a position leads to such a cut on its own line,
or to the end of the text if there is no such line (`exists_cut_of_offset`). So
both conversions keep the order, and each undoes the other at every such cut.
-/
namespace QueryLint
namespace Text

theorem takeBytes_prefix (n : Nat) (cs : List Char) : takeBytes n cs <+: cs := by
  induction cs generalizing n with
  | nil => exact List.prefix_rfl
  | cons c cs ih =>
    rw [takeBytes]
    split_ifs
    · exact List.cons_prefix_cons.mpr ⟨rfl, ih _⟩
    · exact List.nil_prefix

theorem byteLength_takeBytes_le (n : Nat) (cs : List Char) : byteLength (takeBytes n cs) ≤ n := by
  induction cs generalizing n with
  | nil => exact Nat.zero_le n
  | cons c cs ih =>
    rw [takeBytes]
    split_ifs with hc
    · have := ih (n - c.utf8Size)
      rw [byteLength]
      omega
    · exact Nat.zero_le n

theorem prefix_takeBytes {n : Nat} {front rest : List Char} (h : byteLength front ≤ n) :
    front <+: takeBytes n (front ++ rest) := by
  induction front generalizing n with
  | nil => exact List.nil_prefix
  | cons c front ih =>
    rw [byteLength] at h
    rw [List.cons_append, takeBytes, if_pos (by omega)]
    exact List.cons_prefix_cons.mpr ⟨rfl, ih (by omega)⟩

theorem SplitsBreak.exists_eq {before after : List Char} (h : SplitsBreak before after) :
    ∃ front rest, before = front ++ ['\r'] ∧ after = '\n' :: rest := by
  obtain ⟨front, hfront⟩ := List.getLast?_eq_some_iff.mp h.1
  obtain ⟨rest, hrest⟩ := List.head?_eq_some_iff.mp h.2
  exact ⟨front, rest, hfront, hrest⟩

theorem not_splitsBreak_return (front rest : List Char) : ¬SplitsBreak front ('\r' :: rest) :=
  fun h => by simpa using h.2

namespace LineIndex

theorem position_takeBytes (text : List Char) (offset : Nat) :
    (ofText text).position (byteLength (takeBytes offset text)) =
      (ofText text).position offset := by
  obtain ⟨rest, hrest⟩ := takeBytes_prefix offset text
  have hsame : takeBytes (byteLength (takeBytes offset text)) text = takeBytes offset text := by
    have happend := takeBytes_append (takeBytes offset text) rest
    rwa [hrest] at happend
  have htext : (ofText text).text = text := rfl
  unfold position
  rw [htext, hsame]

theorem position_return (front rest : List Char) :
    (ofText (front ++ '\r' :: '\n' :: rest)).position (byteLength (front ++ ['\r'])) =
      Position.origin.advance front := by
  have hlater : ∀ start ∈ lineStartsFrom (byteLength front) (['\r'] ++ '\n' :: rest),
      byteLength (front ++ ['\r']) < start := by
    intro start hstart
    have hopen : lineStartsFrom (byteLength front) (['\r'] ++ '\n' :: rest) =
        lineStartsFrom (byteLength front + '\r'.utf8Size) ('\n' :: rest) := rfl
    rw [hopen] at hstart
    rw [byteLength_append]
    exact (lt_of_mem_lineStartsFrom hstart).1
  have hreturn : ∀ c ∈ ['\r'], isLineBreak c = true := by simp [isLineBreak]
  have hbehind := position_behind (not_splitsBreak_return front ('\n' :: rest)) hreturn hlater
  rwa [List.append_assoc] at hbehind

/-- The position of an offset is that of the last cut which the offset reaches and
which parts no line break. -/
theorem exists_cut_of_position (text : List Char) (offset : Nat) :
    ∃ front rest, text = front ++ rest ∧ ¬SplitsBreak front rest ∧
      (ofText text).position offset = Position.origin.advance front ∧
      byteLength front ≤ offset ∧
      ∀ front' rest', text = front' ++ rest' → ¬SplitsBreak front' rest' →
        byteLength front' ≤ offset → front' <+: front := by
  obtain ⟨after, hafter⟩ := takeBytes_prefix offset text
  have hfits := byteLength_takeBytes_le offset text
  have hlongest : ∀ front' rest', text = front' ++ rest' → byteLength front' ≤ offset →
      front' <+: takeBytes offset text := by
    rintro front' rest' rfl hle
    exact prefix_takeBytes hle
  rw [← position_takeBytes]
  generalize takeBytes offset text = before at hafter hfits hlongest ⊢
  subst hafter
  by_cases hsplit : SplitsBreak before after
  · obtain ⟨front, rest, rfl, rfl⟩ := hsplit.exists_eq
    rw [byteLength_append] at hfits
    refine ⟨front, '\r' :: '\n' :: rest, by simp, not_splitsBreak_return front _, ?_, by omega, ?_⟩
    · have hreturn := position_return front rest
      rwa [List.append_cons] at hreturn
    · intro front' rest' heq hwhole hle
      rcases List.prefix_concat_iff.mp (hlongest front' rest' heq hle) with hsame | hprefix
      · rw [hsame, List.append_cancel_left_eq] at heq
        rw [hsame, ← heq] at hwhole
        exact absurd hsplit hwhole
      · exact hprefix
  · refine ⟨before, after, rfl, hsplit, position_append hsplit, hfits, ?_⟩
    intro front' rest' heq _ hle
    exact hlongest front' rest' heq hle

theorem position_le_position {text : List Char} {offset offset' : Nat} (h : offset ≤ offset') :
    (ofText text).position offset ≤ (ofText text).position offset' := by
  obtain ⟨front, rest, htext, hwhole, hposition, hle, -⟩ := exists_cut_of_position text offset
  obtain ⟨front', rest', htext', -, hposition', -, hlongest⟩ := exists_cut_of_position text offset'
  obtain ⟨more, rfl⟩ := hlongest front rest htext hwhole (Nat.le_trans hle h)
  have hmore : ¬SplitsBreak front more := by
    intro hsplit
    apply hwhole
    rw [htext, List.append_assoc, List.append_cancel_left_eq] at htext'
    rw [htext']
    exact hsplit.append_right rest'
  rw [hposition, hposition', Position.advance_append hmore]
  exact Position.le_advance _ more

theorem position_le_byteLength (text : List Char) (offset : Nat) :
    ((ofText text).position offset).line + ((ofText text).position offset).character ≤
      byteLength text := by
  obtain ⟨front, rest, htext, -, hposition, -⟩ := exists_cut_of_position text offset
  have hle := Position.origin.advance_le_byteLength front
  rw [hposition, htext, byteLength_append]
  simp only [Position.origin] at hle ⊢
  omega

theorem columnBytes_le_columnBytes {units units' : Nat} (h : units ≤ units') (cs : List Char) :
    columnBytes units cs ≤ columnBytes units' cs := by
  induction cs generalizing units units' with
  | nil => exact Nat.le_refl _
  | cons c cs ih =>
    rw [columnBytes, columnBytes]
    by_cases hstop : units = 0 ∨ isLineBreak c = true
    · rw [if_pos hstop]
      exact Nat.zero_le _
    · have hgo : ¬(units' = 0 ∨ isLineBreak c = true) := by
        rintro (hzero | hbreak)
        · exact hstop (Or.inl (by omega))
        · exact hstop (Or.inr hbreak)
      rw [if_neg hstop, if_neg hgo]
      exact Nat.add_le_add_left (ih (Nat.sub_le_sub_right h (charUnits c))) _

theorem exists_line_of_columnBytes (units : Nat) (cs : List Char) :
    ∃ line rest, cs = line ++ rest ∧ columnBytes units cs = byteLength line ∧
      ∀ c ∈ line, isLineBreak c = false := by
  induction cs generalizing units with
  | nil => exact ⟨[], [], rfl, rfl, by simp⟩
  | cons c cs ih =>
    rw [columnBytes]
    split_ifs with hstop
    · exact ⟨[], c :: cs, rfl, rfl, by simp⟩
    · obtain ⟨line, rest, rfl, hbytes, hline⟩ := ih (units - charUnits c)
      refine ⟨c :: line, rest, rfl, by rw [hbytes, byteLength], ?_⟩
      have hc : isLineBreak c = false := by
        rw [Bool.eq_false_iff]
        exact fun hbreak => hstop (Or.inr hbreak)
      exact List.forall_mem_cons.mpr ⟨hc, hline⟩

end LineIndex

/-- A line starts where a walk has passed as many line breaks as come before it. -/
theorem exists_cut_of_lineStart {offset k start : Nat} {cs : List Char}
    (h : (lineStartsFrom offset cs)[k]? = some start) :
    ∃ front rest, cs = front ++ rest ∧ front ≠ [] ∧ start = offset + byteLength front ∧
      ¬SplitsBreak front rest ∧ ∀ p : Position, p.advance front = ⟨p.line + (k + 1), 0⟩ := by
  induction cs generalizing offset k with
  | nil => simp [lineStartsFrom] at h
  | cons c cs ih =>
    -- A later line start stands behind this character, whether it ends a line or not.
    have hlater : ∀ j, (lineStartsFrom (offset + c.utf8Size) cs)[j]? = some start →
        ∃ front rest, cs = front ++ rest ∧ start = offset + byteLength (c :: front) ∧
          ¬SplitsBreak (c :: front) rest ∧ endsLine c front = endsLine c cs ∧
          ∀ p : Position, p.advance front = ⟨p.line + (j + 1), 0⟩ := by
      intro j hj
      obtain ⟨front, rest, rfl, hne, hstart, hwhole, hwalk⟩ := ih hj
      have hcut : ¬SplitsBreak (c :: front) rest := by
        intro hsplit
        rw [← List.singleton_append] at hsplit
        exact hwhole (hsplit.of_append_left hne)
      refine ⟨front, rest, rfl, ?_, hcut, (endsLine_append hcut).symm, hwalk⟩
      rw [hstart, byteLength, Nat.add_assoc]
    simp only [lineStartsFrom] at h
    split_ifs at h with hends
    · cases k with
      | zero =>
        obtain rfl : offset + c.utf8Size = start := by simpa using h
        have hwhole : ¬SplitsBreak [c] cs := by
          rintro ⟨hreturn, hfeed⟩
          obtain rfl : c = '\r' := by simpa using hreturn
          simp [endsLine, hfeed] at hends
        refine ⟨[c], cs, rfl, by simp, rfl, hwhole, ?_⟩
        intro p
        have hone : endsLine c [] = true := by
          rw [← hends]
          exact (@endsLine_append _ [] _ hwhole).symm
        rw [Position.advance, if_pos hone, Position.advance_nil]
      | succ k =>
        obtain ⟨front, rest, rfl, hstart, hcut, hsame, hwalk⟩ := hlater k (by simpa using h)
        refine ⟨c :: front, rest, rfl, by simp, hstart, hcut, ?_⟩
        intro p
        rw [Position.advance, if_pos (hsame.trans hends), hwalk]
        congr 1
        dsimp only
        omega
    · obtain ⟨front, rest, rfl, hstart, hcut, hsame, hwalk⟩ := hlater k h
      refine ⟨c :: front, rest, rfl, by simp, hstart, hcut, ?_⟩
      intro p
      have hopen : ¬endsLine c front = true := by rwa [hsame]
      rw [Position.advance, if_neg hopen]
      split_ifs <;> exact hwalk _

namespace LineIndex

/-- A position leads to a cut on its line that parts no line break, or, if there is no
such line, to the end of the text. -/
theorem exists_cut_of_offset (text : List Char) (p : Position) :
    ∃ front rest, text = front ++ rest ∧ ¬SplitsBreak front rest ∧
      (ofText text).offset p = byteLength front ∧
      ((ofText text).lineStart? p.line = none ∧ rest = [] ∨
        (ofText text).lineStart? p.line ≠ none ∧
          (Position.origin.advance front).line = p.line) := by
  unfold offset
  cases hline : (ofText text).lineStart? p.line with
  | none =>
    exact ⟨text, [], (List.append_nil text).symm, SplitsBreak.not_of_nil, rfl, Or.inl ⟨rfl, rfl⟩⟩
  | some start =>
    obtain ⟨front, rest, htext, hstart, hwhole, hwalk⟩ : ∃ front rest, text = front ++ rest ∧
        start = byteLength front ∧ ¬SplitsBreak front rest ∧
        Position.origin.advance front = ⟨p.line, 0⟩ := by
      have hentry : (0 :: lineStartsFrom 0 text)[p.line]? = some start := hline
      cases hnumber : p.line with
      | zero =>
        rw [hnumber] at hentry
        obtain rfl : 0 = start := by simpa using hentry
        exact ⟨[], text, rfl, rfl, fun h => by simpa using h.1, rfl⟩
      | succ k =>
        rw [hnumber, List.getElem?_cons_succ] at hentry
        obtain ⟨front, rest, htext, -, hstart, hwhole, hwalk⟩ := exists_cut_of_lineStart hentry
        rw [Nat.zero_add] at hstart
        refine ⟨front, rest, htext, hstart, hwhole, ?_⟩
        rw [hwalk, Position.origin, Nat.zero_add]
    subst htext hstart
    obtain ⟨line, after, rfl, hbytes, honLine⟩ := exists_line_of_columnBytes p.character rest
    have hmore : ¬SplitsBreak front line := fun hsplit => hwhole (hsplit.append_right after)
    refine ⟨front ++ line, after, (List.append_assoc _ _ _).symm, ?_, ?_, Or.inr ⟨by simp, ?_⟩⟩
    · intro hsplit
      by_cases hnil : line = []
      · subst hnil
        rw [List.append_nil] at hsplit
        exact hwhole hsplit
      · have hlast := List.mem_of_getLast? (hsplit.of_append_left hnil).1
        exact absurd (honLine '\r' hlast) (by decide)
    · change byteLength front + columnBytes p.character
        (dropBytes (byteLength front) (front ++ (line ++ after))) = _
      rw [dropBytes_append, hbytes, byteLength_append]
    · rw [Position.advance_append hmore, hwalk, Position.line_advance_of_onLine honLine]

theorem lineStart?_ne_none_of_le {index : LineIndex} {k line : Nat} (h : k ≤ line)
    (hline : index.lineStart? line ≠ none) : index.lineStart? k ≠ none := by
  unfold lineStart? at *
  rw [Ne, List.getElem?_eq_none_iff] at *
  omega

theorem offset_le_offset {text : List Char} {p q : Position} (h : p ≤ q) :
    (ofText text).offset p ≤ (ofText text).offset q := by
  rcases h with hlt | ⟨hsame, hle⟩
  · obtain ⟨front, rest, htext, -, hoffset, hline⟩ := exists_cut_of_offset text p
    obtain ⟨front', rest', htext', hwhole', hoffset', hline'⟩ := exists_cut_of_offset text q
    rw [hoffset, hoffset']
    have hprefix : front <+: front' := by
      rcases hline' with ⟨-, rfl⟩ | ⟨hexists, hline'⟩
      · rw [List.append_nil] at htext'
        exact ⟨rest, htext.symm.trans htext'⟩
      · rcases hline with ⟨hnone, -⟩ | ⟨-, hline⟩
        · exact absurd hnone (lineStart?_ne_none_of_le (Nat.le_of_lt hlt) hexists)
        · apply prefix_of_advance_le (htext.symm.trans htext') hwhole'
          exact Or.inl (by rwa [hline, hline'])
    obtain ⟨more, rfl⟩ := hprefix
    rw [byteLength_append]
    exact Nat.le_add_right _ _
  · unfold offset
    rw [hsame]
    cases (ofText text).lineStart? q.line with
    | none => exact Nat.le_refl _
    | some start => exact Nat.add_le_add_left (columnBytes_le_columnBytes hle _) start

end LineIndex
end Text

/-- Byte offsets and positions of a text are inverse to each other and keep each other's
order. An offset between characters is found again from its position, but for one
inside a line break of two characters, which leads to the front of the break. Every
position, in the text or not, leads to an offset between characters that lies in the
text and inside no line break; a later one leads no less far. Every offset, between
characters or not, has a position whose line and column do not exceed the text's bytes,
and a later one has no earlier position. -/
theorem lineIndex_inverts (text : List Char) :
    let index := Text.LineIndex.ofText text
    (∀ offset before after, Text.cutAt? offset text = some (before, after) →
      (¬Text.SplitsBreak before after → index.offset (index.position offset) = offset) ∧
      (Text.SplitsBreak before after → index.offset (index.position offset) = offset - 1)) ∧
    (∀ p, index.offset p ≤ Text.byteLength text ∧
      ∃ before after, Text.cutAt? (index.offset p) text = some (before, after) ∧
        ¬Text.SplitsBreak before after) ∧
    (∀ p q, p ≤ q → index.offset p ≤ index.offset q) ∧
    (∀ offset offset', offset ≤ offset' → index.position offset ≤ index.position offset') ∧
    ∀ offset, (index.position offset).line + (index.position offset).character ≤
      Text.byteLength text := by
  intro index
  refine ⟨?_, ?_, ?_, ?_, Text.LineIndex.position_le_byteLength text⟩
  · intro offset before after hcut
    obtain ⟨rfl, rfl⟩ := Text.append_eq_of_cutAt? hcut
    constructor
    · intro hwhole
      rw [Text.LineIndex.position_append hwhole, Text.LineIndex.offset_advance hwhole]
    · intro hsplit
      obtain ⟨front, rest, rfl, rfl⟩ := hsplit.exists_eq
      have hposition := Text.LineIndex.position_return front rest
      have hoffset := Text.LineIndex.offset_advance
        (Text.not_splitsBreak_return front ('\n' :: rest))
      rw [List.append_cons] at hposition hoffset
      rw [hposition, hoffset, Text.byteLength_append]
      rfl
  · intro p
    obtain ⟨front, rest, htext, hwhole, hoffset, -⟩ := Text.LineIndex.exists_cut_of_offset text p
    change index.offset p = _ at hoffset
    rw [hoffset, htext]
    refine ⟨?_, front, rest, Text.cutAt?_byteLength front rest, hwhole⟩
    rw [Text.byteLength_append]
    exact Nat.le_add_right _ _
  · intro p q h
    exact Text.LineIndex.offset_le_offset h
  · intro offset offset' h
    exact Text.LineIndex.position_le_position h

/-- Inside a line break of two characters, behind a pair of surrogates, inside that pair
and on a line that the text does not have. -/
theorem lineIndex_inverts_surrogates :
    let text := "a😀\r\nb".toList
    let index := Text.LineIndex.ofText text
    Text.cutAt? 6 text = some ("a😀\r".toList, "\nb".toList) ∧
      index.offset (index.position 6) = 5 ∧ index.offset (index.position 5) = 5 ∧
      index.offset ⟨0, 2⟩ ≤ index.offset ⟨7, 0⟩ ∧ index.position 3 ≤ index.position 9 := by
  intro text index
  have hreturn : Text.cutAt? 6 text = some ("a😀\r".toList, "\nb".toList) := by decide
  have hface : Text.cutAt? 5 text = some ("a😀".toList, "\r\nb".toList) := by decide
  obtain ⟨hcut, -, hoffset, hposition, -⟩ := lineIndex_inverts text
  refine ⟨hreturn, (hcut 6 _ _ hreturn).2 ⟨by decide, by decide⟩, ?_, ?_, ?_⟩
  · exact (hcut 5 _ _ hface).1 fun hsplit => absurd hsplit.2 (by decide)
  · exact hoffset ⟨0, 2⟩ ⟨7, 0⟩ (by decide)
  · exact hposition 3 9 (by decide)

end QueryLint
