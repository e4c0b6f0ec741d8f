import QueryLint.Proofs.Statement.Partition
import QueryLint.Proofs.Text.Offset
import QueryLint.Proofs.Token.LineBreaks

/-!
# Token boundaries

Where a token starts or stops, the text can be cut without parting a line break.
So at token boundaries positions and byte offsets say the same: the line index
turns one into the other, and keeps their order.
-/
namespace QueryLint

/-- Whether a token of a text starts or stops at a position. -/
def IsBoundary (text : List Char) (p : Position) : Prop :=
  ∃ t ∈ tokenize text, p = t.range.start ∨ p = t.range.stop

/-- Whether a range lies in a text and goes from one token boundary to another. -/
structure Range.Within (text : List Char) (r : Range) : Prop where
  origin_le : Position.origin ≤ r.start
  start_le_stop : r.start ≤ r.stop
  stop_le : r.stop ≤ (Document.parse text).stop
  start_boundary : IsBoundary text r.start
  stop_boundary : IsBoundary text r.stop

theorem parse_stop (text : List Char) :
    (Document.parse text).stop = Position.origin.advance text := by
  have hcut : ¬Text.SplitsBreak text [] := Text.SplitsBreak.not_of_nil
  have h := Text.LineIndex.position_append hcut
  rwa [List.append_nil] at h

theorem parse_stop_eq_advanceAll (text : List Char) :
    (Document.parse text).stop = Position.origin.advanceAll (lexemes text) := by
  rw [parse_stop, advanceAll_lexemes (List.append_nil _).symm, join_lexemes]

theorem exists_cut_of_lexemes {text : List Char} {before after : List Lexeme}
    (h : lexemes text = before ++ after) :
    ∃ front rest, text = front ++ rest ∧ ¬Text.SplitsBreak front rest ∧
      Position.origin.advanceAll before = Position.origin.advance front := by
  refine ⟨Lexeme.join before, Lexeme.join after, ?_, not_splitsBreak_of_lexemes h,
    advanceAll_lexemes h Position.origin⟩
  rw [← Lexeme.join_append, ← h, join_lexemes]

theorem offset_advanceAll {text : List Char} {before after : List Lexeme}
    (h : lexemes text = before ++ after) :
    (Text.LineIndex.ofText text).offset (Position.origin.advanceAll before) =
      Text.byteLength (Lexeme.join before) := by
  have htext : text = Lexeme.join before ++ Lexeme.join after := by
    rw [← Lexeme.join_append, ← h, join_lexemes]
  rw [advanceAll_lexemes h, htext]
  exact Text.LineIndex.offset_advance (not_splitsBreak_of_lexemes h)

theorem offset_of_mem_tokenize {text : List Char} {t : Token} (h : t ∈ tokenize text) :
    (Text.LineIndex.ofText text).offset t.range.start = t.span.start ∧
      (Text.LineIndex.ofText text).offset t.range.stop = t.span.stop := by
  obtain ⟨before, l, after, hsplit, rfl⟩ := exists_of_mem_place h
  have hstart := offset_advanceAll hsplit
  have hstop := offset_advanceAll (hsplit.trans (List.append_cons before l after))
  rw [Position.advanceAll_concat, Lexeme.join_concat, Text.byteLength_append] at hstop
  simp only [Lexeme.placed, Nat.zero_add]
  exact ⟨hstart, hstop⟩

theorem eq_placed_of_getElem?_place {p : Position} {offset i : Nat} {ls : List Lexeme} {t : Token}
    (h : (place p offset ls)[i]? = some t) :
    ls = ls.take i ++ t.toLexeme :: ls.drop (i + 1) ∧
      t = t.toLexeme.placed (p.advanceAll (ls.take i))
        (offset + Text.byteLength (Lexeme.join (ls.take i))) := by
  induction ls generalizing p offset i with
  | nil => simp [place] at h
  | cons l ls ih =>
    rw [place_cons] at h
    cases i with
    | zero =>
      obtain rfl : l.placed p offset = t := by simpa using h
      exact ⟨rfl, rfl⟩
    | succ i =>
      obtain ⟨hls, ht⟩ := ih (by simpa using h)
      refine ⟨congrArg (l :: ·) hls, ht.trans ?_⟩
      rw [List.take_succ_cons, Lexeme.join_cons, Text.byteLength_append, Nat.add_assoc]
      rfl

theorem lexemes_of_tokenize {text : List Char} {before after : List Token} {t : Token}
    (h : tokenize text = before ++ t :: after) :
    lexemes text =
        before.map Token.toLexeme ++ [t.toLexeme] ++ after.map Token.toLexeme ∧
      t.range = ⟨Position.origin.advanceAll (before.map Token.toLexeme),
        Position.origin.advanceAll (before.map Token.toLexeme ++ [t.toLexeme])⟩ := by
  have hlexemes : lexemes text =
      before.map Token.toLexeme ++ [t.toLexeme] ++ after.map Token.toLexeme := by
    rw [← map_toLexeme_place Position.origin 0 (lexemes text)]
    change (tokenize text).map Token.toLexeme = _
    simp [h]
  have hget : (place Position.origin 0 (lexemes text))[before.length]? = some t := by
    change (tokenize text)[before.length]? = some t
    simp [h]
  have htake : (lexemes text).take before.length = before.map Token.toLexeme := by
    rw [hlexemes, List.append_assoc]
    exact List.take_left' (by simp)
  obtain ⟨-, hplaced⟩ := eq_placed_of_getElem?_place hget
  rw [htake] at hplaced
  refine ⟨hlexemes, ?_⟩
  rw [Position.advanceAll_concat]
  exact congrArg Token.range hplaced

/-- The token that starts behind `front` parts the lexemes into those of `front`, its
own, and those of the rest. -/
theorem exists_lexemes_of_token {front rest : List Char} {i : Nat} {t : Token}
    (h : (tokenize (front ++ rest))[i]? = some t) (hstart : t.span.start = Text.byteLength front) :
    ∃ before after, lexemes (front ++ rest) = before ++ t.toLexeme :: after ∧
      before.length = i ∧ Lexeme.join before = front ∧ t.chars ++ Lexeme.join after = rest ∧
      t = t.toLexeme.placed (Position.origin.advanceAll before) (Text.byteLength front) := by
  have hlt : i < (lexemes (front ++ rest)).length := by
    obtain ⟨hlt, -⟩ := List.getElem?_eq_some_iff.mp h
    rwa [tokenize, length_place] at hlt
  obtain ⟨hsplit, ht⟩ := eq_placed_of_getElem?_place h
  have hlength : ((lexemes (front ++ rest)).take i).length = i :=
    List.length_take_of_le (Nat.le_of_lt hlt)
  generalize (lexemes (front ++ rest)).take i = before at hsplit ht hlength
  generalize (lexemes (front ++ rest)).drop (i + 1) = after at hsplit
  have hjoin : front ++ rest = Lexeme.join before ++ (t.chars ++ Lexeme.join after) := by
    rw [← join_lexemes (front ++ rest), hsplit, Lexeme.join_append, Lexeme.join_cons]
  have hbytes : Text.byteLength front = Text.byteLength (Lexeme.join before) := by
    rw [← hstart, ht, Lexeme.placed, Nat.zero_add]
  have hfront : front = Lexeme.join before := by
    rw [← Text.takeBytes_append front rest, hbytes, hjoin, Text.takeBytes_append]
  rw [Nat.zero_add, ← hbytes] at ht
  refine ⟨before, after, hsplit, hlength, hfront.symm, ?_, ht⟩
  rw [← hfront] at hjoin
  exact (List.append_cancel_left hjoin).symm

/-- A position reached by cutting between characters that belong to no common
line break. -/
theorem IsBoundary.exists_cut {text : List Char} {p : Position} (h : IsBoundary text p) :
    ∃ front rest, text = front ++ rest ∧ ¬Text.SplitsBreak front rest ∧
      p = Position.origin.advance front := by
  obtain ⟨t, ht, hp⟩ := h
  obtain ⟨before, l, after, hsplit, rfl⟩ := exists_of_mem_place ht
  rcases hp with rfl | rfl
  · exact exists_cut_of_lexemes hsplit
  · have hcut := exists_cut_of_lexemes (hsplit.trans (List.append_cons before l after))
    rwa [Position.advanceAll_concat] at hcut

theorem IsBoundary.le_stop {text : List Char} {p : Position} (h : IsBoundary text p) :
    p ≤ (Document.parse text).stop := by
  obtain ⟨front, rest, rfl, hwhole, rfl⟩ := h.exists_cut
  rw [parse_stop, Position.advance_append hwhole]
  exact Position.le_advance _ rest

/-- The bytes of a range whose ends are boundaries are a slice of the text. -/
theorem Range.Within.exists_slice {text : List Char} {r : Range} (h : r.Within text) :
    ∃ before cut after, text = before ++ cut ++ after ∧
      (Text.LineIndex.ofText text).offset r.start = Text.byteLength before ∧
      (Text.LineIndex.ofText text).offset r.stop = Text.byteLength before + Text.byteLength cut := by
  obtain ⟨before, rest, htext, hwhole, hstart⟩ := h.start_boundary.exists_cut
  obtain ⟨upTo, after, htext', hwhole', hstop⟩ := h.stop_boundary.exists_cut
  have hle := h.start_le_stop
  rw [hstart, hstop] at hle
  obtain ⟨cut, rfl⟩ := prefix_of_advance_le (htext.symm.trans htext') hwhole' hle
  refine ⟨before, cut, after, htext', ?_, ?_⟩
  · rw [hstart, htext, Text.LineIndex.offset_advance hwhole]
  · rw [hstop, htext', Text.LineIndex.offset_advance hwhole', Text.byteLength_append]

theorem offset_le_of_boundary_le {text : List Char} {p q : Position} (hp : IsBoundary text p)
    (hq : IsBoundary text q) (hle : p ≤ q) :
    (Text.LineIndex.ofText text).offset p ≤ (Text.LineIndex.ofText text).offset q := by
  obtain ⟨front, rest, htext, hwhole, rfl⟩ := hp.exists_cut
  obtain ⟨front', rest', htext', hwhole', rfl⟩ := hq.exists_cut
  obtain ⟨more, rfl⟩ := prefix_of_advance_le (htext.symm.trans htext') hwhole' hle
  nth_rewrite 2 [htext']
  rw [Text.LineIndex.offset_advance hwhole', htext, Text.LineIndex.offset_advance hwhole,
    Text.byteLength_append]
  exact Nat.le_add_right _ _

section Spans

variable {text : List Char} {before after : List Lexeme} {l : Lexeme}

theorem pairwise_span_place (p : Position) (offset : Nat) (ls : List Lexeme) :
    (place p offset ls).Pairwise fun s t => s.span.stop ≤ t.span.start := by
  induction ls generalizing p offset with
  | nil => exact List.Pairwise.nil
  | cons l ls ih =>
    rw [place_cons]
    refine List.Pairwise.cons ?_ (ih _ _)
    intro t ht
    obtain ⟨before, m, after, -, rfl⟩ := exists_of_mem_place ht
    exact Nat.le_add_right _ _

theorem span_disjoint {s t : Token} (hs : s ∈ tokenize text) (ht : t ∈ tokenize text)
    (hne : s ≠ t) : s.span.stop ≤ t.span.start ∨ t.span.stop ≤ s.span.start := by
  have hpairwise : (tokenize text).Pairwise fun s t =>
      s.span.stop ≤ t.span.start ∨ t.span.stop ≤ s.span.start :=
    (pairwise_span_place Position.origin 0 (lexemes text)).imp Or.inl
  have : Std.Symm fun s t : Token =>
      s.span.stop ≤ t.span.start ∨ t.span.stop ≤ s.span.start := ⟨fun _ _ => Or.symm⟩
  exact hpairwise.forall hs ht hne

theorem placed_mem_tokenize (h : lexemes text = before ++ l :: after) :
    l.placed (Position.origin.advanceAll before) (Text.byteLength (Lexeme.join before)) ∈
      tokenize text := by
  rw [tokenize, h, place_append, place_cons, Nat.zero_add]
  exact List.mem_append_right _ List.mem_cons_self

theorem range_of_lexemes (h : lexemes text = before ++ l :: after) :
    (⟨Position.origin.advanceAll before, (Position.origin.advanceAll before).advance l.chars⟩ :
        Range) =
      ⟨(Text.LineIndex.ofText text).position (Text.byteLength (Lexeme.join before)),
        (Text.LineIndex.ofText text).position
          (Text.byteLength (Lexeme.join before ++ l.chars))⟩ := by
  have hstop := position_join (h.trans (List.append_cons before l after))
  rw [Lexeme.join_concat, Position.advanceAll_concat] at hstop
  rw [position_join h, hstop]

end Spans

section Within

variable {text : List Char} {r s : Range} {p q : Position} {t : Token}

theorem Range.Within.of_boundaries (hp : IsBoundary text p) (hq : IsBoundary text q) (h : p ≤ q) :
    Range.Within text ⟨p, q⟩ :=
  ⟨Position.origin_le p, h, hq.le_stop, hp, hq⟩

theorem start_lt_stop_of_mem_tokenize (h : t ∈ tokenize text) : t.range.start < t.range.stop := by
  obtain ⟨before, l, after, hsplit, rfl⟩ := exists_of_mem_place h
  apply Position.lt_advance
  apply chars_ne_nil_of_mem_lexemes
  rw [hsplit]
  exact List.mem_append_right before List.mem_cons_self

theorem isBoundary_start (h : t ∈ tokenize text) : IsBoundary text t.range.start :=
  ⟨t, h, Or.inl rfl⟩

theorem isBoundary_stop (h : t ∈ tokenize text) : IsBoundary text t.range.stop :=
  ⟨t, h, Or.inr rfl⟩

theorem isBoundary_parse_stop (h : t ∈ tokenize text) :
    IsBoundary text (Document.parse text).stop := by
  have hne : lexemes text ≠ [] := by
    intro hnil
    rw [tokenize, hnil] at h
    simp [place] at h
  obtain ⟨first, last, -, hlast, -, -, -, hstop⟩ := exists_ends_of_place Position.origin 0 hne
  refine ⟨last, List.mem_of_getLast? hlast, Or.inr ?_⟩
  rw [hstop, parse_stop_eq_advanceAll]

theorem within_of_mem_tokenize (h : t ∈ tokenize text) : t.range.Within text := by
  apply Range.Within.of_boundaries (isBoundary_start h) (isBoundary_stop h)
  have hlt := start_lt_stop_of_mem_tokenize h
  simp only [Position.lt_def, Position.le_def] at *
  omega

theorem Range.Within.between (hp : IsBoundary text p) (hq : IsBoundary text q) (h : p ≤ q) :
    (Range.between p q).Within text := by
  rw [Range.between_of_le h]
  exact .of_boundaries hp hq h

end Within
end QueryLint
