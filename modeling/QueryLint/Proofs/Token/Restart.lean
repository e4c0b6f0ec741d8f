import QueryLint.Proofs.Token.LineBreaks
import QueryLint.Proofs.Token.Relex

/-!
# Reading on from a token boundary

Reading keeps nothing in mind but where it is. So a text that is cut at a token
boundary reads on both sides as it did before: the text in front of the cut gives
the tokens that end there, and the text behind it gives the others, counted from
where that text stands (`Token.shift`).
-/
namespace QueryLint

namespace Position

theorem shift_origin (p : Position) : p.shift origin = p := rfl

theorem line_shift (p q : Position) : (p.shift q).line = p.line + q.line := by
  unfold shift
  split_ifs with h
  · rw [h, Nat.add_zero]
  · rfl

theorem shift_le_shift (p : Position) {q r : Position} (h : q ≤ r) : p.shift q ≤ p.shift r := by
  rw [le_def] at h
  rw [le_def, line_shift, line_shift]
  unfold shift
  split_ifs <;> dsimp only <;> omega

theorem shift_advance (p q : Position) (cs : List Char) :
    p.shift (q.advance cs) = (p.shift q).advance cs := by
  induction cs generalizing q with
  | nil => rfl
  | cons c cs ih =>
    simp only [advance]
    split_ifs
    · rw [ih, line_shift]
      rfl
    · exact ih q
    · rw [ih]
      congr 1
      unfold shift
      dsimp only
      split_ifs
      · rw [Nat.add_assoc]
      · rfl

end Position

def Range.map (start stop : Position → Position) (r : Range) : Range :=
  ⟨start r.start, stop r.stop⟩

/-- A range of a text, when that text stands at `p`. -/
def Range.shift (p : Position) : Range → Range :=
  Range.map p.shift p.shift

/-- A token of a text, when that text stands at `p` and at a byte offset. -/
def Token.shift (p : Position) (offset : Nat) (t : Token) : Token :=
  { t with range := t.range.shift p, span := ⟨offset + t.span.start, offset + t.span.stop⟩ }

theorem place_shift (p q : Position) (offset offset' : Nat) (ls : List Lexeme) :
    place (p.shift q) (offset + offset') ls = (place q offset' ls).map (Token.shift p offset) := by
  induction ls generalizing q offset' with
  | nil => rfl
  | cons l ls ih =>
    have hhead : l.placed (p.shift q) (offset + offset') = (l.placed q offset').shift p offset := by
      simp only [Lexeme.placed, Token.shift, Range.shift, Range.map, Position.shift_advance,
        Nat.add_assoc]
    rw [place_cons, place_cons, List.map_cons, hhead, ← Position.shift_advance, Nat.add_assoc, ih]

section Cut

variable {text : List Char} {before after : List Lexeme}

theorem tokenize_join_left (h : lexemes text = before ++ after) :
    tokenize (Lexeme.join before) = place Position.origin 0 before := by
  rw [tokenize, lexemes_join_left h]

theorem map_shift_tokenize_join_right (h : lexemes text = before ++ after) (p : Position)
    (offset : Nat) :
    (tokenize (Lexeme.join after)).map (Token.shift p offset) = place p offset after := by
  rw [tokenize, lexemes_join_right h, ← place_shift, Position.shift_origin, Nat.add_zero]

/-- The tokens on both sides of a cut between lexemes. -/
theorem tokenize_eq_append (h : lexemes text = before ++ after) :
    tokenize text =
      tokenize (Lexeme.join before) ++
        (tokenize (Lexeme.join after)).map
          (Token.shift (Position.origin.advanceAll before)
            (Text.byteLength (Lexeme.join before))) := by
  rw [tokenize_join_left h, map_shift_tokenize_join_right h, tokenize, h, place_append,
    Nat.zero_add]

theorem stop_le_of_mem_tokenize {t : Token} (h : t ∈ tokenize text) :
    t.span.stop ≤ Text.byteLength text := by
  obtain ⟨before, l, after, hsplit, rfl⟩ := exists_of_mem_place h
  have htext : text = Lexeme.join before ++ (l.chars ++ Lexeme.join after) := by
    rw [← Lexeme.join_cons, ← Lexeme.join_append, ← hsplit, join_lexemes]
  rw [htext, Text.byteLength_append, Text.byteLength_append]
  simp only [Lexeme.placed]
  omega

theorem stop_pos_of_mem_tokenize {t : Token} (h : t ∈ tokenize text) : 0 < t.span.stop := by
  obtain ⟨before, l, after, hsplit, rfl⟩ := exists_of_mem_place h
  have hmem : l ∈ lexemes text := by
    rw [hsplit]
    exact List.mem_append_right before List.mem_cons_self
  have hpos := Text.byteLength_pos_of_ne_nil (chars_ne_nil_of_mem_lexemes hmem)
  simp only [Lexeme.placed]
  omega

/-- The tokens in front of a cut are those that end there or before, and the shifted
ones are those that end behind it. -/
theorem filter_stop_append_shift (front rest : List Char) (p : Position) :
    let tokens :=
      tokenize front ++ (tokenize rest).map (Token.shift p (Text.byteLength front))
    tokens.filter (·.span.stop ≤ Text.byteLength front) = tokenize front ∧
      tokens.filter (Text.byteLength front < ·.span.stop) =
        (tokenize rest).map (Token.shift p (Text.byteLength front)) := by
  have hfront : ∀ t ∈ tokenize front, t.span.stop ≤ Text.byteLength front := by
    intro t ht
    exact stop_le_of_mem_tokenize ht
  have hrest : ∀ t ∈ (tokenize rest).map (Token.shift p (Text.byteLength front)),
      Text.byteLength front < t.span.stop := by
    intro t ht
    obtain ⟨s, hs, rfl⟩ := List.mem_map.mp ht
    exact Nat.lt_add_of_pos_right (stop_pos_of_mem_tokenize hs)
  constructor
  · rw [List.filter_append, List.filter_eq_self.mpr, List.filter_eq_nil_iff.mpr, List.append_nil]
    · intro t ht
      simpa using hrest t ht
    · intro t ht
      simpa using hfront t ht
  · rw [List.filter_append, List.filter_eq_nil_iff.mpr, List.filter_eq_self.mpr, List.nil_append]
    · intro t ht
      simpa using hrest t ht
    · intro t ht
      simpa using hfront t ht

theorem exists_lexemes_of_offset {t : Token} {offset : Nat} (ht : t ∈ tokenize text)
    (h : offset = t.span.start ∨ offset = t.span.stop) :
    ∃ before after, lexemes text = before ++ after ∧
      offset = Text.byteLength (Lexeme.join before) := by
  obtain ⟨before, l, after, hsplit, rfl⟩ := exists_of_mem_place ht
  rcases h with rfl | rfl
  · refine ⟨before, l :: after, hsplit, ?_⟩
    simp only [Lexeme.placed, Nat.zero_add]
  · refine ⟨before ++ [l], after, hsplit.trans (List.append_cons before l after), ?_⟩
    simp only [Lexeme.placed, Nat.zero_add, Lexeme.join_concat, Text.byteLength_append]

end Cut

/-- Reading can stop and start at any token boundary. There the text can be cut;
what stands in front of the cut has exactly the tokens that end at the cut or before
it, and what stands behind it has the other tokens, with the same kinds and
characters, its offsets counted from the cut and its positions from the position
there. -/
theorem tokenize_restarts (text : List Char) (t : Token) (ht : t ∈ tokenize text) (offset : Nat)
    (hoffset : offset = t.span.start ∨ offset = t.span.stop) :
    ∃ front rest, Text.cutAt? offset text = some (front, rest) ∧
      tokenize front = (tokenize text).filter (·.span.stop ≤ offset) ∧
      (tokenize rest).map (Token.shift ((Text.LineIndex.ofText text).position offset) offset) =
        (tokenize text).filter (offset < ·.span.stop) ∧
      tokenize text =
        tokenize front ++
          (tokenize rest).map
            (Token.shift ((Text.LineIndex.ofText text).position offset) offset) := by
  obtain ⟨before, after, hsplit, rfl⟩ := exists_lexemes_of_offset ht hoffset
  have htext : text = Lexeme.join before ++ Lexeme.join after := by
    rw [← Lexeme.join_append, ← hsplit, join_lexemes]
  have htokens := tokenize_eq_append hsplit
  obtain ⟨hfront, hrest⟩ := filter_stop_append_shift (Lexeme.join before) (Lexeme.join after)
    (Position.origin.advanceAll before)
  rw [← htokens] at hfront hrest
  rw [position_join hsplit]
  refine ⟨Lexeme.join before, Lexeme.join after, ?_, hfront.symm, hrest.symm, htokens⟩
  rw [htext]
  exact Text.cutAt?_byteLength _ _

/-- Behind a line break of two characters, in front of a comment that gives its blanks
back and of a literal left open behind a backslash. -/
theorem tokenize_restarts_open :
    let text := "1e\r\n--é \n'a\\".toList
    let t : Token := ⟨⟨.newline, ['\r', '\n']⟩, ⟨⟨0, 2⟩, ⟨1, 0⟩⟩, ⟨2, 4⟩⟩
    t ∈ tokenize text ∧ (Text.LineIndex.ofText text).position 4 = ⟨1, 0⟩ ∧
      ∃ front rest, Text.cutAt? 4 text = some (front, rest) ∧
        tokenize front = (tokenize text).filter (·.span.stop ≤ 4) ∧
        (tokenize rest).map (Token.shift ⟨1, 0⟩ 4) =
          (tokenize text).filter (4 < ·.span.stop) := by
  intro text t
  have ht : t ∈ tokenize text := by decide +kernel
  have hposition : (Text.LineIndex.ofText text).position 4 = ⟨1, 0⟩ := by decide +kernel
  obtain ⟨front, rest, hcut, hfront, hrest, -⟩ := tokenize_restarts text t ht 4 (Or.inr rfl)
  rw [hposition] at hrest
  exact ⟨ht, hposition, front, rest, hcut, hfront, hrest⟩

end QueryLint
