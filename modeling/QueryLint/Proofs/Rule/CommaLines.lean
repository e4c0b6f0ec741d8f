import QueryLint.Proofs.Rule.Finding
import QueryLint.Proofs.Token.LastCharacter
import Mathlib.Data.List.DropRight

/-!
# Commas at the start and at the end of lines

The rule on commas walks over tokens and never sees a line. Still it reports the commas that
start or end a line of the text (`commas_exact`): a lexeme that runs over lines ends in a mark
of its own, which keeps a comma behind it from starting the line, and a comment up to the end
of a line leaves nothing but blanks of it.
-/
namespace QueryLint

namespace Text

/-- What a text holds behind its last line break. -/
def lastLine (cs : List Char) : List Char :=
  cs.rtakeWhile fun c => !isLineBreak c

/-- Whether a line holds blanks only, or blanks and a comment up to its end. -/
def IsSpent (line : List Char) : Prop :=
  line.dropWhile isBlank = [] ∨ ∃ mark, IsCommentMark mark ∧ mark <+: line.dropWhile isBlank

section Lines

variable {cs ds : List Char}

theorem lastLine_append (h : ∀ c ∈ ds, isLineBreak c = false) (cs : List Char) :
    lastLine (cs ++ ds) = lastLine cs ++ ds := by
  unfold lastLine List.rtakeWhile
  rw [List.reverse_append, List.takeWhile_append_of_pos (by simpa using h), List.reverse_append,
    List.reverse_reverse]

theorem lastLine_of_lineBreak (h : ∀ c ∈ cs.getLast?, isLineBreak c = true) : lastLine cs = [] := by
  rcases List.eq_nil_or_concat' cs with rfl | ⟨cs, c, rfl⟩
  · rfl
  · have hc : isLineBreak c = true := h c (by simp)
    exact List.rtakeWhile_concat_neg _ _ _ (by simp [hc])

theorem mem_lastLine_of_getLast? {c : Char} (hc : c ∈ cs.getLast?)
    (hbreak : isLineBreak c = false) : c ∈ lastLine cs := by
  obtain ⟨front, rfl⟩ := List.getLast?_eq_some_iff.mp hc
  rw [lastLine_append (by simpa using hbreak)]
  simp

theorem isSpent_append (h : ∀ c ∈ cs, isBlank c = true) (ds : List Char) :
    IsSpent (cs ++ ds) ↔ IsSpent ds := by
  unfold IsSpent
  rw [List.dropWhile_append_of_pos h]

theorem isSpent_of_mark {mark line : List Char} (hmark : IsCommentMark mark) (h : mark <+: line) :
    IsSpent line := by
  have hdrop : line.dropWhile isBlank = line := by
    obtain ⟨more, rfl⟩ := h
    rcases hmark with rfl | rfl
    · exact List.dropWhile_cons_of_neg (by decide)
    · exact List.dropWhile_cons_of_neg (by decide)
  exact Or.inr ⟨mark, hmark, hdrop.symm ▸ h⟩

end Lines
end Text

namespace Lexeme

/-- Whether a line holds blanks only behind a lexeme, if it is known whether it does before. -/
def leavesFresh (fresh : Bool) (l : Lexeme) : Bool :=
  if l.kind = .whitespace then fresh else l.kind == .newline

/-- Whether some lexemes stand at the end of a line, but for blanks and line comments. -/
def areSpent (ls : List Lexeme) : Bool :=
  (ls.find? fun l => l.kind != .whitespace && !l.isLineComment).all (·.kind == .newline)

section Fresh

variable {text : List Char} {before after : List Lexeme}

theorem foldl_leavesFresh_concat (fresh : Bool) (before : List Lexeme) (l : Lexeme) :
    (before ++ [l]).foldl leavesFresh fresh = leavesFresh (before.foldl leavesFresh fresh) l := by
  rw [List.foldl_append]
  rfl

theorem ReadBefore.exists_end {l : Lexeme} {behind : List Char} (h : l.ReadBefore behind)
    (htrivia : l.isTrivia = false) (hgoes : ∃ c ∈ behind.head?, Text.isLineBreak c = false) :
    ∃ c ∈ l.chars.getLast?, Text.isBlank c = false := by
  refine ⟨_, List.getLast?_eq_some_getLast h.chars_ne_nil, ?_⟩
  rcases h.firm htrivia with hfirm | ⟨-, hfirm⟩
  · exact hfirm _ (List.getLast?_eq_some_getLast h.chars_ne_nil)
  · obtain ⟨c, hc, hbreak⟩ := hgoes
    rw [hfirm c hc] at hbreak
    cases hbreak

/-- The lexemes before a place leave its line blank exactly if the text on the line before it is.
A literal that is left open can end in a line of blanks, but then no more text follows. -/
theorem foldl_leavesFresh_iff (h : lexemes text = before ++ after)
    (hgoes : ∃ c ∈ (join after).head?, Text.isLineBreak c = false) :
    before.foldl leavesFresh true = true ↔
      ∀ c ∈ Text.lastLine (join before), Text.isBlank c = true := by
  induction before using List.reverseRecOn generalizing after with
  | nil => simp [Text.lastLine]
  | append_singleton before l ih =>
    rw [List.append_assoc, List.singleton_append] at h
    have hread := (readBefore_of_lexemes (lexemes_join_right h)).1
    have hne := hread.chars_ne_nil
    obtain ⟨c, front, hchars⟩ := List.exists_cons_of_ne_nil hne
    rw [foldl_leavesFresh_concat, join_concat]
    by_cases hwhitespace : l.kind = .whitespace
    · have hblanks : ∀ x ∈ l.chars, Text.isBlank x = true ∧ Text.isLineBreak x = false :=
        fun x hx => Text.isInlineBlank_iff.mp (hread.inlineBlank_of_whitespace hwhitespace x hx)
      have hhead : ∃ x ∈ (join (l :: after)).head?, Text.isLineBreak x = false :=
        ⟨c, by simp [hchars], (hblanks c (by simp [hchars])).2⟩
      rw [leavesFresh, if_pos hwhitespace, ih h hhead,
        Text.lastLine_append fun x hx => (hblanks x hx).2]
      simp only [List.mem_append]
      exact ⟨fun hline x hx => hx.elim (hline x) fun hx => (hblanks x hx).1,
        fun hline x hx => hline x (Or.inl hx)⟩
    rw [leavesFresh, if_neg hwhitespace]
    by_cases hnewline : l.kind = .newline
    · have hlast : ∀ x ∈ (join before ++ l.chars).getLast?, Text.isLineBreak x = true := by
        intro x hx
        rw [List.getLast?_append_of_ne_nil _ hne] at hx
        exact hread.lineBreak_of_newline hnewline x (List.mem_of_getLast? hx)
      simp [hnewline, Text.lastLine_of_lineBreak hlast]
    · obtain ⟨x, hx, hblank⟩ := hread.exists_end (by simp [isTrivia, hwhitespace, hnewline]) hgoes
      have hmem : x ∈ Text.lastLine (join before ++ l.chars) := by
        apply Text.mem_lastLine_of_getLast?
        · rwa [List.getLast?_append_of_ne_nil _ hne]
        · exact Text.not_isLineBreak_of_not_isBlank hblank
      refine iff_of_false (by simp [hnewline]) fun hline => ?_
      rw [hline x hmem] at hblank
      cases hblank

end Fresh

section Spent

variable {l : Lexeme} {ls : List Lexeme} {after : List Char}

theorem areSpent_cons_of_skipped (h : l.kind = .whitespace ∨ l.isLineComment = true) :
    areSpent (l :: ls) = areSpent ls := by
  unfold areSpent
  rw [List.find?_cons_of_neg]
  rcases h with h | h <;> simp [h]

theorem areSpent_cons_of_stays (hwhitespace : l.kind ≠ .whitespace)
    (hcomment : l.isLineComment = false) : areSpent (l :: ls) = (l.kind == .newline) := by
  unfold areSpent
  rw [List.find?_cons_of_pos]
  · rfl
  · simp [hwhitespace, hcomment]

theorem ReadBefore.isLineComment_of_isSpent (h : l.ReadBefore after) (htrivia : l.isTrivia = false)
    (hspent : Text.IsSpent (Text.line (l.chars ++ after))) : l.isLineComment = true := by
  obtain ⟨c, front, hchars⟩ := List.exists_cons_of_ne_nil h.chars_ne_nil
  have hblank : Text.isBlank c = false := h.not_blank_head htrivia c (by simp [hchars])
  have hline : Text.line (l.chars ++ after) = c :: Text.line (front ++ after) := by
    rw [hchars, List.cons_append]
    exact Text.line_cons (Bool.eq_false_iff.mp (Text.not_isLineBreak_of_not_isBlank hblank)) _
  have hdrop : (Text.line (l.chars ++ after)).dropWhile Text.isBlank =
      Text.line (l.chars ++ after) := by
    rw [hline]
    exact List.dropWhile_cons_of_neg (by simp [hblank])
  unfold Text.IsSpent at hspent
  rw [hdrop] at hspent
  rcases hspent with hnil | ⟨mark, hmark, hlead⟩
  · rw [hline] at hnil
    cases hnil
  · exact h.isLineComment_of_mark hmark (hlead.trans (List.takeWhile_prefix _))

/-- Some lexemes stand at the end of a line exactly if the line of their text is spent. -/
theorem areSpent_iff {text : List Char} (h : lexemes text = ls) :
    areSpent ls = true ↔ Text.IsSpent (Text.line text) := by
  induction ls generalizing text with
  | nil =>
    rw [← join_lexemes text, h]
    exact iff_of_true rfl (Or.inl rfl)
  | cons l ls ih =>
    obtain ⟨hread, hrest⟩ := readBefore_of_lexemes h
    have htext : text = l.chars ++ join ls := by rw [← join_lexemes text, h, join_cons]
    by_cases hwhitespace : l.kind = .whitespace
    · have hblanks : ∀ x ∈ l.chars, Text.isBlank x = true ∧ Text.isLineBreak x = false :=
        fun x hx => Text.isInlineBlank_iff.mp (hread.inlineBlank_of_whitespace hwhitespace x hx)
      rw [areSpent_cons_of_skipped (Or.inl hwhitespace), ih hrest, htext,
        Text.line_append fun x hx => (hblanks x hx).2,
        Text.isSpent_append fun x hx => (hblanks x hx).1]
    by_cases hcomment : l.isLineComment = true
    · obtain ⟨mark, hmark, hlead⟩ := exists_mark_of_isLineComment hcomment
      rw [areSpent_cons_of_skipped (Or.inr hcomment), htext,
        Text.line_append (hread.onLine hmark hlead)]
      refine iff_of_true ((ih hrest).mpr (Or.inl ?_)) ?_
      · rw [List.dropWhile_eq_nil_iff]
        exact hread.blank_behind_comment hmark hlead
      · exact Text.isSpent_of_mark hmark (hlead.trans (List.prefix_append _ _))
    rw [areSpent_cons_of_stays hwhitespace (by simpa using hcomment), beq_iff_eq]
    by_cases hnewline : l.kind = .newline
    · obtain ⟨c, hc, hbreak⟩ := hread.newline_iff.mp hnewline
      obtain ⟨front, hchars⟩ := List.head?_eq_some_iff.mp hc
      rw [htext, hchars, List.cons_append, Text.line_of_lineBreak hbreak]
      exact iff_of_true hnewline (Or.inl rfl)
    · refine iff_of_false hnewline fun hspent => hcomment ?_
      rw [htext] at hspent
      exact hread.isLineComment_of_isSpent (by simp [isTrivia, hwhitespace, hnewline]) hspent

end Spent

end Lexeme

namespace Token

variable (text : List Char) (t : Token)

/-- Whether a text has only blanks on the line of a token before it. -/
def StartsLine : Prop :=
  ∃ start blanks, (Text.LineIndex.ofText text).lineStart? t.range.start.line = some start ∧
    Text.slice? text ⟨start, t.span.start⟩ = some blanks ∧ ∀ c ∈ blanks, Text.isBlank c = true

/-- Whether a text has only blanks behind a token up to the end of its line, or blanks and a
comment up to there. -/
def EndsLine : Prop :=
  ∃ front behind, Text.cutAt? t.span.stop text = some (front, behind) ∧
    Text.IsSpent (Text.line behind)

/-- Whether a comma stands on the side of its line on which commas should not stand. -/
def OnWrongSide : CommaPosition → Prop
  | .trailing => t.StartsLine text
  | .leading => t.EndsLine text

end Token

section Placed

variable {text : List Char} {before after : List Lexeme} {l : Lexeme}

theorem startsLine_placed_iff (h : lexemes text = before ++ l :: after) :
    (l.placed (Position.origin.advanceAll before)
        (Text.byteLength (Lexeme.join before))).StartsLine text ↔
      ∀ c ∈ Text.lastLine (Lexeme.join before), Text.isBlank c = true := by
  have htext : text = Lexeme.join before ++ Lexeme.join (l :: after) := by
    rw [← Lexeme.join_append, ← h, join_lexemes]
  obtain ⟨front, line, hjoin, hline, hfront, hstart, -⟩ :=
    Text.LineIndex.exists_line_of_advance (not_splitsBreak_of_lexemes h)
  rw [← htext, ← advanceAll_lexemes h] at hstart
  have hlast : Text.lastLine (Lexeme.join before) = line := by
    rw [hjoin, Text.lastLine_append hline, Text.lastLine_of_lineBreak hfront, List.nil_append]
  have hslice : Text.slice? text ⟨Text.byteLength front, Text.byteLength (Lexeme.join before)⟩ =
      some line := by
    rw [htext, hjoin, Text.byteLength_append]
    exact Text.slice?_append front line _
  rw [hlast]
  constructor
  · rintro ⟨start, blanks, hstart', hslice', hblanks⟩
    obtain rfl : Text.byteLength front = start := Option.some.inj (hstart.symm.trans hstart')
    obtain rfl : line = blanks := Option.some.inj (hslice.symm.trans hslice')
    exact hblanks
  · intro hblanks
    exact ⟨_, line, hstart, hslice, hblanks⟩

theorem endsLine_placed_iff (h : lexemes text = before ++ l :: after) (p : Position) :
    (l.placed p (Text.byteLength (Lexeme.join before))).EndsLine text ↔
      Text.IsSpent (Text.line (Lexeme.join after)) := by
  have hcut : Text.cutAt? (Text.byteLength (Lexeme.join before) + Text.byteLength l.chars) text =
      some (Lexeme.join before ++ l.chars, Lexeme.join after) := by
    rw [← join_lexemes text, h, Lexeme.join_append, Lexeme.join_cons, ← List.append_assoc,
      ← Text.byteLength_append]
    exact Text.cutAt?_byteLength _ _
  constructor
  · rintro ⟨front, behind, hcut', hspent⟩
    obtain ⟨-, rfl⟩ := Prod.mk.inj (Option.some.inj (hcut.symm.trans hcut'))
    exact hspent
  · intro hspent
    exact ⟨_, _, hcut, hspent⟩

end Placed

theorem chars_of_comma {l : Lexeme} (h : l.isPunctuation "," = true) : l.chars = [','] := by
  rw [Lexeme.isPunctuation, Bool.and_eq_true, beq_iff_eq, beq_iff_eq] at h
  exact h.2

theorem of_comma {l : Lexeme} (h : l.isPunctuation "," = true) :
    l.isTrivia = false ∧ l.isPunctuation ";" = false := by
  have hchars := chars_of_comma h
  rw [Lexeme.isPunctuation, Bool.and_eq_true, beq_iff_eq] at h
  simp [Lexeme.isTrivia, Lexeme.isPunctuation, h.1, hchars]

namespace Layout

theorem ranges_lineStartCommas_cons (fresh : Bool) (t : Token) (ts : List Token) :
    (lineStartCommas fresh (t :: ts)).map (·.range) =
      (if t.isPunctuation "," && fresh then [t.range] else []) ++
        (lineStartCommas (t.toLexeme.leavesFresh fresh) ts).map (·.range) := by
  rw [lineStartCommas, List.map_append]
  unfold Lexeme.leavesFresh
  congr 1
  split_ifs
  · rfl
  · rfl

theorem sublist_lineStartCommas (fresh : Bool) (ts : List Token) :
    ((lineStartCommas fresh ts).map (·.range)).Sublist (ts.map (·.range)) := by
  induction ts generalizing fresh with
  | nil => exact List.Sublist.slnil
  | cons t ts ih =>
    rw [ranges_lineStartCommas_cons, List.map_cons]
    split_ifs
    · exact (ih _).cons_cons t.range
    · exact (ih _).cons t.range

theorem mem_lineStartCommas_iff {fresh : Bool} {q : Position} {offset : Nat} {ls : List Lexeme}
    {range : Range} :
    range ∈ (lineStartCommas fresh (place q offset ls)).map (·.range) ↔
      ∃ before l after, ls = before ++ l :: after ∧
        (l.isPunctuation "," = true ∧ before.foldl Lexeme.leavesFresh fresh = true) ∧
          range = ⟨q.advanceAll before, (q.advanceAll before).advance l.chars⟩ := by
  induction ls generalizing fresh q offset with
  | nil => simp [place, lineStartCommas]
  | cons l ls ih =>
    have hhere :
        range ∈ (if l.isPunctuation "," && fresh then [(l.placed q offset).range] else []) ↔
          (l.isPunctuation "," = true ∧ fresh = true) ∧ range = ⟨q, q.advance l.chars⟩ := by
      simp [Lexeme.placed]
    rw [place_cons, ranges_lineStartCommas_cons, List.mem_append, ih, exists_split_cons_iff]
    exact or_congr_left hhere

theorem reports_leading : Finding.Reports
    (fun t rest => if t.isPunctuation "," ∧ atLineEnd rest then some { range := t.range } else none)
    (fun l after => l.isPunctuation "," && Lexeme.areSpent after) := by
  intro t rest
  have hrest : Lexeme.areSpent (rest.map Token.toLexeme) = atLineEnd rest := by
    unfold Lexeme.areSpent atLineEnd
    rw [List.find?_map, Option.all_map]
    rfl
  simp only [hrest, Bool.and_eq_true]
  split_ifs
  · rfl
  · rfl

theorem sublist_commas (position : CommaPosition) (d : Document) :
    ((commas position d).map (·.range)).Sublist (d.tokens.map (·.range)) := by
  cases position with
  | trailing => exact sublist_lineStartCommas true d.tokens
  | leading => exact reports_leading.sublist d.tokens

theorem mem_commas_iff (position : CommaPosition) (text : List Char) (range : Range) :
    range ∈ (commas position (Document.parse text)).map (·.range) ↔
      ∃ t ∈ tokenize text, t.isPunctuation "," = true ∧ t.OnWrongSide text position ∧
        range = t.range := by
  have hlexemes : range ∈ (commas position (Document.parse text)).map (·.range) ↔
      ∃ before l after, lexemes text = before ++ l :: after ∧
        (l.isPunctuation "," = true ∧
          (l.placed (Position.origin.advanceAll before)
            (Text.byteLength (Lexeme.join before))).OnWrongSide text position) ∧
        range = ⟨Position.origin.advanceAll before,
          (Position.origin.advanceAll before).advance l.chars⟩ := by
    cases position with
    | trailing =>
      refine mem_lineStartCommas_iff.trans (exists_congr fun before => exists_congr fun l =>
        exists_congr fun after => and_congr_right fun hsplit => and_congr_left' ?_)
      refine and_congr_right fun hcomma => ?_
      have hgoes : ∃ c ∈ (Lexeme.join (l :: after)).head?, Text.isLineBreak c = false :=
        ⟨',', by simp [chars_of_comma hcomma], by decide⟩
      exact (Lexeme.foldl_leavesFresh_iff hsplit hgoes).trans (startsLine_placed_iff hsplit).symm
    | leading =>
      refine reports_leading.mem_iff.trans (exists_congr fun before => exists_congr fun l =>
        exists_congr fun after => and_congr_right fun hsplit => and_congr_left' ?_)
      rw [Bool.and_eq_true]
      refine and_congr_right fun _ => ?_
      have hafter := (readBefore_of_lexemes (lexemes_join_right hsplit)).2
      exact (Lexeme.areSpent_iff hafter).trans (endsLine_placed_iff hsplit _).symm
  rw [hlexemes]
  constructor
  · rintro ⟨before, l, after, hsplit, ⟨hcomma, hside⟩, rfl⟩
    exact ⟨_, placed_mem_tokenize hsplit, hcomma, hside, rfl⟩
  · rintro ⟨t, ht, hcomma, hside, rfl⟩
    obtain ⟨before, l, after, hsplit, rfl⟩ := exists_of_mem_place ht
    rw [Nat.zero_add] at hside
    exact ⟨before, l, after, hsplit, ⟨hcomma, hside⟩, rfl⟩

end Layout

/-- The rule on commas reports, in order and once each, the commas that start a line of the text,
if they should end one, or those that end a line, if they should start one. It reports each
with the range of its one character. -/
theorem commas_exact (text : List Char) (position : CommaPosition) (r : Rule)
    (hcheck : r.check = .leadingComma position) (henabled : r.isEnabled = true) :
    let ranges := (r.diagnostics (Document.parse text)).map (·.range)
    ranges.Pairwise (fun s t => s.start < t.start ∧ s.stop ≤ t.start) ∧
      (∀ range ∈ ranges, range.stop = ⟨range.start.line, range.start.character + 1⟩) ∧
      ∀ range, range ∈ ranges ↔
        ∃ t ∈ tokenize text, t.isPunctuation "," = true ∧ t.OnWrongSide text position ∧
          range = t.range := by
  intro ranges
  have hranges : ranges = (Layout.commas position (Document.parse text)).map (·.range) := by
    cases hstatement : (Document.parse text).isBlank with
    | false =>
      refine (Rule.ranges_diagnostics henabled hstatement).trans ?_
      rw [hcheck]
      rfl
    | true =>
      have hnone : (Layout.commas position (Document.parse text)).map (·.range) = [] := by
        rw [List.eq_nil_iff_forall_not_mem]
        intro range hrange
        obtain ⟨t, ht, hcomma, -, -⟩ := (Layout.mem_commas_iff position text range).mp hrange
        obtain ⟨htrivia, hsemicolon⟩ := of_comma hcomma
        exact not_isBlank_of_mem ht htrivia hsemicolon hstatement
      rw [hnone]
      simp [ranges, Rule.diagnostics, hstatement]
  rw [hranges]
  refine ⟨(pairwise_range_tokenize text).sublist (Layout.sublist_commas position _), ?_,
    Layout.mem_commas_iff position text⟩
  intro range hrange
  obtain ⟨t, ht, hcomma, -, rfl⟩ := (Layout.mem_commas_iff position text range).mp hrange
  obtain ⟨before, l, after, hsplit, rfl⟩ := exists_of_mem_place ht
  have hchars : l.chars = [','] := chars_of_comma hcomma
  simp only [Lexeme.placed, hchars]
  rfl

/-- A comma behind a comment that ends on its line does not start the line. -/
theorem commas_exact_comment :
    let text := "a /*\n*/ , b -- c\r , '\r, e".toList
    let r : Rule := ⟨.leadingComma .trailing, some .warning, 0⟩
    let range : Range := ⟨⟨2, 1⟩, ⟨2, 2⟩⟩
    (r.diagnostics (Document.parse text)).map (·.range) = [range, ⟨⟨3, 0⟩, ⟨3, 1⟩⟩] ∧
      ∃ t ∈ tokenize text, t.isPunctuation "," = true ∧ t.OnWrongSide text .trailing ∧
        range = t.range := by
  intro text r range
  have hranges : (r.diagnostics (Document.parse text)).map (·.range) =
      [range, ⟨⟨3, 0⟩, ⟨3, 1⟩⟩] := by
    decide +kernel
  refine ⟨hranges, ?_⟩
  apply ((commas_exact text .trailing r rfl rfl).2.2 range).mp
  rw [hranges]
  exact List.mem_cons_self

end QueryLint
