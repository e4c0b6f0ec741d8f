import QueryLint.Proofs.Rule.Whitespace
import QueryLint.Proofs.Token.LastCharacter

/-!
# The blanks at the ends of lines

What the rule on trailing blanks reports can be said of the text alone, but for the literals
and comments in it: the longest runs of blanks that a line or the text ends in
(`trailingWhitespace_exact`). No run is parted by the end of a lexeme, so each is a lexeme of
its own or lies inside another one; and what holds both blanks and the end of their line is
a literal or a comment.
-/
namespace QueryLint

/-- Whether `blanks` is a longest run of blanks of a text, stands between `front` and `rest`
at the end of a line or of the text, and lies in no literal, no comment and nothing left open. -/
structure IsTrailingRun (text front blanks rest : List Char) : Prop where
  text_eq : text = front ++ blanks ++ rest
  ne_nil : blanks ≠ []
  blank : ∀ c ∈ blanks, Text.isInlineBlank c = true
  longest : ∀ c ∈ front.getLast?, Text.isInlineBlank c = false
  ends : ∀ c ∈ rest.head?, Text.isLineBreak c = true
  outside : ∀ t ∈ tokenize text, t.kind.isEnclosing = true →
    ¬(t.span.start ≤ Text.byteLength front ∧ Text.byteLength (front ++ blanks) ≤ t.span.stop)

section Runs

variable {text front blanks rest start stop : List Char} {d : Char}
  {before after : List Lexeme} {l : Lexeme}

theorem not_blank_behind_lexemes (h : lexemes text = before ++ after) :
    ∀ x ∈ (Lexeme.join before).getLast?, Text.isInlineBlank x = true →
      ∀ y ∈ (Lexeme.join after).head?, Text.isInlineBlank y = false := by
  rcases List.eq_nil_or_concat' before with rfl | ⟨before, l, rfl⟩
  · simp
  · intro x hx hblank
    rw [List.append_assoc] at h
    have hread := (readBefore_of_lexemes (lexemes_join_right h)).1
    rw [Lexeme.join_concat, List.getLast?_append_of_ne_nil _ hread.chars_ne_nil] at hx
    exact hread.not_blank_behind_blank hx hblank

theorem isTrailingRun_of_isTrailing (h : lexemes text = before ++ l :: after)
    (htrailing : l.isTrailing after = true) :
    IsTrailingRun text (Lexeme.join before) l.chars (Lexeme.join after) := by
  obtain ⟨hkind, hnewline⟩ :
      l.kind = .whitespace ∧ after.head?.all (·.kind == .newline) = true := by
    simpa [Lexeme.isTrailing] using htrailing
  obtain ⟨hread, hafter⟩ := readBefore_of_lexemes (lexemes_join_right h)
  have hne := hread.chars_ne_nil
  have hblank := hread.inlineBlank_of_whitespace hkind
  obtain ⟨c, cs, hchars⟩ := List.exists_cons_of_ne_nil hne
  have hc : Text.isInlineBlank c = true := hblank c (by rw [hchars]; exact List.mem_cons_self)
  constructor
  · rw [← join_lexemes text, h, Lexeme.join_append, Lexeme.join_cons, List.append_assoc]
  · exact hne
  · exact hblank
  · intro x hx
    rw [Bool.eq_false_iff]
    intro hx'
    have hbehind := not_blank_behind_lexemes h x hx hx' c (by simp [hchars])
    rw [hc] at hbehind
    cases hbehind
  · intro x hx
    cases after with
    | nil => simp at hx
    | cons newline after =>
      have hkind' : newline.kind = .newline := by simpa using hnewline
      obtain ⟨c, hc, hbreak⟩ := (readBefore_of_lexemes hafter).1.newline_iff.mp hkind'
      obtain ⟨more, hmore⟩ := List.head?_eq_some_iff.mp hc
      obtain rfl : c = x := by simpa [hmore] using hx
      exact hbreak
  · intro t ht henclosing hinside
    have hplaced := placed_mem_tokenize h
    have hdisjoint := span_disjoint ht hplaced (by
      rintro rfl
      simp [Lexeme.placed, hkind, TokenKind.isEnclosing] at henclosing)
    have hpos := Text.byteLength_pos_of_ne_nil hne
    simp only [Lexeme.placed, Text.byteLength_append] at hdisjoint hinside
    omega

theorem takeWhile_isInlineBlank (hblank : ∀ c ∈ blanks, Text.isInlineBlank c = true)
    (hends : ∀ c ∈ rest.head?, Text.isInlineBlank c = false) :
    (blanks ++ rest).takeWhile Text.isInlineBlank = blanks := by
  rw [List.takeWhile_append_of_pos hblank]
  cases rest with
  | nil => simp
  | cons c rest => simp [hends c rfl]

theorem isTrailing_of_ends (h : lexemes text = before ++ l :: after) (hkind : l.kind = .whitespace)
    (hends : ∀ c ∈ (Lexeme.join after).head?, Text.isLineBreak c = true) :
    l.isTrailing after = true := by
  cases after with
  | nil => simp [Lexeme.isTrailing, hkind]
  | cons m after =>
    have hlexemes := (readBefore_of_lexemes (lexemes_join_right h)).2
    have hm := (readBefore_of_lexemes hlexemes).1
    obtain ⟨c, cs, hchars⟩ := List.exists_cons_of_ne_nil hm.chars_ne_nil
    have hc : m.chars.head? = some c := by rw [hchars]; rfl
    have hbreak : Text.isLineBreak c = true := hends c (by simp [List.head?_append, hc])
    simp [Lexeme.isTrailing, hkind, hm.newline_iff.mpr ⟨c, hc, hbreak⟩]

/-- A lexeme that starts in a run of blanks, or before it, goes on to the end of the run. -/
theorem blanks_prefix_of_lexeme (hread : l.ReadBefore (Lexeme.join after))
    (hchars : l.chars = start ++ d :: stop)
    (hblank : ∀ c ∈ d :: blanks, Text.isInlineBlank c = true)
    (htail : blanks ++ rest = stop ++ Lexeme.join after) : blanks <+: stop := by
  rcases List.prefix_or_prefix_of_prefix ⟨rest, htail⟩ (List.prefix_append stop _) with h | h
  · exact h
  · obtain ⟨more, rfl⟩ := h
    cases more with
    | nil => rw [List.append_nil]
    | cons y more =>
      have hbehind : (Lexeme.join after).head? = some y := by
        rw [List.append_assoc, List.append_cancel_left_eq] at htail
        rw [← htail]
        rfl
      obtain ⟨x, hx⟩ : ∃ x, (d :: stop).getLast? = some x := ⟨_, List.getLast?_cons⟩
      have hlast : x ∈ l.chars.getLast? := by
        rw [hchars, List.getLast?_append_of_ne_nil start (List.cons_ne_nil d stop)]
        exact hx
      have hx' : x ∈ d :: (stop ++ y :: more) :=
        List.mem_append_left (y :: more) (List.mem_of_getLast? hx)
      have hy := hread.not_blank_behind_blank hlast (hblank x hx') y hbehind
      rw [hblank y (by simp)] at hy
      cases hy

/-- The lexeme that holds the first blank of the run is a run of blanks: any other one would
hold the whole run, and be one of those that the run lies outside of. -/
theorem IsTrailingRun.kind_eq_whitespace (h : IsTrailingRun text front (d :: blanks) rest)
    (hsplit : lexemes text = before ++ l :: after) (hfront : front = Lexeme.join before ++ start)
    (hchars : l.chars = start ++ d :: stop)
    (htail : blanks ++ rest = stop ++ Lexeme.join after) : l.kind = .whitespace := by
  have hread := (readBefore_of_lexemes (lexemes_join_right hsplit)).1
  by_contra hwhitespace
  by_cases hnewline : l.kind = .newline
  · have hbreak := hread.lineBreak_of_newline hnewline d (by simp [hchars])
    have hd := h.blank d List.mem_cons_self
    simp [Text.isInlineBlank, hbreak] at hd
  have htrivia : l.isTrivia = false := by simp [Lexeme.isTrivia, hwhitespace, hnewline]
  obtain ⟨more, rfl⟩ := blanks_prefix_of_lexeme hread hchars h.blank htail
  have henclosing : l.kind.isEnclosing = false := by
    rw [Bool.eq_false_iff]
    intro henclosing
    refine h.outside _ (placed_mem_tokenize hsplit) henclosing ?_
    simp only [Lexeme.placed, hfront, hchars, Text.byteLength_append, Text.byteLength]
    omega
  cases more with
  | nil =>
    rw [List.append_nil] at hchars
    obtain ⟨x, hx⟩ : ∃ x, (d :: blanks).getLast? = some x := ⟨_, List.getLast?_cons⟩
    have hlast : x ∈ l.chars.getLast? := by
      rw [hchars, List.getLast?_append_of_ne_nil start (List.cons_ne_nil d blanks)]
      exact hx
    have hblank := h.blank x (List.mem_of_getLast? hx)
    rcases hread.firm htrivia with hfirm | ⟨hother, -⟩
    · simp [Text.isInlineBlank, hfirm x hlast] at hblank
    · rw [hother] at henclosing
      cases henclosing
  | cons e more =>
    have he : Text.isLineBreak e = true := by
      rw [List.append_assoc, List.append_cancel_left_eq] at htail
      exact h.ends e (by rw [htail]; rfl)
    rw [hread.not_lineBreak htrivia henclosing e (by simp [hchars])] at he
    cases he

theorem IsTrailingRun.chars_eq (h : IsTrailingRun text front (d :: blanks) rest)
    (hsplit : lexemes text = before ++ l :: after) (hfront : front = Lexeme.join before ++ start)
    (hchars : l.chars = start ++ d :: stop)
    (htail : blanks ++ rest = stop ++ Lexeme.join after) : start = [] ∧ stop = blanks := by
  have hread := (readBefore_of_lexemes (lexemes_join_right hsplit)).1
  have hkind := h.kind_eq_whitespace hsplit hfront hchars htail
  have hblanks := hread.inlineBlank_of_whitespace hkind
  rw [hchars] at hblanks
  constructor
  · by_contra hne
    have hx : start.getLast? = some (start.getLast hne) := List.getLast?_eq_some_getLast hne
    have hlongest := h.longest (start.getLast hne) (by
      rw [hfront, List.getLast?_append_of_ne_nil _ hne]
      exact hx)
    rw [hblanks _ (List.mem_append_left _ (List.mem_of_getLast? hx))] at hlongest
    cases hlongest
  · have hrun : (blanks ++ rest).takeWhile Text.isInlineBlank = blanks := by
      refine takeWhile_isInlineBlank (fun c hc => h.blank c (List.mem_cons_of_mem d hc)) ?_
      intro c hc
      simp [Text.isInlineBlank, h.ends c hc]
    have hrun' : (stop ++ Lexeme.join after).takeWhile Text.isInlineBlank = stop := by
      refine takeWhile_isInlineBlank (fun c hc => hblanks c ?_) (hread.not_blank_behind hkind)
      exact List.mem_append_right start (List.mem_cons_of_mem d hc)
    rw [← hrun, htail, hrun']

theorem IsTrailingRun.exists_isTrailing (h : IsTrailingRun text front blanks rest) :
    ∃ before l after, lexemes text = before ++ l :: after ∧ l.isTrailing after = true ∧
      front = Lexeme.join before ∧ blanks = l.chars := by
  obtain ⟨d, blanks, rfl⟩ := List.exists_cons_of_ne_nil h.ne_nil
  have htext : text = front ++ d :: (blanks ++ rest) := by simpa using h.text_eq
  obtain ⟨before, l, after, start, stop, hsplit, hfront, hchars, htail⟩ := exists_lexeme_at htext
  obtain ⟨rfl, rfl⟩ := h.chars_eq hsplit hfront hchars htail
  have hrest : rest = Lexeme.join after := List.append_cancel_left htail
  have hkind := h.kind_eq_whitespace hsplit hfront hchars htail
  refine ⟨before, l, after, hsplit, ?_, by simpa using hfront, hchars.symm⟩
  exact isTrailing_of_ends hsplit hkind (hrest ▸ h.ends)

end Runs

/-- In a text with a statement, the rule on trailing blanks reports, in order and once each, the
longest runs of blanks at the end of a line or of the text, except for those in literals,
comments and what is left open. -/
theorem trailingWhitespace_exact (text : List Char) (r : Rule)
    (hcheck : r.check = .trailingWhitespace) (henabled : r.isEnabled = true)
    (hstatement : (Document.parse text).isBlank = false) :
    let ranges := (r.diagnostics (Document.parse text)).map (·.range)
    let index := Text.LineIndex.ofText text
    ranges.Pairwise (fun s t => s.start < t.start ∧ s.stop ≤ t.start) ∧
      ∀ range, range ∈ ranges ↔ ∃ front blanks rest, IsTrailingRun text front blanks rest ∧
        range = ⟨index.position (Text.byteLength front),
          index.position (Text.byteLength (front ++ blanks))⟩ := by
  intro ranges index
  have hranges : ranges = (Finding.along Layout.trailingAt (tokenize text)).map (·.range) := by
    refine (Rule.ranges_diagnostics henabled hstatement).trans ?_
    rw [hcheck]
    rfl
  rw [hranges]
  constructor
  · exact (pairwise_range_tokenize text).sublist (Layout.reports_trailingAt.sublist _)
  · intro range
    refine Layout.reports_trailingAt.mem_iff.trans ⟨?_, ?_⟩
    · rintro ⟨before, l, after, hsplit, htrailing, rfl⟩
      exact ⟨_, _, _, isTrailingRun_of_isTrailing hsplit htrailing, range_of_lexemes hsplit⟩
    · rintro ⟨front, blanks, rest, hrun, rfl⟩
      obtain ⟨before, l, after, hsplit, htrailing, rfl, rfl⟩ := hrun.exists_isTrailing
      exact ⟨before, l, after, hsplit, htrailing, (range_of_lexemes hsplit).symm⟩

/-- A literal that is left open keeps its blanks, and a comment gives them back. -/
theorem trailingWhitespace_exact_comment :
    let text := "'a \n--b\t \r".toList
    let r : Rule := ⟨.trailingWhitespace, some .warning, 0⟩
    (r.diagnostics (Document.parse text)).map (·.range) = [⟨⟨1, 3⟩, ⟨1, 5⟩⟩] ∧
      ∃ front blanks rest, IsTrailingRun text front blanks rest ∧
        (⟨⟨1, 3⟩, ⟨1, 5⟩⟩ : Range) =
          ⟨(Text.LineIndex.ofText text).position (Text.byteLength front),
            (Text.LineIndex.ofText text).position (Text.byteLength (front ++ blanks))⟩ := by
  intro text r
  have hranges : (r.diagnostics (Document.parse text)).map (·.range) = [⟨⟨1, 3⟩, ⟨1, 5⟩⟩] := by
    decide +kernel
  refine ⟨hranges, ?_⟩
  apply ((trailingWhitespace_exact text r rfl rfl (by decide +kernel)).2 _).mp
  rw [hranges]
  exact List.mem_cons_self

end QueryLint
