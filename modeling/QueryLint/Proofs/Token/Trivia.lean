import QueryLint.Proofs.Token.LineEnd

/-!
# Trivia

What a text holds besides trivia is its contents. A lexeme is trivia by its first
character: a line break makes a newline and any other blank a run of blanks, and
nothing else makes either (`scan_kind_of_not_blank`). A run of blanks goes on as far
as it can, so no other one stands right behind it.
-/
namespace QueryLint

/-- The lexemes of a list of tokens that are no trivia. -/
def Token.contents (ts : List Token) : List Lexeme :=
  (ts.filter (!·.isTrivia)).map Token.toLexeme

theorem Token.contents_eq_filter (ts : List Token) :
    Token.contents ts = (ts.map Token.toLexeme).filter (!·.isTrivia) := by
  rw [List.filter_map]
  rfl

theorem contents_tokenize (text : List Char) :
    Token.contents (tokenize text) = (lexemes text).filter (!·.isTrivia) := by
  rw [Token.contents_eq_filter, tokenize, map_toLexeme_place]

namespace Lexeme

theorem filter_significant_contents (ls : List Lexeme) :
    (ls.filter (!·.isTrivia)).filter (·.isSignificant) = ls.filter (·.isSignificant) := by
  rw [List.filter_filter]
  apply List.filter_congr
  intro l _
  cases h : l.isTrivia <;> simp [isSignificant, h]

theorem contents_eq_significant_iff (ls : List Lexeme) :
    ls.filter (!·.isTrivia) = ls.filter (·.isSignificant) ↔ ∀ l ∈ ls, l.isComment = false := by
  constructor
  · intro h l hl
    rw [Bool.eq_false_iff]
    intro hcomment
    have hkind : l.kind = .comment := by simpa [isComment] using hcomment
    have hmem : l ∈ ls.filter (!·.isTrivia) := by simp [hl, isTrivia, hkind]
    rw [h, List.mem_filter] at hmem
    simp [isSignificant, hcomment] at hmem
  · intro h
    apply List.filter_congr
    intro l hl
    simp [isSignificant, h l hl]

end Lexeme

theorem filter_of_trivia {ls : List Lexeme} (h : ∀ l ∈ ls, l.isTrivia = true) :
    ls.filter (!·.isTrivia) = [] := by
  rw [List.filter_eq_nil_iff]
  intro l hl
  simp [h l hl]

/-- The kinds of lexemes that are trivia. -/
def TokenKind.isTrivial : TokenKind → Bool
  | whitespace | newline => true
  | _ => false

theorem scan_kind_of_not_blank {c : Char} (h : Text.isBlank c = false) (cs : List Char) :
    (scan c cs).kind.isTrivial = false := by
  have hfits := opening_fits c cs.head?
  have hkind := kind_scan_mem c cs
  generalize opening c cs.head? = o at hfits hkind
  have hkinds : (∀ kind ∈ o.kinds, kind.isTrivial = false) →
      (scan c cs).kind.isTrivial = false := fun hall => hall _ hkind
  cases o with
  | lineFeed =>
    obtain rfl : c = '\n' := hfits
    exact absurd h (by decide)
  | carriageReturn =>
    obtain rfl : c = '\r' := hfits
    exact absurd h (by decide)
  | blank =>
    have hblank : Text.isInlineBlank c = true := hfits
    simp [Text.isInlineBlank, h] at hblank
  | _ => exact hkinds (by decide)

theorem scan_of_isInlineBlank {c : Char} (h : Text.isInlineBlank c = true) (cs : List Char) :
    scan c cs = ⟨.whitespace, Scan.runLength Text.isInlineBlank cs⟩ := by
  obtain ⟨hblank, hbreak⟩ := Text.isInlineBlank_iff.mp h
  have hfeed := Text.ne_feed hbreak
  have hreturn : c ≠ '\r' := by
    rintro rfl
    exact absurd hbreak (by decide)
  unfold scan
  rw [if_neg hfeed, if_neg hreturn, if_pos hblank]

theorem scan_newline_of_isLineBreak {c : Char} (h : Text.isLineBreak c = true) (cs : List Char) :
    (scan c cs).kind = .newline := by
  simp only [Text.isLineBreak, Bool.or_eq_true, beq_iff_eq] at h
  rcases h with rfl | rfl
  · rfl
  · rfl

/-- What the first character of a text says of its first lexeme. -/
theorem scan_trivial_iff (c : Char) (cs : List Char) :
    ((scan c cs).kind = .whitespace ↔ Text.isInlineBlank c = true) ∧
      ((scan c cs).kind = .newline ↔ Text.isLineBreak c = true) := by
  by_cases hbreak : Text.isLineBreak c = true
  · have hinline : Text.isInlineBlank c = false := by simp [Text.isInlineBlank, hbreak]
    simp [scan_newline_of_isLineBreak hbreak, hbreak, hinline]
  · by_cases hinline : Text.isInlineBlank c = true
    · simp [scan_of_isInlineBlank hinline, hinline, hbreak]
    · have hblank : Text.isBlank c = false := by
        simpa [Text.isInlineBlank, hbreak] using hinline
      have hkind := scan_kind_of_not_blank hblank cs
      have hne : (scan c cs).kind ≠ .whitespace ∧ (scan c cs).kind ≠ .newline := by
        constructor <;> intro h <;> simp [h, TokenKind.isTrivial] at hkind
      simp [hne, hinline, hbreak]

namespace Lexeme.ReadBefore

variable {l : Lexeme} {after : List Char}

theorem whitespace_iff (h : l.ReadBefore after) :
    l.kind = .whitespace ↔ ∃ c ∈ l.chars.head?, Text.isInlineBlank c = true := by
  obtain ⟨c, front, hchars, hscan⟩ := h
  have hkind := (scan_trivial_iff c (front ++ after)).1
  rw [hscan] at hkind
  simpa [hchars] using hkind

theorem newline_iff (h : l.ReadBefore after) :
    l.kind = .newline ↔ ∃ c ∈ l.chars.head?, Text.isLineBreak c = true := by
  obtain ⟨c, front, hchars, hscan⟩ := h
  have hkind := (scan_trivial_iff c (front ++ after)).2
  rw [hscan] at hkind
  simpa [hchars] using hkind

theorem not_blank_head (h : l.ReadBefore after) (htrivia : l.isTrivia = false) :
    ∀ c ∈ l.chars.head?, Text.isBlank c = false := by
  intro c hc
  simp only [isTrivia, Bool.or_eq_false_iff, beq_eq_false_iff_ne] at htrivia
  have hinline : ¬Text.isInlineBlank c = true := fun hinline =>
    htrivia.1 (h.whitespace_iff.mpr ⟨c, hc, hinline⟩)
  have hbreak : ¬Text.isLineBreak c = true := fun hbreak =>
    htrivia.2 (h.newline_iff.mpr ⟨c, hc, hbreak⟩)
  simpa [Text.isInlineBlank, hbreak] using hinline

theorem inlineBlank_of_whitespace (h : l.ReadBefore after) (hkind : l.kind = .whitespace) :
    ∀ x ∈ l.chars, Text.isInlineBlank x = true := by
  obtain ⟨c, front, hchars, hscan⟩ := h
  have hc : Text.isInlineBlank c = true := by
    rw [← (scan_trivial_iff c (front ++ after)).1, hscan]
    exact hkind
  rw [scan_of_isInlineBlank hc] at hscan
  have hfront := (Scan.runLength_append_eq_iff.mp (congrArg Scan.extra hscan)).1
  rw [hchars]
  exact List.forall_mem_cons.mpr ⟨hc, hfront⟩

theorem not_blank_behind (h : l.ReadBefore after) (hkind : l.kind = .whitespace) :
    ∀ c ∈ after.head?, Text.isInlineBlank c = false := by
  intro x hx
  obtain ⟨after, rfl⟩ := List.head?_eq_some_iff.mp hx
  obtain ⟨c, front, hchars, hscan⟩ := h
  have hblank : Text.isInlineBlank c = true := by
    rw [← (scan_trivial_iff c (front ++ x :: after)).1, hscan]
    exact hkind
  rw [scan_of_isInlineBlank hblank] at hscan
  exact (Scan.runLength_append_eq_iff.mp (congrArg Scan.extra hscan)).2 x rfl

/-- A line break is spelled in one of three ways, and a carriage return takes the line feed
behind it. -/
theorem newline_iff_chars (h : l.ReadBefore after) :
    l.kind = .newline ↔ l.chars = ['\n'] ∨ l.chars = ['\r', '\n'] ∨
      l.chars = ['\r'] ∧ after.head? ≠ some '\n' := by
  rw [h.newline_iff]
  constructor
  · rintro ⟨c, hc, hbreak⟩
    obtain ⟨d, front, hchars, hscan⟩ := h
    obtain rfl : d = c := by simpa [hchars] using hc
    have hextra := congrArg Scan.extra hscan
    simp only [Text.isLineBreak, Bool.or_eq_true, beq_iff_eq] at hbreak
    rcases hbreak with rfl | rfl
    · have hfront : front = [] := List.eq_nil_of_length_eq_zero hextra.symm
      exact Or.inl (by rw [hchars, hfront])
    · have htakes : (if (front ++ after).head? = some '\n' then 1 else 0) = front.length := hextra
      right
      cases front with
      | nil =>
        refine Or.inr ⟨hchars, fun hfeed => ?_⟩
        rw [List.nil_append, if_pos hfeed] at htakes
        cases htakes
      | cons x front =>
        rw [List.cons_append, List.head?_cons, List.length_cons] at htakes
        split_ifs at htakes with hfeed
        · obtain rfl : x = '\n' := Option.some.inj hfeed
          obtain rfl : front = [] := List.eq_nil_of_length_eq_zero (by omega)
          exact Or.inl hchars
  · rintro (hchars | hchars | ⟨hchars, -⟩)
    · exact ⟨'\n', by rw [hchars]; rfl, rfl⟩
    · exact ⟨'\r', by rw [hchars]; rfl, rfl⟩
    · exact ⟨'\r', by rw [hchars]; rfl, rfl⟩

theorem chars_of_feed (h : l.ReadBefore after) (hfeed : l.chars.head? = some '\n') :
    l.chars = ['\n'] := by
  have hkind : l.kind = .newline := h.newline_iff.mpr ⟨'\n', hfeed, rfl⟩
  rcases h.newline_iff_chars.mp hkind with hchars | hchars | ⟨hchars, -⟩
  · exact hchars
  · simp [hchars] at hfeed
  · simp [hchars] at hfeed

theorem lineBreak_of_newline (h : l.ReadBefore after) (hkind : l.kind = .newline) :
    ∀ x ∈ l.chars, Text.isLineBreak x = true := by
  rcases h.newline_iff_chars.mp hkind with hchars | hchars | ⟨hchars, -⟩ <;>
    simp [hchars, Text.isLineBreak]

end Lexeme.ReadBefore
end QueryLint
