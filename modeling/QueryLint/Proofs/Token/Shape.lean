import QueryLint.Proofs.Token.LastCharacter

/-!
# The shapes of lexemes

What the kind of a lexeme says of its characters and of the text behind it
(`Lexeme.ReadBefore.shape`). Trivia, keywords and line comments are known by their
spelling. Every other lexeme stays on its line unless it has marks of more than one
character at both ends, as block comments and literals in three quotes do, or misses the
second of them and takes the rest of the text (`Lexeme.ReadBefore.closed_of_lineBreak`).
-/
namespace QueryLint

namespace Lexeme

/-- A comment between two marks that have no character in common. -/
def IsBlockComment (l : Lexeme) : Prop :=
  l.kind = .comment ∧ ∃ body, l.chars = ['/', '*'] ++ body ++ ['*', '/']

/-- A literal between three quotes and three quotes, with a word that marks it or without. -/
def IsTripleQuoted (l : Lexeme) : Prop :=
  l.kind = .stringLiteral ∧ ∃ word quote body,
    Keyword.lower word ∈ ["", "r", "b", "rb", "br"].map String.toList ∧
      (quote = '\'' ∨ quote = '"') ∧
      l.chars = word ++ [quote, quote, quote] ++ body ++ [quote, quote, quote]

/-- What a lexeme looks like in front of the text `behind`. -/
structure Shape (l : Lexeme) (behind : List Char) : Prop where
  newline : l.kind = .newline ↔ l.chars = ['\n'] ∨ l.chars = ['\r', '\n'] ∨
    l.chars = ['\r'] ∧ behind.head? ≠ some '\n'
  whitespace : l.kind = .whitespace ↔ ∀ c ∈ l.chars, Text.isInlineBlank c = true
  closed : l.isTrivia = false → (∃ c ∈ l.chars, Text.isLineBreak c = true) →
    l.IsBlockComment ∨ l.IsTripleQuoted ∨ l.kind = .other ∧ behind = []
  lineComment : ∀ mark, IsCommentMark mark → mark <+: l.chars →
    l.kind = .comment ∧ (∀ c ∈ l.chars.getLast?, Text.isBlank c = false) ∧
      ∀ c ∈ Text.line behind, Text.isBlank c = true
  keyword : l.kind = .keyword ↔ Keyword.isKeyword l.chars = true
  identifier : l.kind = .identifier → Keyword.isKeyword l.chars = false

end Lexeme

namespace Lexeme

section Closed

variable {l : Lexeme} {kind : TokenKind} {lead mark scope after word behind : List Char}
variable {quote : Char} {escapes : Bool}

/-- What looks for its mark in the rest of the text is closed by it or takes the rest. -/
theorem IsLiteral.closed_or_rest (h : l.IsLiteral kind lead mark escapes scope)
    (htext : l.chars ++ after = lead ++ scope) :
    (l.kind = kind ∧ ∃ body, l.chars = lead ++ body ++ mark) ∨ l.kind = .other ∧ after = [] := by
  obtain ⟨closed, taken, hends, rfl⟩ := h
  cases hends with
  | @closed before hfirst => exact Or.inl ⟨rfl, before, by simp⟩
  | leftOpen => exact Or.inr ⟨rfl, by simpa using htext⟩

theorem IsString.closed_of_lineBreak (h : l.IsString word quote behind)
    (hquote : quote = '\'' ∨ quote = '"')
    (hword : Keyword.lower word ∈ ["", "r", "b", "rb", "br"].map String.toList)
    (htext : l.chars ++ after = word ++ quote :: behind)
    (hbreak : ∃ c ∈ l.chars, Text.isLineBreak c = true) :
    l.IsTripleQuoted ∨ l.kind = .other ∧ after = [] := by
  by_cases hpair : [quote, quote] <+: behind
  · obtain ⟨body, rfl⟩ := hpair
    have htext' : l.chars ++ after = (word ++ [quote, quote, quote]) ++ body := by simpa using htext
    rcases (h.triple body rfl).closed_or_rest htext' with ⟨hkind, inner, hchars⟩ | hrest
    · exact Or.inl ⟨hkind, word, quote, inner, hword, hquote, hchars⟩
    · exact Or.inr hrest
  · exfalso
    obtain ⟨closed, taken, hends, rfl⟩ := h.single hpair
    have hnames : ∀ x ∈ word, Text.isLineBreak x = false := fun x hx =>
      Scan.isLineBreak_eq_false (by decide) (by decide) x (names_of_lower (by decide) hword x hx).2
    have hmark : Text.isLineBreak quote = false := by rcases hquote with rfl | rfl <;> decide
    have htaken : ∀ x ∈ taken, Text.isLineBreak x = false := fun x hx => by
      simpa using List.mem_takeWhile_imp (hends.isPrefix.subset hx)
    obtain ⟨c, hc, hbreak⟩ := hbreak
    rw [List.mem_append, List.mem_append, List.mem_singleton] at hc
    rcases hc with (hc | rfl) | hc
    · exact Bool.false_ne_true ((hnames c hc).symm.trans hbreak)
    · exact Bool.false_ne_true (hmark.symm.trans hbreak)
    · exact Bool.false_ne_true ((htaken c hc).symm.trans hbreak)

end Closed

namespace ReadBefore

variable {l : Lexeme} {after : List Char}

theorem exists_scan (h : l.ReadBefore after) :
    ∃ c cs, l.chars ++ after = c :: cs ∧ l.kind = (scan c cs).kind ∧
      l.chars = c :: cs.take (scan c cs).extra := by
  obtain ⟨c, front, hchars, hscan⟩ := h
  refine ⟨c, front ++ after, by rw [hchars, List.cons_append], ?_, ?_⟩
  · rw [hscan]
  · rw [hscan, List.take_left, hchars]

/-- What holds a line break is closed by a mark of its own or takes the rest of the text. -/
theorem closed_of_lineBreak (h : l.ReadBefore after) (htrivia : l.isTrivia = false)
    (hbreak : ∃ c ∈ l.chars, Text.isLineBreak c = true) :
    l.IsBlockComment ∨ l.IsTripleQuoted ∨ l.kind = .other ∧ after = [] := by
  obtain ⟨c, cs, htext, hkind, hchars⟩ := h.exists_scan
  have hfits := opening_fits c cs.head?
  rw [scan_eq_opening] at hkind hchars
  generalize opening c cs.head? = o at hfits hkind hchars
  have hline (hfeed : o ≠ .lineFeed) (hreturn : o ≠ .carriageReturn)
      (honLine : Scan.OnLine (o.scan c cs).extra cs) : False := by
    obtain ⟨x, hx, hbreak⟩ := hbreak
    rw [hchars] at hx
    rcases List.mem_cons.mp hx with rfl | hx
    · exact Bool.false_ne_true ((hfits.not_lineBreak hfeed hreturn).symm.trans hbreak)
    · exact Bool.false_ne_true ((honLine x hx).symm.trans hbreak)
  cases o with
  | lineFeed => simp [isTrivia, hkind, Opening.scan] at htrivia
  | carriageReturn => simp [isTrivia, hkind, Opening.scan] at htrivia
  | blank => simp [isTrivia, hkind, Opening.scan] at htrivia
  | lineComment => exact (hline (by decide) (by decide) (Scan.lineComment_onLine cs)).elim
  | blockComment =>
    obtain ⟨rfl, hstar⟩ := hfits
    obtain ⟨body, rfl⟩ := List.head?_eq_some_iff.mp hstar
    exact ((Scan.blockComment_isLiteral hkind hchars).closed_or_rest htext).imp_right Or.inr
  | quote =>
    have hne : '\\' ≠ c := by rcases hfits with rfl | rfl <;> decide
    have hstring : l.IsString [] c cs := Scan.string_isString hne rfl hkind hchars
    exact Or.inr (hstring.closed_of_lineBreak hfits (by decide) htext hbreak)
  | backtick =>
    exact (hline (by decide) (by decide) (Scan.single_onLine (by decide) true cs)).elim
  | sigil => exact (hline (by decide) (by decide) (Scan.parameter_onLine cs)).elim
  | digit => exact (hline (by decide) (by decide) (Scan.number_onLine c cs)).elim
  | point => exact (hline (by decide) (by decide) (Scan.number_onLine c cs)).elim
  | letter =>
    rcases Scan.word_isString hkind hchars with
      ⟨word, quote, behind, hsplit, hmarks, hstring⟩ | honLine
    · have hword := List.mem_cons_of_mem "".toList (List.contains_iff_mem.mp hmarks.2)
      exact Or.inr (hstring.closed_of_lineBreak hmarks.1 hword (htext.trans hsplit) hbreak)
    · exact (hline (by decide) (by decide) honLine).elim
  | mark => exact (hline (by decide) (by decide) (Scan.punctuation_onLine c cs)).elim

theorem shape (h : l.ReadBefore after) : l.Shape after where
  newline := h.newline_iff_chars
  whitespace := by
    refine ⟨h.inlineBlank_of_whitespace, fun hblanks => h.whitespace_iff.mpr ?_⟩
    have hhead := List.head?_eq_some_head h.chars_ne_nil
    exact ⟨_, hhead, hblanks _ (List.mem_of_head? hhead)⟩
  closed := h.closed_of_lineBreak
  lineComment := by
    intro mark hmark hlead
    have hcomment := h.isLineComment_of_mark hmark (hlead.trans (List.prefix_append _ _))
    have hkind : l.kind = .comment := by
      simp only [isLineComment, isComment, Bool.and_eq_true, beq_iff_eq] at hcomment
      exact hcomment.1
    refine ⟨hkind, ?_, h.blank_behind_comment hmark hlead⟩
    refine (h.firm (by simp [isTrivia, hkind])).resolve_right ?_
    simp [hkind]
  keyword := h.keyword_iff
  identifier := by
    intro hkind
    rw [Bool.eq_false_iff, ne_eq, ← h.keyword_iff, hkind]
    exact TokenKind.noConfusion

end ReadBefore
end Lexeme

theorem readBefore_of_tokenize {text : List Char} {before after : List Token} {t : Token}
    (h : tokenize text = before ++ t :: after) : t.toLexeme.ReadBefore (Token.join after) := by
  have hlexemes := (lexemes_of_tokenize h).1
  rw [List.append_assoc] at hlexemes
  have hread : t.toLexeme.ReadBefore (Lexeme.join (after.map Token.toLexeme)) :=
    (readBefore_of_lexemes (lexemes_join_right hlexemes)).1
  rwa [Lexeme.join, List.flatMap_map] at hread

/-- Every token has the shape that its kind asks for, in front of the text of the tokens
behind it, and no run of blanks follows another. -/
theorem tokenize_shapes (text : List Char) (before after : List Token) (t : Token)
    (h : tokenize text = before ++ t :: after) :
    t.toLexeme.Shape (Token.join after) ∧
      (t.kind = .whitespace → ∀ next ∈ after.head?, next.kind ≠ .whitespace) := by
  have hread := readBefore_of_tokenize h
  refine ⟨hread.shape, fun hkind next hnext hnext' => ?_⟩
  obtain ⟨after, rfl⟩ := List.head?_eq_some_iff.mp hnext
  rw [List.append_cons] at h
  obtain ⟨c, hc, hblank⟩ := (readBefore_of_tokenize h).whitespace_iff.mp hnext'
  have hbehind : c ∈ (Token.join (next :: after)).head? := by
    obtain ⟨more, hmore⟩ := List.head?_eq_some_iff.mp hc
    simp [Token.join, hmore]
  exact Bool.false_ne_true ((hread.not_blank_behind hkind c hbehind).symm.trans hblank)

/-- A line comment in front of a blank that is no line break. -/
theorem tokenize_shapes_lineComment :
    let text := "1 --a\u0085\r\n".toList
    let t : Token := ⟨⟨.comment, "--a".toList⟩, ⟨⟨0, 2⟩, ⟨0, 5⟩⟩, ⟨2, 5⟩⟩
    let after := (tokenize text).drop 3
    tokenize text = (tokenize text).take 2 ++ t :: after ∧
      Token.join after = "\u0085\r\n".toList ∧ t.toLexeme.Shape (Token.join after) := by
  intro text t after
  have h : tokenize text = (tokenize text).take 2 ++ t :: after := by decide +kernel
  exact ⟨h, by decide +kernel, (tokenize_shapes text _ after t h).1⟩

end QueryLint
