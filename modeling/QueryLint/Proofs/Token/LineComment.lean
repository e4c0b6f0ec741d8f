import QueryLint.Proofs.Token.Boundary
import QueryLint.Proofs.Token.LineEnding
import QueryLint.Proofs.Token.Relex

/-!
# Line comments

A comment up to the end of its line is one lexeme whatever it says, as long as it
ends in no blank (`lexemes_lineComment`); what its marks open is always one, and leaves
nothing but blanks of its line. The marks settle what stands before them, so another
comment in its place changes no other lexeme; and what stands on later lines keeps its
place (`exists_frame_of_comment`).
-/
namespace QueryLint

namespace Text

theorem line_append {cs : List Char} (h : ∀ c ∈ cs, isLineBreak c = false) (ds : List Char) :
    line (cs ++ ds) = cs ++ line ds :=
  List.takeWhile_append_of_pos (by simpa using h)

theorem trimBlankEnd_eq_self {cs : List Char} (h : ∀ c ∈ cs.getLast?, isBlank c = false) :
    trimBlankEnd cs = cs := by
  rcases List.eq_nil_or_concat cs with rfl | ⟨front, c, rfl⟩
  · rfl
  · have hc : isBlank c = false := h c (by simp)
    simp [trimBlankEnd, hc]

end Text

theorem Scan.take_lineComment (cs : List Char) :
    cs.take (lineComment cs).extra = Text.trimBlankEnd (Text.line cs) := by
  have hlead : Text.trimBlankEnd (Text.line cs) <+: cs :=
    (Text.isPrefix_trimBlankEnd _).trans (List.takeWhile_prefix _)
  exact (List.prefix_iff_eq_take.mp hlead).symm

/-- The marks that open a comment up to the end of its line. -/
def IsCommentMark (mark : List Char) : Prop :=
  mark = ['-', '-'] ∨ mark = ['#']

section Reading

variable {mark comment behind : List Char}

theorem IsCommentMark.settling (h : IsCommentMark mark) : Settling mark := by
  rcases h with rfl | rfl
  · exact settling_dashes
  · exact settling_of_settles (by decide)

theorem IsCommentMark.isLineComment (h : IsCommentMark mark) (hcomment : mark <+: comment) :
    Lexeme.isLineComment ⟨.comment, comment⟩ = true := by
  obtain ⟨more, rfl⟩ := hcomment
  rcases h with rfl | rfl
  · rfl
  · rfl

theorem IsCommentMark.opening_eq (h : IsCommentMark mark) {c : Char} {cs : List Char}
    (hmark : mark <+: c :: cs) : opening c cs.head? = .lineComment := by
  obtain ⟨more, hmore⟩ := hmark
  rcases h with rfl | rfl
  · obtain ⟨rfl, rfl⟩ := List.cons.inj hmore
    rfl
  · obtain ⟨rfl, -⟩ := List.cons.inj hmore
    rw [opening_none (by simp) (by simp) (by simp)]
    decide

theorem Lexeme.exists_mark_of_isLineComment {l : Lexeme} (h : l.isLineComment = true) :
    ∃ mark, IsCommentMark mark ∧ mark <+: l.chars := by
  simp only [isLineComment, Bool.and_eq_true, Bool.or_eq_true, List.isPrefixOf_iff_prefix] at h
  rcases h.2 with hdash | hhash
  · exact ⟨_, Or.inl rfl, hdash⟩
  · exact ⟨_, Or.inr rfl, hhash⟩

theorem lineComment_append (hline : ∀ c ∈ comment, Text.isLineBreak c = false)
    (hend : ∀ c ∈ comment.getLast?, Text.isBlank c = false)
    (hbehind : ∀ c ∈ behind.head?, Text.isLineBreak c = true) :
    Scan.lineComment (comment ++ behind) = ⟨.comment, comment.length⟩ := by
  have hon : ∀ c ∈ comment, (!Text.isLineBreak c) = true := by
    intro c hc
    rw [hline c hc]
    rfl
  have hoff : behind.takeWhile (fun c => !Text.isLineBreak c) = [] := by
    cases behind with
    | nil => rfl
    | cons c cs =>
      rw [List.takeWhile_cons_of_neg]
      simp [hbehind c rfl]
  unfold Scan.lineComment
  rw [List.takeWhile_append_of_pos hon, hoff, List.append_nil, Text.trimBlankEnd_eq_self hend]

/-- A comment that no blank and no line break ends early is read up to the line break
behind it. -/
theorem lexemes_lineComment (hmark : IsCommentMark mark) (hcomment : mark <+: comment)
    (hline : ∀ c ∈ comment, Text.isLineBreak c = false)
    (hend : ∀ c ∈ comment.getLast?, Text.isBlank c = false)
    (hbehind : ∀ c ∈ behind.head?, Text.isLineBreak c = true) :
    lexemes (comment ++ behind) = ⟨.comment, comment⟩ :: lexemes behind := by
  cases comment with
  | nil =>
    obtain rfl := List.prefix_nil.mp hcomment
    simp [IsCommentMark] at hmark
  | cons c cs =>
    have hopening : opening c (cs ++ behind).head? = .lineComment :=
      hmark.opening_eq (hcomment.trans (List.prefix_append (c :: cs) behind))
    have hlast : ∀ d ∈ cs.getLast?, Text.isBlank d = false := by
      intro d hd
      apply hend d
      rw [List.getLast?_cons, hd]
      rfl
    have hscan : scan c (cs ++ behind) = ⟨.comment, cs.length⟩ := by
      rw [scan_eq_opening, hopening]
      exact lineComment_append (fun d hd => hline d (List.mem_cons_of_mem c hd)) hlast hbehind
    rw [List.cons_append, lexemes_cons, hscan, List.take_left, List.drop_left]

theorem Lexeme.ReadBefore.exists_lineComment {l : Lexeme} {after : List Char}
    (h : l.ReadBefore after) (hmark : IsCommentMark mark) (hl : mark <+: l.chars ++ after) :
    ∃ c front, l.chars = c :: front ∧
      Scan.lineComment (front ++ after) = ⟨l.kind, front.length⟩ := by
  obtain ⟨c, front, hchars, hscan⟩ := h
  rw [hchars, List.cons_append] at hl
  rw [scan_eq_opening, hmark.opening_eq hl] at hscan
  exact ⟨c, front, hchars, hscan⟩

theorem Lexeme.ReadBefore.onLine {l : Lexeme} {after : List Char} (h : l.ReadBefore after)
    (hmark : IsCommentMark mark) (hl : mark <+: l.chars) :
    ∀ c ∈ l.chars, Text.isLineBreak c = false := by
  obtain ⟨c, front, hchars, hscan⟩ :=
    h.exists_lineComment hmark (hl.trans (List.prefix_append l.chars after))
  have honLine := Scan.lineComment_onLine (front ++ after)
  rw [hscan] at honLine
  rw [hchars] at hl ⊢
  have hc : Text.isLineBreak c = false := by
    obtain ⟨more, hmore⟩ := hl
    rcases hmark with rfl | rfl
    · obtain ⟨rfl, -⟩ := List.cons.inj hmore
      rfl
    · obtain ⟨rfl, -⟩ := List.cons.inj hmore
      rfl
  intro d hd
  rcases List.mem_cons.mp hd with rfl | hd
  · exact hc
  · apply honLine d
    rw [List.take_left]
    exact hd

theorem Lexeme.ReadBefore.blank_behind_comment {l : Lexeme} {after : List Char}
    (h : l.ReadBefore after) (hmark : IsCommentMark mark) (hlead : mark <+: l.chars) :
    ∀ c ∈ Text.line after, Text.isBlank c = true := by
  have honLine := h.onLine hmark hlead
  obtain ⟨c, front, hchars, hscan⟩ :=
    h.exists_lineComment hmark (hlead.trans (List.prefix_append l.chars after))
  rw [hchars] at honLine
  have htaken := Scan.take_lineComment (front ++ after)
  rw [hscan, List.take_left,
    Text.line_append fun x hx => honLine x (List.mem_cons_of_mem c hx)] at htaken
  have hnil : Text.trimBlankEnd (Text.line after) = [] := by
    by_contra hne
    rw [Text.trimBlankEnd_append, if_neg hne] at htaken
    exact hne (List.self_eq_append_right.mp htaken)
  intro x hx
  rw [Text.trimBlankEnd, List.reverse_eq_nil_iff, List.dropWhile_eq_nil_iff] at hnil
  exact hnil x (List.mem_reverse.mpr hx)

theorem Lexeme.ReadBefore.isLineComment_of_mark {l : Lexeme} {after : List Char}
    (h : l.ReadBefore after) (hmark : IsCommentMark mark) (hlead : mark <+: l.chars ++ after) :
    l.isLineComment = true := by
  obtain ⟨c, front, hchars, hscan⟩ := h.exists_lineComment hmark hlead
  rw [hchars, List.cons_append] at hlead
  have hkind : l.kind = .comment := (congrArg Scan.kind hscan).symm
  have hl : mark <+: l.chars := by
    rw [hchars]
    rcases hmark with rfl | rfl
    · obtain ⟨rfl, hdash⟩ := List.cons_prefix_cons.mp hlead
      cases front with
      | nil =>
        obtain ⟨more, rfl⟩ := hdash
        have hpos := Scan.lineComment_pos (show Text.isBlank '-' = false by decide) more
        exact absurd (congrArg Scan.extra hscan) (Nat.ne_of_gt hpos)
      | cons d front =>
        obtain ⟨rfl, -⟩ := List.cons_prefix_cons.mp hdash
        exact List.prefix_append ['-', '-'] front
    · obtain ⟨rfl, -⟩ := List.cons_prefix_cons.mp hlead
      exact List.prefix_append ['#'] front
  have hcomment := hmark.isLineComment hl
  rwa [← hkind] at hcomment

theorem exists_lexemes_of_lineBreak {c : Char} (hc : c ∈ behind.head?)
    (hbreak : Text.isLineBreak c = true) :
    ∃ l after, lexemes behind = l :: after ∧ l.kind = .newline ∧
      ∀ p : Position, p.advance l.chars = ⟨p.line + 1, 0⟩ := by
  obtain ⟨cs, rfl⟩ := List.head?_eq_some_iff.mp hc
  simp only [Text.isLineBreak, Bool.or_eq_true, beq_iff_eq] at hbreak
  rcases hbreak with rfl | rfl
  · exact ⟨_, _, lexemes_cons _ _, rfl, fun _ => rfl⟩
  · refine ⟨_, _, lexemes_cons _ _, rfl, ?_⟩
    intro p
    by_cases hfeed : cs.head? = some '\n'
    · obtain ⟨cs, rfl⟩ := List.head?_eq_some_iff.mp hfeed
      rfl
    · have hscan : scan '\r' cs = ⟨.newline, 0⟩ := by
        simp [scan, hfeed]
      rw [hscan]
      rfl

/-- In place of a line comment another one can stand: the lexemes before it and from
the line break behind it on stay. -/
theorem lexemes_of_comment {before comment comment' behind mark : List Char}
    {ls ms : List Lexeme} {l : Lexeme} (hmark : IsCommentMark mark)
    (h : lexemes (before ++ comment ++ behind) = ls ++ l :: ms) (hbefore : Lexeme.join ls = before)
    (hcomment : l.chars = comment) (hbehind : Lexeme.join ms = behind)
    (hopens : mark <+: comment) (hopens' : mark <+: comment')
    (hbreak : ∀ c ∈ behind.head?, Text.isLineBreak c = true)
    (hline' : ∀ c ∈ comment', Text.isLineBreak c = false)
    (hend' : ∀ c ∈ comment'.getLast?, Text.isBlank c = false) :
    lexemes (before ++ comment' ++ behind) = ls ++ ⟨.comment, comment'⟩ :: ms := by
  have hright : lexemes behind = ms := by
    rw [← hbehind]
    exact lexemes_join_right (h.trans (List.append_cons ls l ms))
  obtain ⟨more, rfl⟩ := hopens
  have hjoin : Lexeme.join (l :: ms) = mark ++ (more ++ behind) := by
    rw [Lexeme.join_cons, hcomment, hbehind, List.append_assoc]
  have hread := lexemes_lineComment hmark hopens' hline' hend' hbreak
  obtain ⟨more', rfl⟩ := hopens'
  have hresume := lexemes_join_resume hmark.settling h hjoin (more' ++ behind)
  rw [hbefore, ← List.append_assoc mark, hread, hright] at hresume
  rw [List.append_assoc, hresume]

end Reading

/-- What stands around a line comment: the tokens before it, where it starts, the line
break that ends it, and the lexemes of the later lines with the place that these start
at. -/
structure CommentFrame where
  before : List Token
  start : Position
  lineBreak : Lexeme
  kind_lineBreak : lineBreak.kind = .newline
  next : Position
  rest : List Lexeme

namespace CommentFrame

/-- Whether a text has a line comment with this around it. -/
structure Around (f : CommentFrame) (text : List Char) : Prop where
  tokens : ∃ comment lineBreak offset,
    tokenize text = f.before ++ comment :: lineBreak :: place f.next offset f.rest ∧
      comment.isLineComment = true ∧ comment.range.start = f.start ∧
      lineBreak.toLexeme = f.lineBreak
  stop : (Document.parse text).stop = f.next.advanceAll f.rest

/-- The frame of lexemes of which the first ones stand before a comment. -/
def ofLexemes (ls : List Lexeme) (lineBreak : Lexeme) (hkind : lineBreak.kind = .newline)
    (rest : List Lexeme) : CommentFrame where
  before := place Position.origin 0 ls
  start := Position.origin.advanceAll ls
  lineBreak := lineBreak
  kind_lineBreak := hkind
  next := ⟨(Position.origin.advanceAll ls).line + 1, 0⟩
  rest := rest

theorem around_ofLexemes {text : List Char} {ls rest : List Lexeme} {l lineBreak : Lexeme}
    (h : lexemes text = ls ++ l :: lineBreak :: rest) (hl : l.isLineComment = true)
    (hline : ∀ c ∈ l.chars, Text.isLineBreak c = false) (hkind : lineBreak.kind = .newline)
    (hnext : ∀ p : Position, p.advance lineBreak.chars = ⟨p.line + 1, 0⟩) :
    (ofLexemes ls lineBreak hkind rest).Around text := by
  have hstep : ((Position.origin.advanceAll ls).advance l.chars).advance lineBreak.chars =
      ⟨(Position.origin.advanceAll ls).line + 1, 0⟩ := by
    rw [hnext, Position.line_advance_of_onLine hline]
  constructor
  · have htokens := place_append Position.origin 0 ls (l :: lineBreak :: rest)
    rw [place_cons, place_cons, hstep, ← h] at htokens
    exact ⟨_, _, _, htokens, hl, rfl, rfl⟩
  · rw [parse_stop_eq_advanceAll, h]
    unfold Position.advanceAll
    rw [List.foldl_append, List.foldl_cons, List.foldl_cons]
    exact congrArg (rest.foldl _) hstep

end CommentFrame

/-- Line comments with the same mark can take each other's place: the same stands
around them. -/
theorem exists_frame_of_comment {before comment comment' behind mark : List Char} {i : Nat}
    {t : Token} (ht : (tokenize (before ++ comment ++ behind))[i]? = some t)
    (hstart : t.span.start = Text.byteLength before) (hcomment : t.chars = comment)
    (hkind : t.isLineComment = true) (hmark : IsCommentMark mark) (hopens : mark <+: comment)
    (hbehind : ∃ c ∈ behind.head?, Text.isLineBreak c = true) (hopens' : mark <+: comment')
    (hline' : ∀ c ∈ comment', Text.isLineBreak c = false)
    (hend' : ∀ c ∈ comment'.getLast?, Text.isBlank c = false) :
    ∃ f : CommentFrame, f.before.length = i ∧ f.Around (before ++ comment ++ behind) ∧
      f.Around (before ++ comment' ++ behind) := by
  rw [List.append_assoc] at ht
  obtain ⟨ls, ms, hlexemes, hlength, hjoin, hjoin', -⟩ := exists_lexemes_of_token ht hstart
  rw [hcomment] at hjoin'
  have hms : Lexeme.join ms = behind := List.append_cancel_left hjoin'
  obtain ⟨c, hc, hbreak⟩ := hbehind
  have hhead : ∀ d ∈ behind.head?, Text.isLineBreak d = true := by
    intro d hd
    obtain rfl := Option.mem_unique hd hc
    exact hbreak
  rw [← List.append_assoc] at hlexemes
  have hlexemes' :=
    lexemes_of_comment hmark hlexemes hjoin hcomment hms hopens hopens' hhead hline' hend'
  have hright : lexemes behind = ms := by
    rw [← hms]
    exact lexemes_join_right (hlexemes.trans (List.append_cons ls _ ms))
  obtain ⟨lineBreak, rest, hsplit, hnewline, hnext⟩ := exists_lexemes_of_lineBreak hc hbreak
  obtain rfl : ms = lineBreak :: rest := hright.symm.trans hsplit
  have hread := (readBefore_of_lexemes (lexemes_join_right hlexemes)).1
  have hline := hread.onLine hmark (hcomment ▸ hopens)
  refine ⟨.ofLexemes ls lineBreak hnewline rest, ?_, ?_, ?_⟩
  · exact (length_place _ _ ls).trans hlength
  · exact CommentFrame.around_ofLexemes hlexemes hkind hline hnewline hnext
  · exact CommentFrame.around_ofLexemes hlexemes' (hmark.isLineComment hopens') hline' hnewline
      hnext

end QueryLint
