import QueryLint.Proofs.Rule.LineEnding
import QueryLint.Proofs.Rule.Piecewise
import QueryLint.Proofs.Token.LineComment

/-!
# What a comment says makes no difference

Most rules ask neither what a comment says nor where comments and line breaks
stand, so they see the same in tokens that are the same without that
(`Token.masked`). The rule on the beginning of a document asks where a comment
starts, and the rule on its end asks where a comment stops that no other content
follows. Around a line comment that something follows all this stays when the
comment changes (`comment_irrelevant`).
-/
namespace QueryLint

/-- A token without its bytes and, of a comment or line break, without its place. A
line comment says nothing. -/
def Token.masked (t : Token) : Token :=
  { t with
    chars := if t.isLineComment then ['#'] else t.chars
    range := if t.kind = .comment ∨ t.kind = .newline then {} else t.range
    span := ⟨0, 0⟩ }

section Masked

variable {t : Token}

theorem kind_of_isLineComment (h : t.isLineComment = true) : t.kind = .comment := by
  rw [Lexeme.isLineComment, Bool.and_eq_true, Lexeme.isComment, beq_iff_eq] at h
  exact h.1

theorem kind_of_isSignificant (h : t.isSignificant = true) :
    t.kind ≠ .comment ∧ t.kind ≠ .newline := by
  constructor <;> intro hkind <;>
    simp [Lexeme.isSignificant, Lexeme.isTrivia, Lexeme.isComment, hkind] at h

theorem range_masked (hcomment : t.kind ≠ .comment) (hnewline : t.kind ≠ .newline) :
    t.masked.range = t.range := by
  simp [Token.masked, hcomment, hnewline]

theorem isLineComment_masked (t : Token) : t.masked.isLineComment = t.isLineComment := by
  by_cases h : t.isLineComment = true
  · have hlexeme : t.masked.toLexeme = ⟨.comment, ['#']⟩ := by
      simp [Token.masked, h, kind_of_isLineComment h]
    rw [h, hlexeme]
    rfl
  · have hlexeme : t.masked.toLexeme = t.toLexeme := by
      simp [Token.masked, h]
    rw [hlexeme]

theorem moves_masked : Token.Moves id Token.masked where
  kind _ := rfl
  toLexeme t ht := by
    have hline : ¬t.isLineComment = true :=
      fun hline => (kind_of_isSignificant ht).1 (kind_of_isLineComment hline)
    simp [Token.masked, hline]
  range t ht := range_masked (kind_of_isSignificant ht).1 (kind_of_isSignificant ht).2
  cover _ _ := rfl

end Masked

section Rules

variable (d : Document)

theorem trailingWhitespace_masked :
    Layout.trailingWhitespace (d.relabel Token.masked) = Layout.trailingWhitespace d := by
  apply Finding.along_relabel
  intro t ts
  have hhead : (ts.map Token.masked).head?.all (·.kind == .newline) =
      ts.head?.all (·.kind == .newline) := by
    cases ts <;> rfl
  have hkind : t.masked.kind = t.kind := rfl
  rw [hhead, hkind]
  split_ifs with h
  · rw [range_masked (by rw [h.1]; decide) (by rw [h.1]; decide)]
  · rfl

theorem range_masked_of_isPunctuation {t : Token} {mark : String}
    (h : t.isPunctuation mark = true) : t.masked.range = t.range :=
  moves_masked.range t (Lexeme.isSignificant_of_isPunctuation h)

theorem lineStartCommas_masked (fresh : Bool) (ts : List Token) :
    Layout.lineStartCommas fresh (ts.map Token.masked) = Layout.lineStartCommas fresh ts := by
  induction ts generalizing fresh with
  | nil => rfl
  | cons t ts ih =>
    have hkind : t.masked.kind = t.kind := rfl
    rw [List.map_cons, Layout.lineStartCommas, Layout.lineStartCommas, ih, hkind,
      moves_masked.isPunctuation]
    by_cases h : t.isPunctuation "," = true
    · rw [range_masked_of_isPunctuation h]
    · simp [h]

theorem atLineEnd_masked (ts : List Token) :
    Layout.atLineEnd (ts.map Token.masked) = Layout.atLineEnd ts := by
  have hkept : (fun t : Token => t.kind != .whitespace && !t.isLineComment) ∘ Token.masked =
      fun t => t.kind != .whitespace && !t.isLineComment := by
    funext t
    rw [Function.comp_apply, isLineComment_masked]
    rfl
  unfold Layout.atLineEnd
  rw [List.find?_map, hkept, Option.all_map]
  rfl

theorem commas_masked (position : CommaPosition) :
    Layout.commas position (d.relabel Token.masked) = Layout.commas position d := by
  cases position with
  | trailing => exact lineStartCommas_masked true d.tokens
  | leading =>
    apply Finding.along_relabel
    intro t ts
    rw [atLineEnd_masked, moves_masked.isPunctuation]
    split_ifs with h
    · rw [range_masked_of_isPunctuation h.1]
    · rfl

theorem map_mapRange_id (xs : List Finding) : xs.map (·.mapRange id) = xs := by
  simp only [Finding.mapRange_id, List.map_id']

theorem findings_masked {check : Check} (hcheck : check ≠ .leadingWhitespace)
    (hcheck' : check ≠ .finalNewline) :
    check.findings (d.relabel Token.masked) = check.findings d := by
  cases check with
  | leadingWhitespace => exact absurd rfl hcheck
  | trailingWhitespace => exact trailingWhitespace_masked d
  | finalNewline => exact absurd rfl hcheck'
  | leadingComma position => exact commas_masked d position
  | selectTrailingComma =>
    have h := Select.commaAt_looks.along_map trivial moves_masked d.tokens
    rwa [map_mapRange_id] at h
  | isNull =>
    have h := fun ts => Null.findingsFrom_map moves_masked false ts
    simp only [map_mapRange_id] at h
    simp only [Check.findings, Null.comparisons, Document.relabel, List.flatMap_map,
      Statement.relabel, h]
  | selectModifiers =>
    have h := Select.modifierAt_looks.along_map Select.modifierAt_looks.admits_id moves_masked
      d.tokens
    rwa [map_mapRange_id] at h
  | distinctParentheses =>
    have h := Select.parenthesesAt_looks.along_map trivial moves_masked d.tokens
    rwa [map_mapRange_id] at h

theorem kind_relabel_masked (s : Statement) : (s.relabel Token.masked).kind = s.kind := by
  have hfind : (s.tokens.map Token.masked).find? (·.isSignificant) =
      (s.tokens.find? (·.isSignificant)).map Token.masked := by
    rw [List.find?_map]
    rfl
  unfold Statement.kind Token.firstSignificant? Statement.relabel
  rw [hfind]
  cases h : s.tokens.find? (·.isSignificant) with
  | none => rfl
  | some t =>
    have hsignificant : t.isSignificant = true :=
      List.find?_some (p := fun t : Token => t.isSignificant) h
    simp only [Option.map_some, moves_masked.toLexeme t hsignificant]

end Rules

section Ends

variable {d d' : Document}

/-- The rule on the beginning of a document asks for the first token and for where
content starts. -/
theorem leadingWhitespace_congr {before more more' : List Token} {t t' : Token}
    (h : d.tokens = before ++ t :: more) (h' : d'.tokens = before ++ t' :: more')
    (ht : t.isTrivia = false) (ht' : t'.isTrivia = false)
    (hstart : t.range.start = t'.range.start) :
    Layout.leadingWhitespace d = Layout.leadingWhitespace d' := by
  have hfind : ∀ {t : Token} (more : List Token), t.isTrivia = false →
      ((before ++ t :: more).find? fun t => !t.isTrivia).map (·.range.start) =
        some (((before.find? fun t => !t.isTrivia).map (·.range.start)).getD t.range.start) := by
    intro t more ht
    rw [List.find?_append, List.find?_cons_of_pos (by simp [ht])]
    cases before.find? fun t => !t.isTrivia <;> rfl
  unfold Layout.leadingWhitespace
  rw [h, h', hfind more ht, hfind more' ht', hstart]
  cases before with
  | nil => simp [ht, ht']
  | cons u before => rfl

/-- The rule on the end of a document asks for the last token that is no trivia and for
what stands behind it. -/
theorem finalNewline_append {front back : List Token} (h : d.tokens = front ++ back)
    (hback : hasContent back = true) :
    Layout.finalNewline d = Layout.finalNewline { d with tokens := back } := by
  have hnone : back.reverse.dropWhile (·.isTrivia) ≠ [] := by
    rw [Ne, List.dropWhile_eq_nil_iff]
    intro hall
    obtain ⟨t, ht, hcontent⟩ := List.any_eq_true.mp hback
    have htrivia := hall t (List.mem_reverse.mpr ht)
    simp [htrivia] at hcontent
  have hlength : (back.reverse.takeWhile (·.isTrivia)).length ≠ back.reverse.length := by
    intro hlength
    apply hnone
    rw [List.dropWhile_eq_nil_iff]
    exact List.takeWhile_eq_self_iff.mp ((List.takeWhile_prefix _).eq_of_length hlength)
  obtain ⟨last, rest, hlast⟩ := List.exists_cons_of_ne_nil hnone
  unfold Layout.finalNewline
  simp only [h, List.reverse_append, List.dropWhile_append, List.takeWhile_append, if_neg hlength,
    hlast]
  rfl

theorem finalNewline_congr (htokens : d.tokens.map Token.outline = d'.tokens.map Token.outline)
    (hstop : d.stop = d'.stop) : Layout.finalNewline d = Layout.finalNewline d' := by
  rw [← finalNewline_relabel relabels_outline d, ← finalNewline_relabel relabels_outline d']
  unfold Layout.finalNewline Document.relabel
  rw [htokens, hstop]

end Ends

theorem map_place_congr {α : Type} {g : Token → α}
    (hg : ∀ (l : Lexeme) p offset offset', g (l.placed p offset) = g (l.placed p offset'))
    (p : Position) (offset offset' : Nat) (ls : List Lexeme) :
    (place p offset ls).map g = (place p offset' ls).map g := by
  induction ls generalizing p offset offset' with
  | nil => rfl
  | cons l ls ih =>
    rw [place_cons, place_cons, List.map_cons, List.map_cons, hg l p offset offset', ih]

namespace CommentFrame.Around

variable {f : CommentFrame} {text text' : List Char}

theorem map_masked (h : f.Around text) :
    (tokenize text).map Token.masked =
      f.before.map Token.masked ++ ⟨⟨.comment, ['#']⟩, {}, ⟨0, 0⟩⟩ :: ⟨f.lineBreak, {}, ⟨0, 0⟩⟩ ::
        (place f.next 0 f.rest).map Token.masked := by
  obtain ⟨comment, lineBreak, offset, htokens, hcomment, -, hlineBreak⟩ := h.tokens
  have hcomment' : comment.masked = ⟨⟨.comment, ['#']⟩, {}, ⟨0, 0⟩⟩ := by
    simp [Token.masked, hcomment, kind_of_isLineComment hcomment]
  have hnewline : lineBreak.kind = .newline := by
    rw [hlineBreak, f.kind_lineBreak]
  have hlineBreak' : lineBreak.masked = ⟨f.lineBreak, {}, ⟨0, 0⟩⟩ := by
    have hline : ¬lineBreak.isLineComment = true := by
      intro hline
      exact absurd ((kind_of_isLineComment hline).symm.trans hnewline) (by decide)
    rw [← hlineBreak, Token.masked, if_neg hline, if_pos (Or.inr hnewline)]
  rw [htokens, List.map_append, List.map_cons, List.map_cons, hcomment', hlineBreak',
    map_place_congr (fun _ _ _ _ => rfl) f.next offset 0]

theorem relabel_eq (h : f.Around text) (h' : f.Around text') :
    (Document.parse text).relabel Token.masked = (Document.parse text').relabel Token.masked := by
  apply relabel_parse_eq_of_pieces moves_masked.pieces_map fun _ => rfl
  · rw [h.map_masked, h'.map_masked]
  · rw [h.stop, h'.stop]

theorem leadingWhitespace_eq (h : f.Around text) (h' : f.Around text') :
    Layout.leadingWhitespace (Document.parse text) =
      Layout.leadingWhitespace (Document.parse text') := by
  have hcontent : ∀ {t : Token}, t.isLineComment = true → t.isTrivia = false := by
    intro t ht
    simp [Lexeme.isTrivia, kind_of_isLineComment ht]
  obtain ⟨comment, _, _, htokens, hcomment, hstart, -⟩ := h.tokens
  obtain ⟨comment', _, _, htokens', hcomment', hstart', -⟩ := h'.tokens
  exact leadingWhitespace_congr htokens htokens' (hcontent hcomment) (hcontent hcomment')
    (hstart.trans hstart'.symm)

theorem finalNewline_eq (h : f.Around text) (h' : f.Around text')
    (hrest : ∃ l ∈ f.rest, l.isTrivia = false) :
    Layout.finalNewline (Document.parse text) = Layout.finalNewline (Document.parse text') := by
  have hcontent : ∀ offset, hasContent (place f.next offset f.rest) = true := by
    intro offset
    obtain ⟨l, hl, htrivia⟩ := hrest
    rw [hasContent_eq_filled, map_toLexeme_place]
    exact List.any_eq_true.mpr ⟨l, hl, by simp [htrivia]⟩
  obtain ⟨comment, lineBreak, offset, htokens, -⟩ := h.tokens
  obtain ⟨comment', lineBreak', offset', htokens', -⟩ := h'.tokens
  have hback : (Document.parse text).tokens =
      (f.before ++ [comment, lineBreak]) ++ place f.next offset f.rest := by
    rw [List.append_assoc]
    exact htokens
  have hback' : (Document.parse text').tokens =
      (f.before ++ [comment', lineBreak']) ++ place f.next offset' f.rest := by
    rw [List.append_assoc]
    exact htokens'
  rw [finalNewline_append hback (hcontent offset), finalNewline_append hback' (hcontent offset')]
  apply finalNewline_congr
  · exact map_place_congr (fun _ _ _ _ => rfl) f.next offset offset' f.rest
  · exact h.stop.trans h'.stop.symm

theorem findings_eq (h : f.Around text) (h' : f.Around text')
    (hrest : ∃ l ∈ f.rest, l.isTrivia = false) (check : Check) :
    check.findings (Document.parse text) = check.findings (Document.parse text') := by
  by_cases hleading : check = .leadingWhitespace
  · rw [hleading]
    exact h.leadingWhitespace_eq h'
  by_cases hfinal : check = .finalNewline
  · rw [hfinal]
    exact h.finalNewline_eq h' hrest
  rw [← findings_masked _ hleading hfinal, h.relabel_eq h', findings_masked _ hleading hfinal]

theorem map_kind_eq (h : f.Around text) (h' : f.Around text') :
    (Document.parse text).statements.map (·.kind) =
      (Document.parse text').statements.map (·.kind) := by
  have hrelabel : ∀ d : Document, d.statements.map (·.kind) =
      (d.relabel Token.masked).statements.map (·.kind) := by
    intro d
    simp only [Document.relabel, List.map_map, Function.comp_def, kind_relabel_masked]
  rw [hrelabel, h.relabel_eq h', ← hrelabel]

theorem exists_rest_of_mem (h : f.Around text) {u : Token}
    (hu : u ∈ (tokenize text).drop (f.before.length + 1)) (hcontent : u.isTrivia = false) :
    ∃ l ∈ f.rest, l.isTrivia = false := by
  obtain ⟨comment, lineBreak, offset, htokens, -, -, hlineBreak⟩ := h.tokens
  have hdrop : (tokenize text).drop (f.before.length + 1) =
      lineBreak :: place f.next offset f.rest := by
    rw [htokens, ← List.drop_drop, List.drop_left]
    rfl
  rw [hdrop] at hu
  rcases List.mem_cons.mp hu with rfl | hu
  · rw [hlineBreak, Lexeme.isTrivia, f.kind_lineBreak] at hcontent
    simp at hcontent
  · refine ⟨u.toLexeme, ?_, hcontent⟩
    rw [← map_toLexeme_place f.next offset f.rest]
    exact List.mem_map_of_mem hu

end CommentFrame.Around

/-- Documents in which every check finds the same are linted alike. -/
theorem lintDocument_congr {d d' : Document}
    (hfindings : ∀ check : Check, check.findings d = check.findings d')
    (hblank : d.isBlank = d'.isBlank) (s : Settings) : s.lintDocument d = s.lintDocument d' := by
  unfold Settings.lintDocument Linter.run Linter.collect Rule.diagnostics
  simp only [hfindings, hblank]

/-- What a line comment says makes no difference. A comment that opens with the same
mark, on one line and without blanks at its end, can stand in place of one that a line
break and later something else than trivia follow: every diagnostic stays, and so do
the kinds of the statements. -/
theorem comment_irrelevant (before comment comment' behind mark : List Char) (i : Nat) (t : Token)
    (ht : (tokenize (before ++ comment ++ behind))[i]? = some t)
    (hstart : t.span.start = Text.byteLength before) (hchars : t.chars = comment)
    (hkind : t.isLineComment = true) (hmark : mark = ['-', '-'] ∨ mark = ['#'])
    (hopens : mark <+: comment) (hbreak : ∃ c ∈ behind.head?, Text.isLineBreak c = true)
    (hlater : ∃ u ∈ (tokenize (before ++ comment ++ behind)).drop (i + 1), u.isTrivia = false)
    (hopens' : mark <+: comment') (hline' : ∀ c ∈ comment', Text.isLineBreak c = false)
    (hend' : ∀ c ∈ comment'.getLast?, Text.isBlank c = false) :
    (∀ s : Settings,
      lint s (before ++ comment' ++ behind) = lint s (before ++ comment ++ behind)) ∧
    (Document.parse (before ++ comment' ++ behind)).statements.map (·.kind) =
      (Document.parse (before ++ comment ++ behind)).statements.map (·.kind) := by
  obtain ⟨f, rfl, h, h'⟩ := exists_frame_of_comment ht hstart hchars hkind hmark hopens hbreak
    hopens' hline' hend'
  obtain ⟨u, hu, hcontent⟩ := hlater
  have hrest := h.exists_rest_of_mem hu hcontent
  have hkinds := h'.map_kind_eq h
  refine ⟨?_, hkinds⟩
  intro s
  apply lintDocument_congr (h'.findings_eq h hrest)
  have hempty := congrArg List.isEmpty hkinds
  rwa [List.isEmpty_map, List.isEmpty_map] at hempty

/-- Behind what could be an exponent, a comment that would end a statement and open a
string and a bracket if it were read. -/
theorem comment_irrelevant_exponent :
    let s : Settings := {}
    let before := "SELECT DISTINCT (a) + 1e".toList
    let comment := "-- one".toList
    let comment' := "--5; '(".toList
    let behind := "\r\nFROM t\n".toList
    let t : Token := ⟨⟨.comment, comment⟩, ⟨⟨0, 24⟩, ⟨0, 30⟩⟩, ⟨24, 30⟩⟩
    (tokenize (before ++ comment ++ behind))[12]? = some t ∧
      (lint s (before ++ comment ++ behind)).length = 1 ∧
      lint s (before ++ comment' ++ behind) = lint s (before ++ comment ++ behind) ∧
      (Document.parse (before ++ comment' ++ behind)).statements.map (·.kind) =
        (Document.parse (before ++ comment ++ behind)).statements.map (·.kind) := by
  intro s before comment comment' behind t
  have ht : (tokenize (before ++ comment ++ behind))[12]? = some t := by decide +kernel
  have hlength : (lint s (before ++ comment ++ behind)).length = 1 := by
    unfold lint Settings.lintDocument Linter.run
    rw [List.length_take, List.length_mergeSort]
    decide +kernel
  have hlater : ∃ u ∈ (tokenize (before ++ comment ++ behind)).drop 13, u.isTrivia = false := by
    decide +kernel
  have hall : (comment'.all fun c => !Text.isLineBreak c) = true := by decide +kernel
  have hline : ∀ c ∈ comment', Text.isLineBreak c = false := by
    intro c hc
    simpa using List.all_eq_true.mp hall c hc
  have hlast : comment'.getLast? = some '(' := by decide +kernel
  have hend : ∀ c ∈ comment'.getLast?, Text.isBlank c = false := by
    intro c hc
    obtain rfl := Option.mem_unique hc hlast
    decide
  have hsame := comment_irrelevant before comment comment' behind ['-', '-'] 12 t ht rfl rfl rfl
    (.inl rfl) ⟨_, rfl⟩ ⟨'\r', rfl, rfl⟩ hlater ⟨_, rfl⟩ hline hend
  exact ⟨ht, hlength, hsame.1 s, hsame.2⟩

end QueryLint
