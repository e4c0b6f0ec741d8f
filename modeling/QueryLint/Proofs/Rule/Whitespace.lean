import QueryLint.Proofs.Edit.OneKind
import QueryLint.Proofs.Token.Trivia

/-!
# Blanks at the start of a document and at the end of a line

The fixes of the rules on blanks take trivia away: all that a document starts with,
or each run of blanks before a line break or the end (`Lexeme.trimLines`). What
stands before such a run is read before the line break as it was before the blanks,
since only a literal or comment that is left open would take the line break, and
that reaches to the end of the text. So the contents stay, and the rule finds nothing
more. The one lexeme that may change is a carriage return, which forms a single line
break with a line feed that comes to stand behind it.
-/
namespace QueryLint

namespace Lexeme

/-- Whether a lexeme is a run of blanks before a line break or the end of a text. -/
def isTrailing (l : Lexeme) (rest : List Lexeme) : Bool :=
  l.kind == .whitespace && rest.head?.all (·.kind == .newline)

/-- The lexemes of a text without the blanks at the ends of its lines. -/
def trimLines : List Lexeme → List Lexeme
  | [] => []
  | l :: ls => if l.isTrailing ls then trimLines ls else l :: trimLines ls

/-- Whether no line ends in blanks. -/
def Trimmed : List Lexeme → Prop
  | [] => True
  | l :: ls => l.isTrailing ls = false ∧ Trimmed ls

section TrimLines

variable {l : Lexeme} {ls : List Lexeme}

theorem trimLines_of_trailing (h : l.isTrailing ls = true) : trimLines (l :: ls) = trimLines ls :=
  if_pos h

theorem trimLines_of_not_trailing (h : l.isTrailing ls = false) :
    trimLines (l :: ls) = l :: trimLines ls :=
  if_neg (by simp [h])

theorem not_isTrailing_of_kind (h : l.kind ≠ .whitespace) (ls : List Lexeme) :
    l.isTrailing ls = false := by
  simp [isTrailing, h]

theorem trimLines_cases (ls : List Lexeme) :
    trimLines ls = ls ∨ ∃ before blanks after, ls = before ++ blanks :: after ∧
      blanks.isTrailing after = true ∧ trimLines ls = before ++ trimLines after := by
  induction ls with
  | nil => exact Or.inl rfl
  | cons l ls ih =>
    cases htrailing : l.isTrailing ls with
    | true => exact Or.inr ⟨[], l, ls, rfl, htrailing, trimLines_of_trailing htrailing⟩
    | false =>
      rw [trimLines_of_not_trailing htrailing]
      rcases ih with heq | ⟨before, blanks, after, rfl, hblanks, heq⟩
      · rw [heq]
        exact Or.inl rfl
      · rw [heq]
        exact Or.inr ⟨l :: before, blanks, after, rfl, hblanks, rfl⟩

end TrimLines

/-- A lexeme stays what it is when blanks behind it are taken away, unless it is a
carriage return and a line feed comes to stand behind it. -/
theorem readBefore_trimLines {text : List Char} {l : Lexeme} {ls : List Lexeme}
    (h : lexemes text = l :: ls) :
    l.ReadBefore (join (trimLines ls)) ∨
      l.chars = ['\r'] ∧ ∃ rest, trimLines ls = ⟨.newline, ['\n']⟩ :: rest := by
  obtain ⟨hread, hrest⟩ := readBefore_of_lexemes h
  rcases trimLines_cases ls with heq | ⟨before, blanks, after, hls, htrailing, heq⟩
  · rw [heq]
    exact Or.inl hread
  · have hblanks : blanks ∈ lexemes (join ls) := by
      rw [hrest, hls]
      exact List.mem_append_right before List.mem_cons_self
    have hopen : l.isLeftOpen = false := by
      rw [Bool.eq_false_iff]
      intro hopen
      have hnil := hread.eq_nil_of_isLeftOpen hopen
      rw [hls, join_append, join_cons, List.append_eq_nil_iff, List.append_eq_nil_iff] at hnil
      exact chars_ne_nil_of_mem_lexemes hblanks hnil.2.1
    rw [hls, join_append] at hread
    rw [heq, join_append]
    cases after with
    | nil => exact Or.inl (by simpa [trimLines] using hread.truncate)
    | cons newline after =>
      have hkind : newline.kind = .newline := by
        simpa [isTrailing] using (Bool.and_eq_true_iff.mp htrailing).2
      have hnewline : newline.ReadBefore (join after) := by
        rw [hls] at hrest
        exact (readBefore_of_lexemes (lexemes_join_right
          (hrest.trans (List.append_cons before blanks (newline :: after))))).1
      obtain ⟨d, hd, hbreak⟩ := hnewline.newline_iff.mp hkind
      obtain ⟨more, hchars⟩ := List.head?_eq_some_iff.mp hd
      rw [trimLines_of_not_trailing (not_isTrailing_of_kind (by simp [hkind]) after), join_cons,
        hchars, List.cons_append]
      by_cases hreturn : join before = [] ∧ l.chars = ['\r'] ∧ d = '\n'
      · obtain ⟨hbefore, hl, rfl⟩ := hreturn
        have hnil : before = [] := @eq_nil_of_join_eq_nil (join ls) [] before
          (blanks :: newline :: after) (hrest.trans hls) hbefore
        have hone : newline = ⟨.newline, ['\n']⟩ := by
          rw [← hkind, ← hnewline.chars_of_feed hd]
        refine Or.inr ⟨hl, trimLines after, ?_⟩
        rw [hnil, hone]
        rfl
      · left
        apply hread.truncate.lineBreak hopen hbreak
        intro hbefore hl hfeed
        exact hreturn ⟨hbefore, hl, hfeed⟩

theorem exists_head_of_whitespace {text : List Char} {l : Lexeme} {ls : List Lexeme}
    (h : lexemes text = l :: ls) (hkind : l.kind = .whitespace)
    (htrailing : l.isTrailing ls = false) :
    ∃ m, (trimLines ls).head? = some m ∧ m.kind ≠ .newline := by
  obtain ⟨hread, hrest⟩ := readBefore_of_lexemes h
  cases ls with
  | nil => simp [isTrailing, hkind] at htrailing
  | cons m ls =>
    have hnewline : m.kind ≠ .newline := by simpa [isTrailing, hkind] using htrailing
    have hwhitespace : m.kind ≠ .whitespace := by
      intro hm
      obtain ⟨c, hc, hblank⟩ := (readBefore_of_lexemes hrest).1.whitespace_iff.mp hm
      have hbehind := hread.not_blank_behind hkind c
        (by simp [List.head?_append, Option.mem_def.mp hc])
      rw [hblank] at hbehind
      cases hbehind
    refine ⟨m, ?_, hnewline⟩
    rw [trimLines_of_not_trailing (not_isTrailing_of_kind hwhitespace ls)]
    rfl

/-- What a trimmed text reads as. -/
structure ReadsTrimmed (ls ms : List Lexeme) : Prop where
  contents : ms.filter (!·.isTrivia) = ls.filter (!·.isTrivia)
  trimmed : Trimmed ms
  head : ms.head?.map kind = (trimLines ls).head?.map kind

/-- Without the blanks at its line ends, a text has the same contents, and no line
that ends in blanks. -/
theorem readsTrimmed {text : List Char} {ls : List Lexeme} (h : lexemes text = ls) :
    ReadsTrimmed ls (lexemes (join (trimLines ls))) := by
  induction ls generalizing text with
  | nil =>
    rw [trimLines, join_nil, lexemes_nil]
    exact ⟨rfl, trivial, rfl⟩
  | cons l ls ih =>
    obtain ⟨hread, hrest⟩ := readBefore_of_lexemes h
    obtain ⟨hcontents, htrimmed, hhead⟩ := ih hrest
    cases htrailing : l.isTrailing ls with
    | true =>
      have htrivia : l.isTrivia = true := by
        simp only [isTrailing, Bool.and_eq_true, beq_iff_eq] at htrailing
        simp [isTrivia, htrailing.1]
      rw [trimLines_of_trailing htrailing]
      refine ⟨?_, htrimmed, ?_⟩
      · rw [hcontents, List.filter_cons_of_neg (by simp [htrivia])]
      · rw [hhead, trimLines_of_trailing htrailing]
    | false =>
      rw [trimLines_of_not_trailing htrailing, join_cons]
      rcases readBefore_trimLines h with hread' | ⟨hreturn, rest, hfeed⟩
      · rw [hread'.lexemes_eq]
        refine ⟨?_, ⟨?_, htrimmed⟩, ?_⟩
        · rw [List.filter_cons, List.filter_cons, hcontents]
        · by_cases hkind : l.kind = .whitespace
          · obtain ⟨m, hm, hnewline⟩ := exists_head_of_whitespace h hkind htrailing
            rw [hm, Option.map_some, Option.map_eq_some_iff] at hhead
            obtain ⟨m', hm', hsame⟩ := hhead
            simp [isTrailing, hm', hsame, hnewline]
          · exact not_isTrailing_of_kind hkind _
        · rw [trimLines_of_not_trailing htrailing]
          rfl
      · have hkind : l.kind = .newline := hread.newline_iff.mpr ⟨'\r', by rw [hreturn]; rfl, rfl⟩
        have htrivia : l.isTrivia = true := by simp [isTrivia, hkind]
        have hpair : lexemes ('\r' :: '\n' :: join rest) =
            ⟨.newline, ['\r', '\n']⟩ :: lexemes (join rest) := lexemes_cons _ _
        have hone : lexemes (join (trimLines ls)) = ⟨.newline, ['\n']⟩ :: lexemes (join rest) := by
          rw [hfeed]
          exact lexemes_cons _ _
        rw [hone] at hcontents htrimmed
        rw [hfeed, hreturn]
        change ReadsTrimmed _ (lexemes ('\r' :: '\n' :: join rest))
        rw [hpair]
        refine ⟨?_, ⟨rfl, htrimmed.2⟩, ?_⟩
        · rw [List.filter_cons_of_neg (by decide)] at hcontents
          rw [List.filter_cons_of_neg (by decide), List.filter_cons_of_neg (by simp [htrivia]),
            hcontents]
        · rw [trimLines_of_not_trailing htrailing]
          exact congrArg some hkind.symm

end Lexeme

namespace Layout

/-- The finding at a token, given the tokens behind it. -/
def trailingAt (t : Token) (rest : List Token) : Option Finding :=
  if t.kind = .whitespace ∧ rest.head?.all (·.kind == .newline) then
    some { range := t.range, fix := Fix.delete "Remove trailing whitespace" t.range }
  else none

theorem trailingWhitespace_eq_along (d : Document) :
    trailingWhitespace d = Finding.along trailingAt d.tokens :=
  rfl

theorem trailingAt_placed (p q : Position) (i j : Nat) (l : Lexeme) (ls : List Lexeme) :
    trailingAt (l.placed p i) (place q j ls) =
      if l.isTrailing ls then
        some { range := (l.placed p i).range,
               fix := Fix.delete "Remove trailing whitespace" (l.placed p i).range }
      else none := by
  cases ls <;> simp [trailingAt, Lexeme.isTrailing, Lexeme.placed, place]

theorem along_trailingAt_of_trimmed {ls : List Lexeme} (h : Lexeme.Trimmed ls) (p : Position)
    (offset : Nat) : Finding.along trailingAt (place p offset ls) = [] := by
  induction ls generalizing p offset with
  | nil => rfl
  | cons l ls ih =>
    rw [place_cons, Finding.along, trailingAt_placed, h.1, ih h.2]
    rfl

/-- The edits at the ends of lines, one for each finding. -/
def trailingEdits (ts : List Token) : List Edit :=
  (Finding.along trailingAt ts).map fun f => Edit.delete f.range

theorem map_edits_along_trailingAt (ts : List Token) :
    (Finding.along trailingAt ts).map (·.fix.map Fix.edits) =
      (trailingEdits ts).map fun e => some [e] := by
  unfold trailingEdits
  rw [List.map_map]
  apply List.map_congr_left
  intro f hf
  obtain ⟨t, rest, hlook, -⟩ := Finding.exists_of_mem_along hf
  unfold trailingAt at hlook
  split_ifs at hlook
  obtain rfl := Option.some.inj hlook
  rfl

theorem reports_trailingAt : Finding.Reports trailingAt Lexeme.isTrailing := by
  intro t rest
  have hhead : (rest.map Token.toLexeme).head?.all (·.kind == .newline) =
      rest.head?.all (·.kind == .newline) := by
    cases rest <;> rfl
  simp only [trailingAt, Lexeme.isTrailing, hhead, Bool.and_eq_true, beq_iff_eq]
  split_ifs
  · rfl
  · rfl

theorem sublist_trailingEdits (ts : List Token) :
    ((trailingEdits ts).map Edit.range).Sublist (ts.map Token.range) := by
  unfold trailingEdits
  rw [List.map_map]
  exact reports_trailingAt.sublist ts

theorem pairwise_trailingEdits (text : List Char) :
    (trailingEdits (tokenize text)).Pairwise Edit.Before := by
  have hedits := (pairwise_range_tokenize text).sublist (sublist_trailingEdits (tokenize text))
  rw [List.pairwise_map] at hedits
  exact hedits

theorem start_le_stop_of_trailingEdits {text : List Char} :
    ∀ e ∈ trailingEdits (tokenize text), e.range.start ≤ e.range.stop := by
  intro e he
  have hmem := (sublist_trailingEdits (tokenize text)).subset (List.mem_map_of_mem he)
  obtain ⟨t, ht, hrange⟩ := List.mem_map.mp hmem
  rw [← hrange]
  exact Position.le_of_lt (start_lt_stop_of_mem_tokenize ht)

theorem replaces_trailingEdits {index : Text.LineIndex} {p : Position} {offset : Nat}
    {ls : List Lexeme}
    (h : ∀ t ∈ place p offset ls,
      index.offset t.range.start = t.span.start ∧ index.offset t.range.stop = t.span.stop) :
    Edit.Replaces index offset (trailingEdits (place p offset ls)) (Lexeme.join ls)
      (Lexeme.join (Lexeme.trimLines ls)) := by
  induction ls generalizing p offset with
  | nil => exact .nil offset []
  | cons l ls ih =>
    rw [place_cons] at h ⊢
    obtain ⟨hspan, hlater⟩ := List.forall_mem_cons.mp h
    have hbehind := ih hlater
    unfold trailingEdits at hbehind ⊢
    rw [Finding.along, trailingAt_placed]
    cases htrailing : l.isTrailing ls with
    | true =>
      have hcut : (Edit.delete (l.placed p offset).range).span index =
          ⟨offset + Text.byteLength [],
            offset + Text.byteLength [] + Text.byteLength l.chars⟩ :=
        congrArg₂ Span.mk hspan.1 hspan.2
      rw [Lexeme.trimLines_of_trailing htrailing]
      exact Edit.Replaces.cons hcut hbehind
    | false =>
      rw [Lexeme.trimLines_of_not_trailing htrailing]
      exact hbehind.behind

end Layout

theorem trailingWhitespace_rewrites (text : List Char) :
    Check.trailingWhitespace.Rewrites text (Lexeme.join (Lexeme.trimLines (lexemes text))) := by
  have hreplaces := Layout.replaces_trailingEdits fun t => @offset_of_mem_tokenize text t
  rw [join_lexemes] at hreplaces
  refine ⟨Layout.trailingEdits (tokenize text), ?_, Layout.start_le_stop_of_trailingEdits,
    Layout.pairwise_trailingEdits text, hreplaces⟩
  rw [Check.findings, Layout.trailingWhitespace_eq_along]
  exact Layout.map_edits_along_trailingAt (tokenize text)

section Leading

variable {text : List Char} {trivia rest : List Lexeme}

theorem exists_leading_trivia (text : List Char) :
    ∃ trivia rest, lexemes text = trivia ++ rest ∧ (∀ l ∈ trivia, l.isTrivia = true) ∧
      ∀ l ∈ rest.head?, l.isTrivia = false := by
  refine ⟨_, _, (List.takeWhile_append_dropWhile (p := Lexeme.isTrivia)).symm, ?_, ?_⟩
  · intro l hl
    exact List.mem_takeWhile_imp hl
  · intro l hl
    have hstops := List.head?_dropWhile_not Lexeme.isTrivia (lexemes text)
    rw [Option.mem_def.mp hl] at hstops
    exact hstops

theorem leadingWhitespace_eq_nil (h : ∀ l ∈ (lexemes text).head?, l.isTrivia = false) :
    Layout.leadingWhitespace (Document.parse text) = [] := by
  simp only [Layout.leadingWhitespace, Document.parse, tokenize]
  cases hls : lexemes text with
  | nil => rfl
  | cons l ls =>
    have hl : l.isTrivia = false := h l (by rw [hls]; rfl)
    rw [place_cons]
    exact if_neg (by simpa [Lexeme.placed] using hl)

theorem leadingWhitespace_of_trivia {d : Document} {t : Token} {ts : List Token}
    (h : d.tokens = t :: ts) (ht : t.isTrivia = true) :
    Layout.leadingWhitespace d =
      [{ range := t.range
         fix := Fix.delete "Remove leading whitespace" (Range.between t.range.start
           (((d.tokens.find? fun t => !t.isTrivia).map (·.range.start)).getD d.stop)) }] := by
  rw [Layout.leadingWhitespace, h]
  exact if_pos ht

/-- The content of a document starts where its leading trivia stop. -/
theorem content_eq_advanceAll (h : lexemes text = trivia ++ rest)
    (htrivia : ∀ l ∈ trivia, l.isTrivia = true) (hrest : ∀ l ∈ rest.head?, l.isTrivia = false) :
    (((Document.parse text).tokens.find? fun t => !t.isTrivia).map (·.range.start)).getD
      (Document.parse text).stop = Position.origin.advanceAll trivia := by
  have htokens : (Document.parse text).tokens = tokenize text := rfl
  have hnone : (place Position.origin 0 trivia).find? (fun t => !t.isTrivia) = none := by
    rw [List.find?_eq_none]
    intro t ht
    have hmem := List.mem_map_of_mem (f := Token.toLexeme) ht
    rw [map_toLexeme_place] at hmem
    simp [htrivia _ hmem]
  rw [htokens, tokenize, h, place_append, List.find?_append, hnone, Option.none_or]
  cases rest with
  | nil =>
    rw [List.append_nil] at h
    rw [place, List.find?_nil, parse_stop_eq_advanceAll, h]
    rfl
  | cons l rest =>
    have hl : l.isTrivia = false := hrest l rfl
    rw [place_cons, List.find?_cons_of_pos (by simpa [Lexeme.placed] using hl)]
    rfl

theorem leadingWhitespace_rewrites (h : lexemes text = trivia ++ rest)
    (htrivia : ∀ l ∈ trivia, l.isTrivia = true) (hrest : ∀ l ∈ rest.head?, l.isTrivia = false) :
    Check.leadingWhitespace.Rewrites text (Lexeme.join rest) := by
  cases trivia with
  | nil =>
    rw [List.nil_append] at h
    rw [← h, join_lexemes]
    apply Check.rewrites_of_nil
    exact leadingWhitespace_eq_nil (by rwa [h])
  | cons l trivia =>
    have hcontent := content_eq_advanceAll h htrivia hrest
    have htokens : (Document.parse text).tokens =
        l.placed Position.origin 0 :: place (Position.origin.advance l.chars)
          (0 + Text.byteLength l.chars) (trivia ++ rest) :=
      congrArg (place Position.origin 0) h
    have hfinding := leadingWhitespace_of_trivia htokens (htrivia l List.mem_cons_self)
    rw [hcontent] at hfinding
    refine @Check.rewrites_of_singleton .leadingWhitespace text [] (l :: trivia) rest h _ hfinding
      "Remove leading whitespace" "" ?_
    exact congrArg (fun r => some (Fix.delete "Remove leading whitespace" r))
      (Range.between_of_le (Position.origin_le _))

end Leading

/-- The fixes of the rules on blanks settle what they are about and leave the contents
of a document alone: where no other rule is on and the limit cuts nothing off, applying
them gives a text that has the same contents, comments included, and for which nothing
is reported. -/
theorem whitespace_fixes_settle (s : Settings) (kind : RuleKind)
    (hkind : kind = .leadingWhitespace ∨ kind = .trailingWhitespace) (honly : s.EnablesOnly kind)
    (text : List Char)
    (hcap : (Linter.collect s.lint.buildRules (Document.parse text)).length ≤ s.maxProblems) :
    ∃ fixed, Diagnostic.applyFixes? text (lint s text) = some fixed ∧ lint s fixed = [] ∧
      Token.contents (tokenize fixed) = Token.contents (tokenize text) := by
  have hcomma : kind ≠ .leadingComma := by rcases hkind with rfl | rfl <;> decide
  by_cases hblank : (Document.parse text).isBlank = true
  · have hnone := lint_eq_nil_of_isBlank s hblank
    exact ⟨text, by rw [hnone, Diagnostic.applyFixes?_nil], hnone, rfl⟩
  · have happly : ∀ fixed, (Check.ofOptions none kind).Rewrites text fixed →
        Diagnostic.applyFixes? text (lint s text) = some fixed :=
      fun fixed => applyFixes?_lint honly hcomma fun f hf =>
        exists_mem_lint_of_finding honly hcomma hcap hblank hf
    rcases hkind with rfl | rfl
    · obtain ⟨trivia, rest, hsplit, htrivia, hrest⟩ := exists_leading_trivia text
      have hread := lexemes_join_right hsplit
      refine ⟨_, happly _ (leadingWhitespace_rewrites hsplit htrivia hrest), ?_, ?_⟩
      · apply lint_eq_nil_of_findings honly hcomma
        exact leadingWhitespace_eq_nil (by rwa [hread])
      · rw [contents_tokenize, contents_tokenize, hread, hsplit, List.filter_append,
          filter_of_trivia htrivia, List.nil_append]
    · obtain ⟨hcontents, htrimmed, -⟩ := Lexeme.readsTrimmed (rfl : lexemes text = lexemes text)
      refine ⟨_, happly _ (trailingWhitespace_rewrites text), ?_, ?_⟩
      · apply lint_eq_nil_of_findings honly hcomma
        rw [Check.ofOptions, Check.findings, Layout.trailingWhitespace_eq_along]
        exact Layout.along_trailingAt_of_trimmed htrimmed _ _
      · rw [contents_tokenize, contents_tokenize, hcontents]

/-- Two rules that offer the same edits, blanks between a carriage return and a line
feed, behind a comment that holds blanks before a line break of its own, and at the end
behind a letter that might have been an exponent's. -/
theorem whitespace_fixes_settle_return :
    let s : Settings :=
      { lint := .ofRules [("trailing-whitespace", .instances [.plain .on, .plain .error])] }
    let text := "a\r \n/* é \n*/ \r\n 1e\t ".toList
    s.EnablesOnly .trailingWhitespace ∧
      (Linter.collect s.lint.buildRules (Document.parse text)).length = 6 ∧
      ∃ fixed, Diagnostic.applyFixes? text (lint s text) = some fixed ∧ lint s fixed = [] ∧
        Token.contents (tokenize fixed) = Token.contents (tokenize text) := by
  intro s text
  have honly : s.EnablesOnly .trailingWhitespace := ⟨by decide +kernel, by decide +kernel⟩
  have hfound : (Linter.collect s.lint.buildRules (Document.parse text)).length = 6 := by
    decide +kernel
  refine ⟨honly, hfound, ?_⟩
  exact whitespace_fixes_settle s .trailingWhitespace (.inr rfl) honly text
    (by rw [hfound]; decide)

end QueryLint
