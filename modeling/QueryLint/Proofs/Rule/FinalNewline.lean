import QueryLint.Proofs.Edit.OneKind
import QueryLint.Proofs.Token.Trivia

/-!
# The line break at the end of a document

The fix puts one line break in place of the trivia behind the last lexeme that is
none. That settles the matter unless this lexeme is a block comment or a literal in
three quotes that is left open: such a lexeme takes the line break, so the document
still ends without one, and each further fix makes the lexeme one line break longer.
-/
namespace QueryLint

/-- Whether the last lexeme of a text is left open over lines. -/
def endsLeftOpen (text : List Char) : Bool :=
  (lexemes text).getLast?.any (·.isLeftOpen)

section LineBreak

variable {text : List Char} {d : Char}

/-- What stands before the last lexemes of a text does not see a line break behind
them. -/
theorem lexemes_append_lineBreak {ls ms : List Lexeme} (h : lexemes text = ls ++ ms)
    (hms : ms ≠ []) (hd : Text.isLineBreak d = true) (rest : List Char) :
    lexemes (Lexeme.join ls ++ (Lexeme.join ms ++ d :: rest)) =
      ls ++ lexemes (Lexeme.join ms ++ d :: rest) := by
  induction ls generalizing text with
  | nil => rfl
  | cons l ls ih =>
    rw [List.cons_append] at h
    obtain ⟨hread, hrest⟩ := readBefore_of_lexemes h
    have hne : Lexeme.join (ls ++ ms) ≠ [] := by
      intro hnil
      rw [Lexeme.join_append, List.append_eq_nil_iff] at hnil
      exact hms (eq_nil_of_join_eq_nil (hrest.trans (List.append_nil _).symm) hnil.2)
    have hopen : l.isLeftOpen = false :=
      Bool.eq_false_iff.mpr fun hopen => hne (hread.eq_nil_of_isLeftOpen hopen)
    have hread' := hread.lineBreak hopen hd (fun hnil => absurd hnil hne) rest
    rw [Lexeme.join_append, List.append_assoc] at hread'
    rw [Lexeme.join_cons, List.append_assoc, hread'.lexemes_eq, ih hrest]
    rfl

theorem lexemes_lineBreak {front trailing : List Lexeme} {last : Lexeme}
    (h : lexemes text = front ++ last :: trailing) (hlast : last.isTrivia = false)
    (hopen : last.isLeftOpen = false) (hd : Text.isLineBreak d = true) (rest : List Char) :
    lexemes (Lexeme.join (front ++ [last]) ++ d :: rest) =
      front ++ last :: lexemes (d :: rest) := by
  have hcut : lexemes (Lexeme.join (front ++ [last])) = front ++ [last] :=
    lexemes_join_left (h.trans (List.append_cons front last trailing))
  have hread := (readBefore_of_lexemes (lexemes_join_right hcut)).1
  have hreturn : last.chars = ['\r'] → d ≠ '\n' := by
    intro hreturn
    have hkind := hread.newline_iff.mpr ⟨'\r', by rw [hreturn]; rfl, rfl⟩
    simp [Lexeme.isTrivia, hkind] at hlast
  have happend := lexemes_append_lineBreak hcut (List.cons_ne_nil last []) hd rest
  have hread' : last.ReadBefore (d :: rest) := hread.lineBreak hopen hd (fun _ => hreturn) rest
  rw [Lexeme.join_append, List.append_assoc, happend, Lexeme.join_cons, Lexeme.join_nil,
    List.append_nil, hread'.lexemes_eq]

theorem lexemes_lineBreak_of_isLeftOpen {front : List Lexeme} {last : Lexeme}
    (h : lexemes text = front ++ [last]) (hopen : last.isLeftOpen = true)
    (hd : Text.isLineBreak d = true) :
    lexemes (text ++ [d]) = front ++ [⟨.other, last.chars ++ [d]⟩] := by
  have hread := (readBefore_of_lexemes (lexemes_join_right h)).1
  have happend := lexemes_append_lineBreak h (List.cons_ne_nil last []) hd []
  rw [Lexeme.join_cons, Lexeme.join_nil, List.append_nil,
    hread.lexemes_of_isLeftOpen hopen hd] at happend
  rw [← happend, ← join_lexemes text, h]
  simp

end LineBreak

theorem exists_trailing_trivia (ls : List Lexeme) :
    (∀ l ∈ ls, l.isTrivia = true) ∨ ∃ front last trailing, ls = front ++ last :: trailing ∧
      last.isTrivia = false ∧ ∀ l ∈ trailing, l.isTrivia = true := by
  induction ls with
  | nil => exact Or.inl (List.forall_mem_nil _)
  | cons l ls ih =>
    rcases ih with hall | ⟨front, last, trailing, rfl, hlast, htrailing⟩
    · cases hl : l.isTrivia with
      | true => exact Or.inl (List.forall_mem_cons.mpr ⟨hl, hall⟩)
      | false => exact Or.inr ⟨[], l, ls, rfl, hl, hall⟩
    · exact Or.inr ⟨l :: front, last, trailing, rfl, hlast, htrailing⟩

section Findings

variable {text : List Char} {front trailing : List Lexeme} {last : Lexeme}

theorem forall_place {q : Lexeme → Prop} {ls : List Lexeme} (h : ∀ l ∈ ls, q l) (p : Position)
    (offset : Nat) : ∀ t ∈ place p offset ls, q t.toLexeme := by
  intro t ht
  have hmem := List.mem_map_of_mem (f := Token.toLexeme) ht
  rw [map_toLexeme_place] at hmem
  exact h _ hmem

theorem finalNewline_of_trivia (h : ∀ l ∈ lexemes text, l.isTrivia = true) :
    Layout.finalNewline (Document.parse text) = [] := by
  have hdrop : (tokenize text).reverse.dropWhile (·.isTrivia) = [] := by
    rw [List.dropWhile_eq_nil_iff]
    intro t ht
    exact forall_place h _ _ t (List.mem_reverse.mp ht)
  simp only [Layout.finalNewline, Document.parse, hdrop]

/-- Whether some trivia are one line break, with blanks before it or without. -/
def endsOneLine (trailing : List Lexeme) : Bool :=
  trailing.countP (·.kind == .newline) == 1 && trailing.getLast?.any (·.kind == .newline)

theorem finalNewline_of_tokens {d : Document} {before ts : List Token} {t : Token}
    (h : d.tokens = before ++ t :: ts) (ht : t.isTrivia = false)
    (hts : ∀ u ∈ ts, u.isTrivia = true) :
    Layout.finalNewline d =
      if ts.countP (·.kind == .newline) = 1 ∧ ts.getLast?.any (·.kind == .newline) then []
      else
        [{ range := Range.point d.stop
           fix := Fix.replace "Fix trailing newline"
             (Range.between t.range.stop d.stop) "\n" }] := by
  have hreverse : ∀ u ∈ ts.reverse, u.isTrivia = true := by
    intro u hu
    exact hts u (List.mem_reverse.mp hu)
  have hbackwards : d.tokens.reverse = ts.reverse ++ t :: before.reverse := by
    rw [h]
    simp
  simp only [Layout.finalNewline]
  rw [hbackwards, List.dropWhile_append_of_pos hreverse, List.takeWhile_append_of_pos hreverse,
    List.dropWhile_cons_of_neg (by simp [ht]), List.takeWhile_cons_of_neg (by simp [ht]),
    List.append_nil, List.countP_reverse, List.head?_reverse]

theorem endsOneLine_place (p : Position) (offset : Nat) (trailing : List Lexeme) :
    (place p offset trailing).countP (·.kind == .newline) = 1 ∧
      (place p offset trailing).getLast?.any (·.kind == .newline) = true ↔
        endsOneLine trailing = true := by
  have hmap := map_toLexeme_place p offset trailing
  have hcount : (place p offset trailing).countP (·.kind == .newline) =
      trailing.countP (·.kind == .newline) := by
    conv_rhs => rw [← hmap, List.countP_map]
    rfl
  have hlast : (place p offset trailing).getLast?.any (·.kind == .newline) =
      trailing.getLast?.any (·.kind == .newline) := by
    conv_rhs => rw [← hmap, List.getLast?_map, Option.any_map]
  rw [hcount, hlast]
  simp [endsOneLine]

theorem finalNewline_eq (h : lexemes text = front ++ last :: trailing)
    (hlast : last.isTrivia = false) (htrailing : ∀ l ∈ trailing, l.isTrivia = true) :
    Layout.finalNewline (Document.parse text) =
      if endsOneLine trailing then []
      else
        [{ range := Range.point (Document.parse text).stop
           fix := Fix.replace "Fix trailing newline"
             ⟨Position.origin.advanceAll (front ++ [last]),
               Position.origin.advanceAll (front ++ [last] ++ trailing)⟩ "\n" }] := by
  have htokens := place_append Position.origin 0 front (last :: trailing)
  rw [← h, place_cons] at htokens
  have hstart : (last.placed (Position.origin.advanceAll front)
      (0 + Text.byteLength (Lexeme.join front))).range.stop =
      Position.origin.advanceAll (front ++ [last]) :=
    (Position.advanceAll_concat Position.origin front last).symm
  have hstop : (Document.parse text).stop =
      Position.origin.advanceAll (front ++ [last] ++ trailing) := by
    rw [parse_stop_eq_advanceAll, h.trans (List.append_cons front last trailing)]
  have hle : Position.origin.advanceAll (front ++ [last]) ≤
      Position.origin.advanceAll (front ++ [last] ++ trailing) := by
    rw [Position.advanceAll_append _ (front ++ [last]) trailing]
    exact Position.le_advanceAll _ trailing
  rw [finalNewline_of_tokens htokens hlast (forall_place htrailing _ _), hstart, hstop,
    Range.between_of_le hle]
  simp only [endsOneLine_place]

end Findings

section LeftOpen

variable {s : Settings} {text : List Char} {front trailing : List Lexeme} {last : Lexeme}

theorem Lexeme.not_isTrivia_of_isLeftOpen {l : Lexeme} (h : l.isLeftOpen = true) :
    l.kind = .other ∧ l.isTrivia = false := by
  have hkind : l.kind = .other := by
    simp only [isLeftOpen, Bool.and_eq_true, beq_iff_eq] at h
    exact h.1
  simp [isTrivia, hkind]

theorem exists_last_of_endsLeftOpen (h : endsLeftOpen text = true) :
    ∃ front last, lexemes text = front ++ [last] ∧ last.isLeftOpen = true := by
  unfold endsLeftOpen at h
  cases hlast : (lexemes text).getLast? with
  | none => simp [hlast] at h
  | some last =>
    obtain ⟨front, hfront⟩ := List.getLast?_eq_some_iff.mp hlast
    exact ⟨front, last, hfront, by simpa [hlast] using h⟩

/-- A text ends left open if the last lexeme before its trailing trivia is left open;
then there are none. -/
theorem endsLeftOpen_iff (h : lexemes text = front ++ last :: trailing)
    (htrailing : ∀ l ∈ trailing, l.isTrivia = true) :
    endsLeftOpen text = true ↔ last.isLeftOpen = true ∧ trailing = [] := by
  constructor
  · intro hopen
    obtain ⟨front', l, h', hl⟩ := exists_last_of_endsLeftOpen hopen
    rcases List.eq_nil_or_concat' trailing with rfl | ⟨before, m, rfl⟩
    · obtain ⟨-, hsame⟩ := List.append_inj' (h.symm.trans h') rfl
      rw [List.singleton_inj.mp hsame]
      exact ⟨hl, rfl⟩
    · rw [← List.cons_append, ← List.append_assoc] at h
      obtain ⟨-, hsame⟩ := List.append_inj' (h.symm.trans h') rfl
      have htrivia := htrailing m (by simp)
      rw [List.singleton_inj.mp hsame, (Lexeme.not_isTrivia_of_isLeftOpen hl).2] at htrivia
      cases htrivia
  · rintro ⟨hopen, rfl⟩
    simp [endsLeftOpen, h, hopen]

theorem trailing_eq_nil_of_isLeftOpen (h : lexemes text = front ++ last :: trailing)
    (hopen : last.isLeftOpen = true) : trailing = [] := by
  have hread := (readBefore_of_lexemes (lexemes_join_right h)).1
  have hwhole : lexemes text = front ++ [last] ++ trailing ++ [] := by simp [h]
  exact eq_nil_of_join_eq_nil hwhole (hread.eq_nil_of_isLeftOpen hopen)

theorem lint_ne_nil_of_endsLeftOpen (honly : s.EnablesOnly .finalNewline)
    (hlimit : 0 < s.maxProblems) (hopen : endsLeftOpen text = true) : lint s text ≠ [] := by
  obtain ⟨front, last, h, hopen⟩ := exists_last_of_endsLeftOpen hopen
  obtain ⟨hkind, htrivia⟩ := Lexeme.not_isTrivia_of_isLeftOpen hopen
  have hfinding := finalNewline_eq h htrivia (List.forall_mem_nil _)
  have hmem : last ∈ (tokenize text).map Token.toLexeme := by
    rw [tokenize, map_toLexeme_place, h]
    simp
  obtain ⟨t, ht, rfl⟩ := List.mem_map.mp hmem
  have hblank := not_isBlank_of_mem ht htrivia (by simp [Lexeme.isPunctuation, hkind])
  have hends : ¬endsOneLine [] = true := by decide
  rw [if_neg hends] at hfinding
  exact lint_ne_nil_of_finding honly (by decide) hlimit hblank
    (List.mem_of_mem_head? (congrArg List.head? hfinding))

end LeftOpen

section Fix

variable {s : Settings} {text : List Char} {front trailing : List Lexeme} {last : Lexeme}

theorem finalNewline_rewrites (h : lexemes text = front ++ last :: trailing)
    (hlast : last.isTrivia = false) (htrailing : ∀ l ∈ trailing, l.isTrivia = true)
    (hends : endsOneLine trailing = false) :
    Check.finalNewline.Rewrites text (Lexeme.join (front ++ [last]) ++ ['\n']) := by
  have hfinding := finalNewline_eq h hlast htrailing
  rw [hends] at hfinding
  have hsplit : lexemes text = front ++ [last] ++ trailing ++ [] := by simp [h]
  change Check.finalNewline.findings (Document.parse text) = _ at hfinding
  have hrewrites := Check.rewrites_of_singleton hsplit hfinding rfl
  simpa using hrewrites

/-- Behind a lexeme that is not left open, the fix puts the line break that is asked
for, and nothing else changes but trivia. -/
theorem finalNewline_settles (h : lexemes text = front ++ last :: trailing)
    (hlast : last.isTrivia = false) (htrailing : ∀ l ∈ trailing, l.isTrivia = true)
    (hopen : last.isLeftOpen = false) :
    Layout.finalNewline (Document.parse (Lexeme.join (front ++ [last]) ++ ['\n'])) = [] ∧
      Token.contents (tokenize (Lexeme.join (front ++ [last]) ++ ['\n'])) =
        Token.contents (tokenize text) := by
  have hread := lexemes_lineBreak h hlast hopen (rfl : Text.isLineBreak '\n' = true) []
  have hone : lexemes ['\n'] = [⟨.newline, ['\n']⟩] := by
    rw [lexemes_cons]
    exact congrArg _ lexemes_nil
  rw [hone] at hread
  have hnewline : ∀ l ∈ [(⟨.newline, ['\n']⟩ : Lexeme)], l.isTrivia = true := by
    simp [Lexeme.isTrivia]
  constructor
  · rw [finalNewline_eq hread hlast hnewline]
    rfl
  · rw [contents_tokenize, contents_tokenize, hread.trans (List.append_cons front last _),
      h.trans (List.append_cons front last _)]
    simp only [List.filter_append, filter_of_trivia hnewline, filter_of_trivia htrailing]

/-- A lexeme that is left open takes the line break, and stays left open. -/
theorem finalNewline_grows (h : lexemes text = front ++ [last]) (hopen : last.isLeftOpen = true) :
    endsLeftOpen (text ++ ['\n']) = true ∧
      Token.contents (tokenize (text ++ ['\n'])) ≠ Token.contents (tokenize text) := by
  have hread := lexemes_lineBreak_of_isLeftOpen h hopen (rfl : Text.isLineBreak '\n' = true)
  constructor
  · have hlonger := Lexeme.isLeftOpen_append hopen ['\n']
    simp [endsLeftOpen, hread, hlonger]
  · intro hsame
    rw [contents_tokenize, contents_tokenize, hread, h, List.filter_append, List.filter_append,
      List.append_cancel_left_eq, List.filter_cons_of_pos (by rfl), List.filter_cons_of_pos
        (by simp [(Lexeme.not_isTrivia_of_isLeftOpen hopen).2])] at hsame
    have hchars := congrArg Lexeme.chars (List.cons.inj hsame).1
    simp at hchars

end Fix

/-- The fix for the end of a document, where no other rule is on. It can always be
applied, and settles the matter in one step, unless the document ends in a block
comment or a literal in three quotes that is left open: nothing more is reported, and
the contents are the same. In a document with such an end the fix adds a line break
that becomes part of the comment or literal, so the same is reported again, and again
after every further fix. -/
theorem finalNewline_fix_settles (s : Settings) (honly : s.EnablesOnly .finalNewline)
    (text : List Char) :
    ∃ fixed, Diagnostic.applyFixes? text (lint s text) = some fixed ∧
      (endsLeftOpen text = false →
        lint s fixed = [] ∧ Diagnostic.applyFixes? fixed (lint s fixed) = some fixed ∧
          Token.contents (tokenize fixed) = Token.contents (tokenize text)) ∧
      (endsLeftOpen text = true → 0 < s.maxProblems →
        fixed = text ++ ['\n'] ∧ lint s fixed ≠ [] ∧ endsLeftOpen fixed = true ∧
          Token.contents (tokenize fixed) ≠ Token.contents (tokenize text)) := by
  by_cases hnil : lint s text = []
  · have hsame := Diagnostic.applyFixes?_nil text
    rw [← hnil] at hsame
    exact ⟨text, hsame, fun _ => ⟨hnil, hsame, rfl⟩, fun hopen hlimit =>
      absurd hnil (lint_ne_nil_of_endsLeftOpen honly hlimit hopen)⟩
  obtain ⟨g, hg⟩ := List.exists_mem_of_ne_nil _ hnil
  obtain ⟨f, hf, hfix⟩ := exists_finding_of_enablesOnly honly (by decide) hg
  change f ∈ Layout.finalNewline (Document.parse text) at hf
  rcases exists_trailing_trivia (lexemes text) with
    hall | ⟨front, last, trailing, h, hlast, htrailing⟩
  · rw [finalNewline_of_trivia hall] at hf
    simp at hf
  have hfinding := finalNewline_eq h hlast htrailing
  have hends : endsOneLine trailing = false := by
    by_contra hends
    rw [hfinding, if_pos (by simpa using hends)] at hf
    simp at hf
  have hshown : ∀ f ∈ Layout.finalNewline (Document.parse text),
      ∃ g ∈ lint s text, g.fix = f.fix := by
    rw [hends, if_neg (by simp)] at hfinding
    rw [hfinding] at hf ⊢
    intro f' hf'
    rw [List.mem_singleton] at hf hf'
    exact ⟨g, hg, by rw [hfix, hf, hf']⟩
  have happly := applyFixes?_lint honly (by decide) hshown
    (finalNewline_rewrites h hlast htrailing hends)
  refine ⟨_, happly, fun hopen => ?_, fun hopen hlimit => ?_⟩
  · have hclosed : last.isLeftOpen = false := by
      rw [Bool.eq_false_iff]
      intro hlast
      have htrailing' := trailing_eq_nil_of_isLeftOpen h hlast
      rw [(endsLeftOpen_iff h htrailing).mpr ⟨hlast, htrailing'⟩] at hopen
      cases hopen
    obtain ⟨hnone, hcontents⟩ := finalNewline_settles h hlast htrailing hclosed
    have hlint := lint_eq_nil_of_findings honly (by decide) hnone
    refine ⟨hlint, ?_, hcontents⟩
    rw [hlint, Diagnostic.applyFixes?_nil]
  · obtain ⟨hlastOpen, rfl⟩ := (endsLeftOpen_iff h htrailing).mp hopen
    have htext : Lexeme.join (front ++ [last]) = text := by rw [← h, join_lexemes]
    obtain ⟨hopen', hcontents⟩ := finalNewline_grows h hlastOpen
    rw [htext]
    exact ⟨rfl, lint_ne_nil_of_endsLeftOpen honly hlimit hopen', hopen', hcontents⟩

/-- A comment that is closed, before too many line breaks, and a marked literal that is
left open behind a backslash. -/
theorem finalNewline_fix_settles_both :
    let s : Settings := { lint := .ofRules [("final-newline", .plain .on)] }
    let closed := "a /* b */ \r\n\n".toList
    let leftOpen := "rB'''a\\".toList
    s.EnablesOnly .finalNewline ∧ endsLeftOpen closed = false ∧ lint s closed ≠ [] ∧
      (∃ fixed, Diagnostic.applyFixes? closed (lint s closed) = some fixed ∧ lint s fixed = [] ∧
        Token.contents (tokenize fixed) = Token.contents (tokenize closed)) ∧
      endsLeftOpen leftOpen = true ∧
      ∃ fixed, Diagnostic.applyFixes? leftOpen (lint s leftOpen) = some fixed ∧
        fixed = leftOpen ++ ['\n'] ∧ lint s fixed ≠ [] := by
  intro s closed leftOpen
  have honly : s.EnablesOnly .finalNewline := ⟨by decide +kernel, by decide +kernel⟩
  have hclosed : endsLeftOpen closed = false := by decide +kernel
  have hleftOpen : endsLeftOpen leftOpen = true := by decide +kernel
  have hfound : lint s closed ≠ [] := by decide +kernel
  obtain ⟨fixed, happly, hsettled, -⟩ := finalNewline_fix_settles s honly closed
  obtain ⟨hlint, -, hcontents⟩ := hsettled hclosed
  obtain ⟨fixed', happly', -, hgrown⟩ := finalNewline_fix_settles s honly leftOpen
  obtain ⟨hlonger, hfound', -, -⟩ := hgrown hleftOpen (by decide)
  exact ⟨honly, hclosed, hfound, ⟨fixed, happly, hlint, hcontents⟩, hleftOpen, fixed', happly',
    hlonger, hfound'⟩

/-- The fix for a comment that is left open makes it longer, and the document still does
not end in a line break. -/
theorem finalNewline_not_settled_comment :
    let s : Settings := { lint := .ofRules [("final-newline", .plain .on)] }
    let text := "/* a".toList
    s.EnablesOnly .finalNewline ∧
      Diagnostic.applyFixes? text (lint s text) = some "/* a\n".toList ∧
      lint s "/* a\n".toList ≠ [] ∧
      Token.contents (tokenize "/* a\n".toList) ≠ Token.contents (tokenize text) :=
  ⟨⟨by decide +kernel, by decide +kernel⟩, by decide +kernel, by decide +kernel, by decide +kernel⟩

end QueryLint
