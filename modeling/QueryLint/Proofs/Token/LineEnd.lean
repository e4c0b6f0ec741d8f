import QueryLint.Proofs.Token.Kinds
import QueryLint.Proofs.Token.LineEnding
import QueryLint.Proofs.Token.Relex

/-!
# A line break behind a text

Where a text gets a line break behind its end, its last lexeme either takes it or
does not see it. Only a block comment and a literal in three quotes that are left
open take it (`Lexeme.isLeftOpen`), and they can only stand at the end of a text.
Every other lexeme is read before a line break as it is before anything else
(`Lexeme.ReadBefore.lineBreak`), but for a carriage return, which forms one line
break with a line feed.
-/
namespace QueryLint

/-- Whether a lexeme is a block comment or a literal in three quotes, with a mark in
front or without, that is left open. -/
def Lexeme.isLeftOpen (l : Lexeme) : Bool :=
  l.kind == .other &&
    (['/', '*'].isPrefixOf l.chars ||
      ['\'', '"'].any fun quote =>
        [quote, quote, quote].isPrefixOf (l.chars.dropWhile Text.isNamePart))

theorem Lexeme.not_isLeftOpen_of_kind {kind : TokenKind} (h : kind ≠ .other) (chars : List Char) :
    Lexeme.isLeftOpen ⟨kind, chars⟩ = false := by
  simp [isLeftOpen, h]

theorem Lexeme.isLeftOpen_quote {quote : Char} (hquote : quote = '\'' ∨ quote = '"')
    {word : List Char} (hword : ∀ c ∈ word, Text.isNamePart c = true) (cs : List Char) :
    Lexeme.isLeftOpen ⟨.other, word ++ quote :: cs⟩ = [quote, quote].isPrefixOf cs := by
  have hdrop : (word ++ quote :: cs).dropWhile Text.isNamePart = quote :: cs := by
    rw [List.dropWhile_append_of_pos hword]
    rcases hquote with rfl | rfl
    · exact List.dropWhile_cons_of_neg (by decide)
    · exact List.dropWhile_cons_of_neg (by decide)
  have hblock : ['/', '*'].isPrefixOf (word ++ quote :: cs) = false := by
    cases word with
    | nil => rcases hquote with rfl | rfl <;> rfl
    | cons c word =>
      have hc : '/' ≠ c := by
        rintro rfl
        exact absurd (hword '/' List.mem_cons_self) (by decide)
      simp [List.isPrefixOf, hc]
  simp only [isLeftOpen, hdrop, hblock]
  rcases hquote with rfl | rfl
  · simp [List.isPrefixOf]
  · simp [List.isPrefixOf]

theorem Lexeme.isLeftOpen_append {l : Lexeme} (h : l.isLeftOpen = true) (ds : List Char) :
    Lexeme.isLeftOpen ⟨.other, l.chars ++ ds⟩ = true := by
  have hlonger : ∀ {pre whole : List Char}, pre.isPrefixOf whole = true →
      pre.isPrefixOf (whole ++ ds) = true := by
    intro pre whole hpre
    rw [List.isPrefixOf_iff_prefix] at hpre ⊢
    exact hpre.trans (List.prefix_append whole ds)
  simp only [isLeftOpen, Bool.and_eq_true, Bool.or_eq_true, List.any_eq_true] at h ⊢
  refine ⟨rfl, ?_⟩
  rcases h.2 with hblock | ⟨quote, hquote, htriple⟩
  · exact Or.inl (hlonger hblock)
  · refine Or.inr ⟨quote, hquote, ?_⟩
    rw [List.dropWhile_append, if_neg]
    · exact hlonger htriple
    · intro hempty
      rw [List.isEmpty_iff.mp hempty] at htriple
      simp at htriple

namespace Scan

/-- What a scan makes of a text with the line break `d` behind its end: it takes the
break if the text leaves it open, and else does not see it. -/
structure AtBreak (d : Char) (F : List Char → Scan) (cs : List Char) (leftOpen : Prop) : Prop where
  takes : leftOpen → F cs = ⟨.other, cs.length⟩ ∧ F (cs ++ [d]) = ⟨.other, cs.length + 1⟩
  stops : ¬leftOpen → F (cs ++ [d]) = F cs

section AtBreak

variable {d : Char} {cs : List Char}

theorem StaysOnLine.append_break {α : Type} {len : α → Nat} {F : List Char → α}
    (h : StaysOnLine len F) (hd : Text.isLineBreak d = true) : F (cs ++ [d]) = F cs := by
  have hline : Text.line (cs ++ [d]) = Text.line cs := by
    unfold Text.line
    rw [List.takeWhile_append, List.takeWhile_cons_of_neg (by simp [hd]), List.append_nil]
    split_ifs with hall
    · exact ((List.takeWhile_prefix _).eq_of_length hall).symm
    · rfl
  rw [h.eq_line, hline, ← h.eq_line]

theorem StaysOnLine.atBreak {F : List Char → Scan} (h : StaysOnLine Scan.extra F)
    (hd : Text.isLineBreak d = true) {leftOpen : Prop} (hopen : ¬leftOpen) :
    AtBreak d F cs leftOpen where
  takes h := absurd h hopen
  stops _ := h.append_break hd

theorem blockClose?_concat (hd : d ≠ '/') : blockClose? (cs ++ [d]) = blockClose? cs := by
  cases hclose : blockClose? (cs ++ [d]) with
  | some n =>
    obtain ⟨-, hn⟩ := blockClose?_le hclose
    rw [List.length_append, List.length_singleton] at hn
    have hlast := getLast?_blockClose? hclose
    have hle : n ≤ cs.length := by
      by_contra hlt
      rw [List.take_of_length_le (by simp; omega), List.getLast?_concat] at hlast
      exact hd (Option.some.inj hlast)
    rw [(blockClose?_append_eq_some_iff hle).mp hclose]
  | none =>
    cases hshort : blockClose? cs with
    | none => rfl
    | some n => rw [blockClose?_extend hshort] at hclose; cases hclose

theorem blockComment_atBreak (hd : Text.isLineBreak d = true) (hcs : cs ≠ []) :
    AtBreak d blockComment cs ((blockComment cs).kind = .other) := by
  obtain ⟨c, cs, rfl⟩ := List.exists_cons_of_ne_nil hcs
  have hne : d ≠ '/' := by
    rintro rfl
    exact absurd hd (by decide)
  have hclose : blockClose? (cs ++ [d]) = blockClose? cs := blockClose?_concat hne
  unfold blockComment
  rw [List.drop_succ_cons, List.drop_zero]
  cases hshort : blockClose? cs with
  | some n => exact ⟨fun h => by simp at h, fun _ => by simp [hclose, hshort]⟩
  | none => exact ⟨fun _ => by simp [hclose, hshort], fun h => by simp at h⟩

section Literals

variable {quote : Char} {escapes : Bool}

theorem triple_concat (hd : d ≠ quote) (hopen : (triple quote escapes cs).1 = false) :
    triple quote escapes (cs ++ [d]) = (false, cs.length + 1) := by
  have hlonger : (triple quote escapes (cs ++ [d])).1 = false := by
    by_contra hclosed
    rw [Bool.not_eq_false] at hclosed
    have hlast := getLast?_triple hclosed
    by_cases hle : (triple quote escapes (cs ++ [d])).2 ≤ cs.length
    · rw [triple_truncate hle, hopen] at hclosed
      cases hclosed
    · rw [List.take_of_length_le (by simp; omega), List.getLast?_concat] at hlast
      exact hd (Option.some.inj hlast)
  have hlength := triple_open hlonger
  rw [List.length_append, List.length_singleton] at hlength
  exact Prod.ext hlonger hlength

theorem isPrefixOf_pair_append_of_ne {ds : List Char} (h : ds.head? ≠ some quote) :
    [quote, quote].isPrefixOf (cs ++ ds) = [quote, quote].isPrefixOf cs := by
  match cs, ds with
  | cs, [] => rw [List.append_nil]
  | [], d :: ds =>
    have hne : quote ≠ d := by simpa [eq_comm] using h
    simp [List.isPrefixOf, hne]
  | [c], d :: ds =>
    have hne : quote ≠ d := by simpa [eq_comm] using h
    simp [List.isPrefixOf, hne]
  | c :: e :: cs, d :: ds => rfl

theorem string_atBreak (hquote : Text.isLineBreak quote = false) (hd : Text.isLineBreak d = true) :
    AtBreak d (string quote escapes) cs
      ((string quote escapes cs).kind = .other ∧ [quote, quote].isPrefixOf cs = true) := by
  have hne : d ≠ quote := by
    rintro rfl
    rw [hd] at hquote
    cases hquote
  have hpair : [quote, quote].isPrefixOf (cs ++ [d]) = [quote, quote].isPrefixOf cs :=
    isPrefixOf_pair_append_of_ne (by simpa using hne)
  by_cases hopens : [quote, quote].isPrefixOf cs = true
  · have hlen := length_of_isPrefixOf_pair hopens
    have hlonger := @string_of_pair quote escapes _ (hpair.trans hopens)
    rw [List.drop_append_of_le_length hlen] at hlonger
    cases hclosed : (triple quote escapes (cs.drop 2)).1 with
    | true =>
      have hkind : (string quote escapes cs).kind ≠ .other := by
        rw [string_of_pair hopens, hclosed]
        simp [literalKind]
      refine ⟨fun h => absurd h.1 hkind, fun _ => ?_⟩
      rw [hlonger, triple_extend hclosed, string_of_pair hopens]
    | false =>
      have hopen : string quote escapes cs = ⟨.other, cs.length⟩ := by
        rw [string_of_pair hopens, hclosed, triple_open hclosed, List.length_drop,
          Nat.sub_add_cancel hlen]
        rfl
      refine ⟨fun _ => ⟨hopen, ?_⟩, fun h => absurd ⟨congrArg kind hopen, hopens⟩ h⟩
      rw [hlonger, triple_concat hne hclosed, List.length_drop]
      simp only [literalKind]
      congr 1
      omega
  · refine ⟨fun h => absurd h.2 hopens, fun _ => ?_⟩
    rw [string_of_not_pair hopens, string_of_not_pair (by rw [hpair]; exact hopens),
      (StaysOnLine.single hquote escapes).append_break hd]

end Literals

theorem not_marks_append_break (hd : Text.isLineBreak d = true) {word rest : List Char}
    (h : ∀ quote ∈ rest.head?, ¬Marks word quote) :
    ∀ quote ∈ (rest ++ [d]).head?, ¬Marks word quote := by
  cases rest with
  | nil =>
    intro quote hhead hmarks
    obtain rfl : d = quote := Option.some.inj hhead
    rcases hmarks.1 with rfl | rfl <;> exact absurd hd (by decide)
  | cons x rest => exact h

/-- What a word makes of a line break is what the literal makes of it that the word
opens, if it does. -/
theorem word_atBreak (hd : Text.isLineBreak d = true) (c : Char) :
    let extra := runLength Text.isNamePart cs
    let word := c :: cs.take extra
    AtBreak d (Scan.word c) cs
      (∃ quote behind, cs.drop extra = quote :: behind ∧ Marks word quote ∧
        (Scan.word c cs).kind = .other ∧ [quote, quote].isPrefixOf behind = true) := by
  intro extra word
  have hle : extra ≤ cs.length := runLength_le _ cs
  have hrun : runLength Text.isNamePart (cs ++ [d]) = extra :=
    (StaysOnLine.run (by decide) (by decide)).append_break hd
  have hlonger : Scan.word c (cs ++ [d]) = wordBefore word extra (cs.drop extra ++ [d]) := by
    rw [word_eq, hrun, List.take_append_of_le_length hle, List.drop_append_of_le_length hle]
  have hshorter : Scan.word c cs = wordBefore word extra (cs.drop extra) := word_eq c cs
  by_cases hmark : ∃ quote ∈ (cs.drop extra).head?, Marks word quote
  · obtain ⟨quote, hhead, hmark⟩ := hmark
    obtain ⟨behind, hbehind⟩ := List.head?_eq_some_iff.mp hhead
    have hquote : Text.isLineBreak quote = false := by
      rcases hmark.1 with rfl | rfl <;> decide
    have hlength : extra + 1 + behind.length = cs.length := by
      have h := congrArg List.length hbehind
      rw [List.length_drop, List.length_cons] at h
      omega
    rw [hbehind, wordBefore_marked hmark] at hshorter
    rw [hbehind, List.cons_append, wordBefore_marked hmark] at hlonger
    obtain ⟨htakes, hstops⟩ :=
      @string_atBreak d behind quote (!(Keyword.lower word).contains 'r') hquote hd
    constructor
    · rintro ⟨quote', behind', hbehind', -, hkind, hpair⟩
      obtain ⟨rfl, rfl⟩ := List.cons.inj (hbehind.symm.trans hbehind')
      rw [hshorter] at hkind
      obtain ⟨hopen, hopen'⟩ := htakes ⟨hkind, hpair⟩
      rw [hshorter, hlonger]
      simp only [markedLiteral, hopen, hopen', ← hlength]
      exact ⟨trivial, rfl⟩
    · intro hclosed
      rw [hlonger, hshorter]
      simp only [markedLiteral]
      rw [hstops]
      rintro ⟨hkind, hpair⟩
      refine hclosed ⟨quote, behind, hbehind, hmark, ?_, hpair⟩
      rw [hshorter]
      exact hkind
  · have hplain : ∀ quote ∈ (cs.drop extra).head?, ¬Marks word quote :=
      fun quote hhead h => hmark ⟨quote, hhead, h⟩
    refine ⟨?_, fun _ => ?_⟩
    · rintro ⟨quote, behind, hbehind, hquote, -⟩
      exact absurd hquote (hplain quote (by rw [hbehind]; rfl))
    · rw [hlonger, hshorter, wordBefore_plain hplain,
        wordBefore_plain (not_marks_append_break hd hplain)]

theorem AtBreak.congr {F G : List Char → Scan} {P Q : Prop} (h : AtBreak d F cs P)
    (hF : F cs = G cs) (hF' : F (cs ++ [d]) = G (cs ++ [d])) (hP : P ↔ Q) : AtBreak d G cs Q := by
  obtain ⟨htakes, hstops⟩ := h
  rw [hF, hF', hP] at *
  exact ⟨htakes, hstops⟩

end AtBreak

theorem isLeftOpen_string {quote : Char} (hquote : quote = '\'' ∨ quote = '"') (escapes : Bool)
    {word : List Char} (hword : ∀ c ∈ word, Text.isNamePart c = true) (cs : List Char) :
    Lexeme.isLeftOpen ⟨(string quote escapes cs).kind,
        word ++ quote :: cs.take (string quote escapes cs).extra⟩ = true ↔
      (string quote escapes cs).kind = .other ∧ [quote, quote].isPrefixOf cs = true := by
  by_cases hkind : (string quote escapes cs).kind = .other
  · rw [hkind, Lexeme.isLeftOpen_quote hquote hword]
    constructor
    · intro hpair
      refine ⟨rfl, ?_⟩
      rw [← List.take_append_drop (string quote escapes cs).extra cs]
      exact isPrefixOf_pair_append hpair
    · rintro ⟨-, hpair⟩
      rw [string_of_pair hpair]
      obtain ⟨rest, rfl⟩ := List.isPrefixOf_iff_prefix.mp hpair
      simp [List.isPrefixOf]
  · simp [Lexeme.not_isLeftOpen_of_kind hkind, hkind]

theorem isLeftOpen_word {c : Char} (hc : Text.isNameStart c = true) (cs : List Char) :
    let extra := runLength Text.isNamePart cs
    Lexeme.isLeftOpen ⟨(word c cs).kind, c :: cs.take (word c cs).extra⟩ = true ↔
      ∃ quote behind, cs.drop extra = quote :: behind ∧ Marks (c :: cs.take extra) quote ∧
        (word c cs).kind = .other ∧ [quote, quote].isPrefixOf behind = true := by
  intro extra
  have hword : ∀ x ∈ c :: cs.take extra, Text.isNamePart x = true := by
    intro x hx
    rcases List.mem_cons.mp hx with rfl | hx
    · exact Text.isNamePart_of_isNameStart hc
    · exact of_mem_take_runLength hx
  rcases word_cases c cs with ⟨quote, behind, hdrop, hmark, heq⟩ | heq
  · have hopen := isLeftOpen_string hmark.1 (!(Keyword.lower (c :: cs.take extra)).contains 'r')
      hword behind
    rw [heq, markedLiteral, cons_take_of_drop hdrop, hopen]
    constructor
    · rintro ⟨hkind, hpair⟩
      exact ⟨quote, behind, hdrop, hmark, hkind, hpair⟩
    · rintro ⟨quote', behind', hdrop', -, hkind, hpair⟩
      obtain ⟨rfl, rfl⟩ := List.cons.inj (hdrop.symm.trans hdrop')
      exact ⟨hkind, hpair⟩
  · have hkind : (word c cs).kind ≠ .other := by
      rw [heq]
      unfold plainWord
      dsimp only
      split_ifs <;> decide
    simp [Lexeme.not_isLeftOpen_of_kind hkind, hkind]

theorem isLeftOpen_blockComment {cs : List Char} (h : cs.head? = some '*') :
    Lexeme.isLeftOpen ⟨(blockComment cs).kind, '/' :: cs.take (blockComment cs).extra⟩ = true ↔
      (blockComment cs).kind = .other := by
  obtain ⟨cs, rfl⟩ := List.head?_eq_some_iff.mp h
  have hpos := blockComment_pos '*' cs
  obtain ⟨n, hn⟩ := Nat.exists_eq_add_of_lt hpos
  rw [hn, Nat.zero_add, List.take_succ_cons]
  simp [Lexeme.isLeftOpen, List.isPrefixOf]

theorem not_isLeftOpen_quotedName (cs : List Char) :
    Lexeme.isLeftOpen ⟨(quotedName cs).kind, '\x60' :: cs.take (quotedName cs).extra⟩ = false := by
  have hname : Text.isNamePart '\x60' = false := by decide
  simp [Lexeme.isLeftOpen, List.isPrefixOf, hname]

theorem not_isLeftOpen_punctuation (c : Char) (cs : List Char) :
    Lexeme.isLeftOpen ⟨(punctuation c cs).kind, c :: cs.take (punctuation c cs).extra⟩ = false := by
  unfold punctuation
  split_ifs
  · exact Lexeme.not_isLeftOpen_of_kind (by decide) _
  · exact Lexeme.not_isLeftOpen_of_kind (by decide) _
  · by_cases hname : Text.isNamePart c = true <;> simp [Lexeme.isLeftOpen, List.isPrefixOf, hname]

end Scan

theorem opening_append_break {d : Char} (hd : Text.isLineBreak d = true) (c : Char)
    (cs : List Char) : opening c (cs ++ [d]).head? = opening c cs.head? := by
  cases cs with
  | nil => exact opening_of_break hd c
  | cons x cs => rfl

/-- A line break behind a text goes into the last lexeme if that is left open, and
changes no lexeme else, but for a carriage return before a line feed. -/
theorem scan_atBreak {c d : Char} {cs : List Char} (hd : Text.isLineBreak d = true)
    (hreturn : ¬(c = '\r' ∧ cs = [] ∧ d = '\n')) :
    Scan.AtBreak d (scan c) cs
      (Lexeme.isLeftOpen ⟨(scan c cs).kind, c :: cs.take (scan c cs).extra⟩ = true) := by
  have hfits := opening_fits c cs.head?
  have hlonger := scan_eq_opening c (cs ++ [d])
  rw [opening_append_break hd] at hlonger
  have hshorter := scan_eq_opening c cs
  rw [hshorter]
  generalize opening c cs.head? = o at hfits hlonger hshorter ⊢
  suffices h : Scan.AtBreak d (fun cs => o.scan c cs) cs
      (Lexeme.isLeftOpen ⟨(o.scan c cs).kind, c :: cs.take (o.scan c cs).extra⟩ = true) from
    h.congr hshorter.symm hlonger.symm Iff.rfl
  have hclosed : TokenKind.other ∉ o.kinds →
      ¬Lexeme.isLeftOpen ⟨(o.scan c cs).kind, c :: cs.take (o.scan c cs).extra⟩ = true := by
    intro hkinds
    have hkind : (o.scan c cs).kind ≠ .other := fun h => hkinds (h ▸ o.kind_scan c cs)
    simp [Lexeme.not_isLeftOpen_of_kind hkind]
  cases o with
  | lineFeed => exact ⟨fun h => absurd h (hclosed (by decide)), fun _ => rfl⟩
  | carriageReturn =>
    obtain rfl : c = '\r' := hfits
    refine ⟨fun h => absurd h (hclosed (by decide)), fun _ => ?_⟩
    cases cs with
    | nil =>
      have hfeed : d ≠ '\n' := fun hfeed => hreturn ⟨rfl, rfl, hfeed⟩
      simp [Opening.scan, hfeed]
    | cons x cs => rfl
  | blank => exact Scan.StaysOnLine.blanks.atBreak hd (hclosed (by decide))
  | lineComment => exact Scan.StaysOnLine.lineComment.atBreak hd (hclosed (by decide))
  | blockComment =>
    obtain ⟨rfl, hstar⟩ := hfits
    have hne : cs ≠ [] := by
      rintro rfl
      cases hstar
    exact (Scan.blockComment_atBreak hd hne).congr rfl rfl (Scan.isLeftOpen_blockComment hstar).symm
  | quote =>
    have hquote : Text.isLineBreak c = false := by rcases hfits with rfl | rfl <;> decide
    exact (Scan.string_atBreak hquote hd).congr rfl rfl
      (Scan.isLeftOpen_string hfits true (List.forall_mem_nil _) cs).symm
  | backtick =>
    obtain rfl : c = '\x60' := hfits
    exact Scan.StaysOnLine.quotedName.atBreak hd
      (by simp [Opening.scan, Scan.not_isLeftOpen_quotedName])
  | sigil => exact Scan.StaysOnLine.parameter.atBreak hd (hclosed (by decide))
  | digit => exact (Scan.StaysOnLine.number c).atBreak hd (hclosed (by decide))
  | point => exact (Scan.StaysOnLine.number c).atBreak hd (hclosed (by decide))
  | letter => exact (Scan.word_atBreak hd c).congr rfl rfl (Scan.isLeftOpen_word hfits cs).symm
  | mark =>
    exact (Scan.StaysOnLine.punctuation c).atBreak hd
      (by simp [Opening.scan, Scan.not_isLeftOpen_punctuation])

theorem settling_lineBreak {d : Char} (hd : Text.isLineBreak d = true) : Settling [d] := by
  apply settling_of_settles
  simp only [Text.isLineBreak, Bool.or_eq_true, beq_iff_eq] at hd
  rcases hd with rfl | rfl <;> decide

namespace Lexeme.ReadBefore

variable {l : Lexeme} {after : List Char}

theorem lexeme_eq {c : Char} {front : List Char} (hchars : l.chars = c :: front)
    (hscan : scan c (front ++ after) = ⟨l.kind, front.length⟩) :
    (⟨(scan c (front ++ after)).kind,
      c :: (front ++ after).take (scan c (front ++ after)).extra⟩ : Lexeme) = l := by
  rw [hscan, List.take_left, ← hchars]

/-- A lexeme that is left open is the last one. -/
theorem eq_nil_of_isLeftOpen (h : l.ReadBefore after) (hopen : l.isLeftOpen = true) :
    after = [] := by
  obtain ⟨c, front, hchars, hscan⟩ := h
  have hbreak : Text.isLineBreak '\r' = true := rfl
  have hat := @scan_atBreak c '\r' (front ++ after) hbreak (by simp)
  rw [lexeme_eq hchars hscan] at hat
  have hlength := congrArg Scan.extra (hscan.symm.trans (hat.takes hopen).1)
  simpa using hlength

theorem lexemes_of_isLeftOpen (h : l.ReadBefore []) (hopen : l.isLeftOpen = true) {d : Char}
    (hd : Text.isLineBreak d = true) : lexemes (l.chars ++ [d]) = [⟨.other, l.chars ++ [d]⟩] := by
  obtain ⟨c, front, hchars, hscan⟩ := h
  have hreturn : ¬(c = '\r' ∧ front ++ [] = [] ∧ d = '\n') := by
    rintro ⟨rfl, hfront, -⟩
    have hname : Text.isNamePart '\r' = false := by decide
    rw [List.append_nil] at hfront
    rw [hfront] at hchars
    simp [isLeftOpen, hchars, List.isPrefixOf, hname] at hopen
  have hat := scan_atBreak hd hreturn
  rw [lexeme_eq hchars hscan] at hat
  have hscan' := (hat.takes hopen).2
  rw [List.append_nil] at hscan'
  rw [hchars, List.cons_append, lexemes_cons, hscan']
  simp [lexemes_nil, List.take_of_length_le]

/-- Every other lexeme may stand before a line break, whatever follows it. -/
theorem lineBreak (h : l.ReadBefore after) (hopen : l.isLeftOpen = false) {d : Char}
    (hd : Text.isLineBreak d = true) (hreturn : after = [] → l.chars = ['\r'] → d ≠ '\n')
    (rest : List Char) : l.ReadBefore (after ++ d :: rest) := by
  obtain ⟨c, front, hchars, hscan⟩ := h
  have hreturn' : ¬(c = '\r' ∧ front ++ after = [] ∧ d = '\n') := by
    rintro ⟨rfl, hnil, hfeed⟩
    obtain ⟨rfl, rfl⟩ := List.append_eq_nil_iff.mp hnil
    exact hreturn rfl hchars hfeed
  have hat := scan_atBreak hd hreturn'
  rw [lexeme_eq hchars hscan] at hat
  have hscan' := (hat.stops (by simp [hopen])).trans hscan
  refine ⟨c, front, hchars, ?_⟩
  have hsettle := settling_lineBreak hd c (front ++ after) (by rw [hscan']; simp) rest
  rw [hscan'] at hsettle
  rw [← hsettle]
  simp

end Lexeme.ReadBefore
end QueryLint
