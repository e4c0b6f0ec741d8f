import QueryLint.Proofs.Token.LineBreaks
import QueryLint.Proofs.Token.Truncate

/-!
# Line endings

A text whose lines end in line feeds may be written with carriage returns, or
with pairs of both, in their place. Its lexemes stay the same but for that
(`lexemes_breakWith`), and end at the same positions. A scan that stays on its
line sees nothing of what ends the line; a block comment or a literal in three
quotes steps over every character of a line break, escaped or not.
-/
namespace QueryLint

namespace Text

/-- Whether a text is a line break that begins with a carriage return. -/
def IsReturn (b : List Char) : Prop :=
  b = ['\r', '\n'] ∨ b = ['\r']

/-- A text with the line break `b` in place of each line feed. -/
def breakWith (b cs : List Char) : List Char :=
  cs.flatMap fun c => if c = '\n' then b else [c]

/-- What a text holds before its first line break. -/
def line (cs : List Char) : List Char :=
  cs.takeWhile fun c => !isLineBreak c

theorem line_of_lineBreak {c : Char} (h : isLineBreak c = true) (cs : List Char) :
    line (c :: cs) = [] :=
  List.takeWhile_cons_of_neg (by simp [h])

theorem line_cons {c : Char} (h : ¬isLineBreak c = true) (cs : List Char) :
    line (c :: cs) = c :: line cs :=
  List.takeWhile_cons_of_pos (by simp [h])

section BreakWith

variable {b cs ds : List Char} {c : Char}

theorem ne_feed (h : isLineBreak c = false) : c ≠ '\n' := by
  rintro rfl
  exact absurd h (by decide)

theorem breakWith_feed : breakWith b ('\n' :: cs) = b ++ breakWith b cs := rfl

theorem breakWith_cons (h : c ≠ '\n') : breakWith b (c :: cs) = c :: breakWith b cs := by
  simp [breakWith, h]

theorem breakWith_append : breakWith b (cs ++ ds) = breakWith b cs ++ breakWith b ds :=
  List.flatMap_append

theorem breakWith_eq_self (h : ∀ x ∈ cs, isLineBreak x = false) : breakWith b cs = cs := by
  induction cs with
  | nil => rfl
  | cons c cs ih =>
    rw [breakWith_cons (ne_feed (h c List.mem_cons_self)),
      ih fun x hx => h x (List.mem_cons_of_mem c hx)]

theorem IsReturn.isLineBreak (hb : IsReturn b) : ∀ x ∈ b, isLineBreak x = true := by
  rcases hb with rfl | rfl <;> simp [Text.isLineBreak]

theorem IsReturn.exists_cons (hb : IsReturn b) :
    ∃ rest, b = '\r' :: rest ∧ ∀ x ∈ rest, Text.isLineBreak x = true := by
  rcases hb with rfl | rfl
  · exact ⟨['\n'], rfl, by simp [Text.isLineBreak]⟩
  · exact ⟨[], rfl, by simp⟩

theorem head?_breakWith (hb : IsReturn b) (cs : List Char) :
    (breakWith b cs).head? = cs.head?.map fun c => if c = '\n' then '\r' else c := by
  obtain ⟨rest, rfl, -⟩ := hb.exists_cons
  cases cs with
  | nil => rfl
  | cons c cs =>
    by_cases hc : c = '\n'
    · subst hc
      rfl
    · simp [breakWith_cons hc, hc]

theorem head?_breakWith_ne_feed (hb : IsReturn b) (cs : List Char) :
    (breakWith b cs).head? ≠ some '\n' := by
  intro hhead
  rw [head?_breakWith hb, Option.map_eq_some_iff] at hhead
  obtain ⟨c, -, hc⟩ := hhead
  split_ifs at hc with hfeed
  · exact absurd hc (by decide)
  · exact hfeed hc

theorem head?_breakWith_eq (hb : IsReturn b) (hc : isLineBreak c = false) (cs : List Char) :
    (breakWith b cs).head? = some c ↔ cs.head? = some c := by
  rw [head?_breakWith hb]
  cases cs with
  | nil => rfl
  | cons d cs =>
    simp only [List.head?_cons, Option.map_some, Option.some.injEq]
    split_ifs with hd
    · subst hd
      constructor
      · rintro rfl
        exact absurd hc (by decide)
      · rintro rfl
        exact absurd hc (by decide)
    · rfl

theorem line_breakWith (hb : IsReturn b) (cs : List Char) : line (breakWith b cs) = line cs := by
  obtain ⟨rest, rfl, -⟩ := hb.exists_cons
  induction cs with
  | nil => rfl
  | cons c cs ih =>
    by_cases hc : c = '\n'
    · subst hc
      rfl
    · rw [breakWith_cons hc]
      unfold line at *
      rw [List.takeWhile_cons, List.takeWhile_cons, ih]

theorem isPrefixOf_breakWith (hb : IsReturn b) {word : List Char}
    (hword : ∀ x ∈ word, isLineBreak x = false) (cs : List Char) :
    word.isPrefixOf (breakWith b cs) = word.isPrefixOf cs := by
  induction word generalizing cs with
  | nil => simp
  | cons w word ih =>
    have hw := hword w List.mem_cons_self
    cases cs with
    | nil => rfl
    | cons c cs =>
      by_cases hc : c = '\n'
      · obtain ⟨rest, rfl, -⟩ := hb.exists_cons
        subst hc
        simp only [isLineBreak, Bool.or_eq_false_iff] at hw
        simp [breakWith_feed, List.isPrefixOf, hw]
      · rw [breakWith_cons hc, List.isPrefixOf, List.isPrefixOf,
          ih fun x hx => hword x (List.mem_cons_of_mem w hx)]

end BreakWith

end Text

theorem Position.advance_breakWith {b cs : List Char} (hb : Text.IsReturn b) (h : '\r' ∉ cs)
    (p : Position) : p.advance (Text.breakWith b cs) = p.advance cs := by
  induction cs generalizing p with
  | nil => rfl
  | cons c cs ih =>
    have hcs : '\r' ∉ cs := fun hmem => h (List.mem_cons_of_mem c hmem)
    by_cases hc : c = '\n'
    · subst hc
      have hfeed : p.advance ('\n' :: cs) = advance ⟨p.line + 1, 0⟩ cs := rfl
      rw [hfeed, ← ih hcs, Text.breakWith_feed]
      rcases hb with rfl | rfl
      · rfl
      · have hends : Text.endsLine '\r' (Text.breakWith ['\r'] cs) = true := by
          simpa [Text.endsLine] using Text.head?_breakWith_ne_feed (Or.inr rfl) cs
        rw [List.singleton_append, advance, if_pos hends]
    · have hends : ∀ ds, Text.endsLine c ds = false := by
        intro ds
        have hreturn : c ≠ '\r' := fun hreturn => h (hreturn ▸ List.mem_cons_self)
        simp [Text.endsLine, hc, hreturn]
      simp only [Text.breakWith_cons hc, advance, hends, ih hcs]

namespace Scan

/-- The same scan where the text behind its first character is broken with `b`. -/
def breakWith (b cs : List Char) (s : Scan) : Scan :=
  ⟨s.kind, (Text.breakWith b (cs.take s.extra)).length⟩

/-- Whether a scan that reads `len` characters stays on its line, and does not look
beyond what it reads. -/
structure StaysOnLine {α : Type} (len : α → Nat) (F : List Char → α) : Prop where
  le : ∀ cs, len (F cs) ≤ cs.length
  onLine : ∀ cs, OnLine (len (F cs)) cs
  truncate : ∀ cs ds, len (F (cs ++ ds)) ≤ cs.length → F (cs ++ ds) = F cs

theorem StaysOnLine.run {p : Char → Bool} (hfeed : p '\n' = false) (hreturn : p '\r' = false) :
    StaysOnLine id (runLength p) where
  le := runLength_le p
  onLine := .run hfeed hreturn
  truncate _ _ := runLength_truncate

theorem StaysOnLine.single {quote : Char} (hquote : Text.isLineBreak quote = false)
    (escapes : Bool) : StaysOnLine Prod.snd (Scan.single quote escapes) where
  le := single_le quote escapes
  onLine := single_onLine hquote escapes
  truncate _ _ := single_truncate

theorem StaysOnLine.blanks :
    StaysOnLine Scan.extra fun cs => ⟨.whitespace, runLength Text.isInlineBlank cs⟩ :=
  have hrun : StaysOnLine id (runLength Text.isInlineBlank) := .run (by decide) (by decide)
  ⟨hrun.le, hrun.onLine, fun cs ds h => congrArg _ (hrun.truncate cs ds h)⟩

theorem StaysOnLine.lineComment : StaysOnLine Scan.extra Scan.lineComment where
  le := lineComment_le
  onLine := lineComment_onLine
  truncate _ _ := lineComment_truncate

theorem StaysOnLine.quotedName : StaysOnLine Scan.extra Scan.quotedName where
  le := single_le _ true
  onLine := single_onLine (by decide) true
  truncate _ _ := quotedName_truncate

theorem StaysOnLine.parameter : StaysOnLine Scan.extra Scan.parameter where
  le := parameter_le
  onLine := parameter_onLine
  truncate _ _ := parameter_truncate

theorem StaysOnLine.number (c : Char) : StaysOnLine Scan.extra (Scan.number c) where
  le := number_le c
  onLine := number_onLine c
  truncate _ _ := number_truncate

theorem StaysOnLine.punctuation (c : Char) : StaysOnLine Scan.extra (Scan.punctuation c) where
  le := punctuation_le c
  onLine := punctuation_onLine c
  truncate _ _ := punctuation_truncate

section StaysOnLine

variable {α : Type} {len : α → Nat} {F : List Char → α} {b : List Char}

/-- Such a scan sees nothing but the line. -/
theorem StaysOnLine.eq_line (h : StaysOnLine len F) (cs : List Char) : F cs = F (Text.line cs) := by
  let p : Char → Bool := fun c => !Text.isLineBreak c
  have htake : cs.takeWhile p =
      cs.take (len (F cs)) ++ (cs.drop (len (F cs))).takeWhile p := by
    rw [← List.takeWhile_append_of_pos, List.take_append_drop]
    intro x hx
    simp [p, h.onLine cs x hx]
  have hlen : len (F cs) ≤ (Text.line cs).length := by
    have hmin := h.le cs
    change _ ≤ (cs.takeWhile p).length
    rw [htake, List.length_append, List.length_take]
    omega
  have hcut : Text.line cs ++ cs.dropWhile p = cs := List.takeWhile_append_dropWhile
  have heq := h.truncate (Text.line cs) (cs.dropWhile p)
  rw [hcut] at heq
  exact heq hlen

theorem StaysOnLine.eq_breakWith (h : StaysOnLine len F) (hb : Text.IsReturn b) (cs : List Char) :
    F (Text.breakWith b cs) = F cs := by
  rw [h.eq_line, Text.line_breakWith hb, ← h.eq_line]

theorem breakWith_eq_self {cs : List Char} {s : Scan} (hline : OnLine s.extra cs)
    (hle : s.extra ≤ cs.length) : s.breakWith b cs = s := by
  unfold breakWith
  rw [Text.breakWith_eq_self hline, List.length_take, Nat.min_eq_left hle]

theorem StaysOnLine.scan_breakWith {F : List Char → Scan} (h : StaysOnLine Scan.extra F)
    (hb : Text.IsReturn b) (cs : List Char) :
    F (Text.breakWith b cs) = (F cs).breakWith b cs := by
  rw [breakWith_eq_self (h.onLine cs) (h.le cs)]
  exact h.eq_breakWith hb cs

end StaysOnLine

section OverLines

variable {b : List Char} {quote : Char} {escapes : Bool}

theorem blockClose?_breaks {cs : List Char} (hcs : ∀ x ∈ cs, Text.isLineBreak x = true)
    (ds : List Char) : blockClose? (cs ++ ds) = (blockClose? ds).map (· + cs.length) := by
  induction cs with
  | nil => simp
  | cons c cs ih =>
    have hc : c ≠ '*' := by
      rintro rfl
      exact absurd (hcs '*' List.mem_cons_self) (by decide)
    rw [List.cons_append, blockClose?, if_neg fun h => hc h.1,
      ih fun x hx => hcs x (List.mem_cons_of_mem c hx), Option.map_map]
    rfl

theorem blockClose?_breakWith (hb : Text.IsReturn b) (cs : List Char) :
    blockClose? (Text.breakWith b cs) =
      (blockClose? cs).map fun n => (Text.breakWith b (cs.take n)).length := by
  induction cs with
  | nil => rfl
  | cons c cs ih =>
    by_cases hc : c = '\n'
    · subst hc
      rw [Text.breakWith_feed, blockClose?_breaks hb.isLineBreak, ih, blockClose?,
        if_neg (by simp), Option.map_map, Option.map_map]
      congr 1
      funext n
      simp only [Function.comp_apply, List.take_succ_cons, Text.breakWith_feed,
        List.length_append]
      omega
    · have hslash : (Text.breakWith b cs).head? = some '/' ↔ cs.head? = some '/' :=
        Text.head?_breakWith_eq hb (by decide) cs
      rw [Text.breakWith_cons hc, blockClose?, blockClose?]
      simp only [hslash]
      split_ifs with hclose
      · obtain ⟨rfl, hhead⟩ := hclose
        obtain ⟨rest, rfl⟩ := List.head?_eq_some_iff.mp hhead
        rfl
      · rw [ih, Option.map_map, Option.map_map]
        congr 1
        funext n
        simp only [Function.comp_apply, List.take_succ_cons, Text.breakWith_cons hc,
          List.length_cons]

theorem blockComment_breakWith (hb : Text.IsReturn b) {cs : List Char} (hcs : cs.head? = some '*') :
    blockComment (Text.breakWith b cs) = (blockComment cs).breakWith b cs := by
  obtain ⟨cs, rfl⟩ := List.head?_eq_some_iff.mp hcs
  rw [Text.breakWith_cons (by decide)]
  unfold blockComment
  rw [List.drop_succ_cons, List.drop_zero, List.drop_succ_cons, List.drop_zero,
    blockClose?_breakWith hb]
  cases blockClose? cs with
  | none =>
    simp [breakWith, List.take_of_length_le, Text.breakWith_cons]
  | some n =>
    simp [breakWith, Text.breakWith_cons]

theorem isPrefixOf_pair_breakWith (hb : Text.IsReturn b) (hquote : Text.isLineBreak quote = false)
    (cs : List Char) :
    [quote, quote].isPrefixOf (Text.breakWith b cs) = [quote, quote].isPrefixOf cs := by
  apply Text.isPrefixOf_breakWith hb
  simp [hquote]

theorem triple_breaks (hquote : Text.isLineBreak quote = false) {cs : List Char}
    (hcs : ∀ x ∈ cs, Text.isLineBreak x = true) (ds : List Char) :
    triple quote escapes (cs ++ ds) = (triple quote escapes ds).map id (· + cs.length) := by
  induction cs with
  | nil => rfl
  | cons c cs ih =>
    have hbreak := hcs c List.mem_cons_self
    have hc : c ≠ quote := by
      rintro rfl
      exact absurd hbreak (by simp [hquote])
    have hescape : ¬(escapes && c == '\\') = true := by
      intro h
      rw [Bool.and_eq_true, beq_iff_eq] at h
      rw [h.2] at hbreak
      exact absurd hbreak (by decide)
    rw [List.cons_append, triple_of_plain (fun h => hc h.1) hescape,
      ih fun x hx => hcs x (List.mem_cons_of_mem c hx)]
    rfl

theorem ne_feed_of_escape {c : Char} (h : (escapes && c == '\\') = true) : c ≠ '\n' := by
  rintro rfl
  simp at h

theorem triple_breakWith (hb : Text.IsReturn b) (hquote : Text.isLineBreak quote = false)
    (cs : List Char) :
    triple quote escapes (Text.breakWith b cs) =
      (triple quote escapes cs).map id fun n => (Text.breakWith b (cs.take n)).length := by
  have hpair := isPrefixOf_pair_breakWith hb hquote
  fun_induction triple quote escapes cs with
  | case1 => rfl
  | case2 c cs hclose =>
    obtain ⟨rfl, hpre⟩ := hclose
    have hq := Text.ne_feed hquote
    obtain ⟨rest, rfl⟩ := List.isPrefixOf_iff_prefix.mp hpre
    rw [Text.breakWith_cons hq, triple_of_close (by rw [hpair]; exact hpre)]
    simp [Text.breakWith_cons hq]
    rfl
  | case3 c he hc =>
    have hone : Text.breakWith b [c] = [c] := Text.breakWith_cons (ne_feed_of_escape he)
    rw [hone, triple_of_escape_nil he]
    exact Prod.ext rfl (congrArg List.length hone).symm
  | case4 c he d ds r hc ih =>
    have hfeed := ne_feed_of_escape he
    have hc' : ¬(c = quote ∧ [quote, quote].isPrefixOf (Text.breakWith b (d :: ds)) = true) := by
      rw [hpair]
      exact hc
    rw [Text.breakWith_cons hfeed]
    by_cases hd : d = '\n'
    · -- The escape takes the first character of the break; the others are stepped over.
      subst hd
      obtain ⟨rest, rfl, hrest⟩ := hb.exists_cons
      rw [Text.breakWith_feed, List.cons_append] at hc' ⊢
      rw [triple_of_escape hc' he, triple_breaks hquote hrest, ih]
      refine Prod.ext rfl ?_
      simp only [r, Prod.map_snd, List.take_succ_cons, Text.breakWith_cons hfeed,
        Text.breakWith_feed, List.length_cons, List.length_append]
      omega
    · rw [Text.breakWith_cons hd] at hc' ⊢
      rw [triple_of_escape hc' he, ih]
      refine Prod.ext rfl ?_
      simp only [r, Prod.map_snd, List.take_succ_cons, Text.breakWith_cons hfeed,
        Text.breakWith_cons hd, List.length_cons]
  | case5 c cs hc he r ih =>
    by_cases hfeed : c = '\n'
    · subst hfeed
      rw [Text.breakWith_feed, triple_breaks hquote hb.isLineBreak, ih]
      refine Prod.ext rfl ?_
      simp only [r, Prod.map_snd, List.take_succ_cons, Text.breakWith_feed, List.length_append]
      omega
    · have hc' : ¬(c = quote ∧ [quote, quote].isPrefixOf (Text.breakWith b cs) = true) := by
        rw [hpair]
        exact hc
      rw [Text.breakWith_cons hfeed, triple_of_plain hc' he, ih]
      refine Prod.ext rfl ?_
      simp only [r, Prod.map_snd, List.take_succ_cons, Text.breakWith_cons hfeed, List.length_cons]

theorem string_breakWith (hb : Text.IsReturn b) (hquote : Text.isLineBreak quote = false)
    (escapes : Bool) (cs : List Char) :
    string quote escapes (Text.breakWith b cs) = (string quote escapes cs).breakWith b cs := by
  have hq := Text.ne_feed hquote
  unfold string
  rw [isPrefixOf_pair_breakWith hb hquote]
  split_ifs with hopen
  · obtain ⟨rest, rfl⟩ := List.isPrefixOf_iff_prefix.mp hopen
    simp only [List.cons_append, List.nil_append, Text.breakWith_cons hq, List.drop_succ_cons,
      List.drop_zero, triple_breakWith hb hquote]
    simp [breakWith, Text.breakWith_cons hq]
  · rw [(StaysOnLine.single hquote escapes).eq_breakWith hb, breakWith_eq_self]
    · exact single_onLine hquote escapes cs
    · exact single_le quote escapes cs

/-- A word up to `extra` and what follows, of which the literal that it may open
takes a part. -/
theorem wordBefore_breakWith (hb : Text.IsReturn b) (word : List Char) (extra : Nat)
    (rest : List Char) :
    wordBefore word extra (Text.breakWith b rest) =
      ⟨(wordBefore word extra rest).kind,
        extra +
          (Text.breakWith b (rest.take ((wordBefore word extra rest).extra - extra))).length⟩ := by
  have hquote : ∀ {quote}, Marks word quote → Text.isLineBreak quote = false := by
    rintro quote ⟨rfl | rfl, -⟩ <;> decide
  by_cases hmark : ∃ quote ∈ rest.head?, Marks word quote
  · obtain ⟨quote, hhead, hmark⟩ := hmark
    obtain ⟨rest, rfl⟩ := List.head?_eq_some_iff.mp hhead
    have hq := Text.ne_feed (hquote hmark)
    rw [Text.breakWith_cons hq, wordBefore_marked hmark, wordBefore_marked hmark]
    unfold markedLiteral
    rw [string_breakWith hb (hquote hmark)]
    have hextra : ∀ n : Nat, extra + 1 + n - extra = n + 1 := by
      intro n
      omega
    simp only [breakWith, hextra, List.take_succ_cons, Text.breakWith_cons hq, List.length_cons]
    congr 1
    omega
  · have hplain : ∀ quote ∈ rest.head?, ¬Marks word quote := by
      intro quote hhead hq
      exact hmark ⟨quote, hhead, hq⟩
    rw [wordBefore_plain hplain, wordBefore_plain]
    · simp [plainWord, Text.breakWith]
    · intro quote hhead hq
      exact hplain quote ((Text.head?_breakWith_eq hb (hquote hq) rest).mp hhead) hq

theorem word_breakWith (hb : Text.IsReturn b) (c : Char) (cs : List Char) :
    word c (Text.breakWith b cs) = (word c cs).breakWith b cs := by
  let n := runLength Text.isNamePart cs
  have hrun : runLength Text.isNamePart (Text.breakWith b cs) = n :=
    (StaysOnLine.run (by decide) (by decide)).eq_breakWith hb cs
  have hline : OnLine n cs := .run (by decide) (by decide) cs
  have hlength : (cs.take n).length = n := by
    rw [List.length_take, Nat.min_eq_left (runLength_le _ cs)]
  have hcut : Text.breakWith b cs = cs.take n ++ Text.breakWith b (cs.drop n) := by
    rw [← Text.breakWith_eq_self hline, ← Text.breakWith_append, List.take_append_drop]
  have htake : (Text.breakWith b cs).take n = cs.take n := by
    rw [hcut, List.take_left' hlength]
  have hdrop : (Text.breakWith b cs).drop n = Text.breakWith b (cs.drop n) := by
    rw [hcut, List.drop_left' hlength]
  have hle : n ≤ (word c cs).extra := (wordBefore_le (c :: cs.take n) n (cs.drop n)).1
  have hextra : cs.take (word c cs).extra =
      cs.take n ++ (cs.drop n).take ((word c cs).extra - n) := by
    rw [← List.take_add, Nat.add_sub_cancel' hle]
  rw [word_eq, hrun, htake, hdrop, wordBefore_breakWith hb]
  unfold breakWith
  rw [hextra, Text.breakWith_append, Text.breakWith_eq_self hline, List.length_append, hlength]
  rfl

end OverLines
end Scan

theorem opening_of_break {x : Char} (hx : Text.isLineBreak x = true) (c : Char) :
    opening c (some x) = opening c none := by
  simp only [Text.isLineBreak, Bool.or_eq_true, beq_iff_eq] at hx
  rcases hx with rfl | rfl
  · exact opening_none (by simp) (by simp) (by simp)
  · exact opening_none (by simp) (by simp) (by simp)

theorem opening_breakWith {b : List Char} (hb : Text.IsReturn b) (c : Char) (cs : List Char) :
    opening c (Text.breakWith b cs).head? = opening c cs.head? := by
  rw [Text.head?_breakWith hb]
  cases cs with
  | nil => rfl
  | cons x cs =>
    by_cases hx : x = '\n'
    · subst hx
      rw [List.head?_cons, Option.map_some, if_pos rfl, opening_of_break (by decide),
        opening_of_break (by decide)]
    · rw [List.head?_cons, Option.map_some, if_neg hx]

/-- Every lexeme but a line break itself is read in the same way however lines
end. -/
theorem scan_breakWith {b : List Char} (hb : Text.IsReturn b) {c : Char}
    (hc : Text.isLineBreak c = false) (cs : List Char) :
    scan c (Text.breakWith b cs) = (scan c cs).breakWith b cs := by
  have hfits := opening_fits c cs.head?
  rw [scan_eq_opening, scan_eq_opening, opening_breakWith hb]
  generalize opening c cs.head? = o at hfits ⊢
  cases o with
  | lineFeed =>
    obtain rfl : c = '\n' := hfits
    exact absurd hc (by decide)
  | carriageReturn =>
    obtain rfl : c = '\r' := hfits
    exact absurd hc (by decide)
  | blank => exact Scan.StaysOnLine.blanks.scan_breakWith hb cs
  | lineComment => exact Scan.StaysOnLine.lineComment.scan_breakWith hb cs
  | blockComment => exact Scan.blockComment_breakWith hb hfits.2
  | quote => exact Scan.string_breakWith hb hc true cs
  | backtick => exact Scan.StaysOnLine.quotedName.scan_breakWith hb cs
  | sigil => exact Scan.StaysOnLine.parameter.scan_breakWith hb cs
  | digit => exact (Scan.StaysOnLine.number c).scan_breakWith hb cs
  | point => exact (Scan.StaysOnLine.number c).scan_breakWith hb cs
  | letter => exact Scan.word_breakWith hb c cs
  | mark => exact (Scan.StaysOnLine.punctuation c).scan_breakWith hb cs

def Lexeme.breakWith (b : List Char) (l : Lexeme) : Lexeme :=
  { l with chars := Text.breakWith b l.chars }

theorem lexemes_return {b : List Char} (hb : Text.IsReturn b) {cs : List Char}
    (hcs : cs.head? ≠ some '\n') : lexemes (b ++ cs) = ⟨.newline, b⟩ :: lexemes cs := by
  rcases hb with rfl | rfl
  · exact lexemes_cons '\r' ('\n' :: cs)
  · have hscan : scan '\r' cs = ⟨.newline, 0⟩ := by
      simp [scan, hcs]
    rw [List.singleton_append, lexemes_cons, hscan]
    rfl

theorem lexemes_breakWith {b text : List Char} (hb : Text.IsReturn b) (h : '\r' ∉ text) :
    lexemes (Text.breakWith b text) = (lexemes text).map (·.breakWith b) := by
  induction text using lexemes_induction with
  | nil =>
    rw [lexemes_nil]
    exact lexemes_nil
  | cons c cs ih =>
    have hrest : '\r' ∉ cs.drop (scan c cs).extra := by
      intro hmem
      exact h (List.mem_cons_of_mem c (List.mem_of_mem_drop hmem))
    rw [lexemes_cons c cs, List.map_cons, ← ih hrest]
    by_cases hfeed : c = '\n'
    · subst hfeed
      have hs : scan '\n' cs = ⟨.newline, 0⟩ := if_pos rfl
      have hone : Lexeme.breakWith b ⟨.newline, ['\n']⟩ = ⟨.newline, b⟩ := by
        simp [Lexeme.breakWith, Text.breakWith]
      rw [hs, List.take_zero, List.drop_zero, hone, Text.breakWith_feed]
      exact lexemes_return hb (Text.head?_breakWith_ne_feed hb cs)
    · have hc : Text.isLineBreak c = false := by
        have hreturn : c ≠ '\r' := fun hreturn => h (hreturn ▸ List.mem_cons_self)
        simp [Text.isLineBreak, hfeed, hreturn]
      have hcut : Text.breakWith b cs =
          Text.breakWith b (cs.take (scan c cs).extra) ++
            Text.breakWith b (cs.drop (scan c cs).extra) := by
        rw [← Text.breakWith_append, List.take_append_drop]
      rw [Text.breakWith_cons hfeed, lexemes_cons, scan_breakWith hb hc]
      dsimp only [Scan.breakWith]
      rw [hcut, List.take_left, List.drop_left]
      simp only [Lexeme.breakWith, Text.breakWith_cons hfeed]
/-- The kinds of lexemes that are known by how they are spelled. -/
def TokenKind.isSpelled : TokenKind → Bool
  | identifier | keyword | punctuation => true
  | _ => false

namespace Scan

theorem string_not_isSpelled (quote : Char) (escapes : Bool) (cs : List Char) :
    (string quote escapes cs).kind.isSpelled = false := by
  unfold string
  dsimp only
  split_ifs <;> rfl

theorem blockComment_not_isSpelled (cs : List Char) :
    (blockComment cs).kind.isSpelled = false := by
  unfold blockComment
  split <;> rfl

theorem number_not_isSpelled (c : Char) (cs : List Char) :
    (number c cs).kind.isSpelled = false := by
  unfold number
  dsimp only
  split_ifs <;> rfl

theorem word_onLine {c : Char} {cs : List Char} (h : (word c cs).kind.isSpelled = true) :
    OnLine (word c cs).extra cs := by
  rcases word_cases c cs with ⟨quote, behind, -, -, heq⟩ | heq
  · rw [heq] at h
    exact absurd h (by simp [markedLiteral, string_not_isSpelled])
  · rw [heq]
    exact .run (by decide) (by decide) cs

end Scan

theorem Opening.Fits.not_lineBreak {c : Char} {next : Option Char} {o : Opening} (h : o.Fits c next)
    (hfeed : o ≠ lineFeed) (hreturn : o ≠ carriageReturn) : Text.isLineBreak c = false := by
  have hne : c ≠ '\n' := by
    rintro rfl
    cases o with
    | lineFeed => exact hfeed rfl
    | blank => exact absurd (show Text.isInlineBlank '\n' = true from h) (by decide)
    | digit => exact absurd (show Char.isDigit '\n' = true from h) (by decide)
    | letter => exact absurd (show Text.isNameStart '\n' = true from h) (by decide)
    | mark => exact absurd (show Text.isBlank '\n' = false from h) (by decide)
    | _ => simp [Fits] at h
  simp [Text.isLineBreak, hne, h.ne_return hreturn]

theorem scan_onLine {c : Char} {cs : List Char} (h : (scan c cs).kind.isSpelled = true) :
    Text.isLineBreak c = false ∧ Scan.OnLine (scan c cs).extra cs := by
  have hfits := opening_fits c cs.head?
  have hbreak := hfits.not_lineBreak
  rw [scan_eq_opening] at h ⊢
  generalize opening c cs.head? = o at hfits hbreak h ⊢
  cases o with
  | lineFeed => exact absurd h Bool.false_ne_true
  | carriageReturn => exact absurd h Bool.false_ne_true
  | blank => exact absurd h Bool.false_ne_true
  | lineComment => exact absurd h Bool.false_ne_true
  | blockComment => exact absurd h (by simp [Opening.scan, Scan.blockComment_not_isSpelled])
  | quote => exact absurd h (by simp [Opening.scan, Scan.string_not_isSpelled])
  | backtick => exact ⟨hbreak (by decide) (by decide), Scan.single_onLine (by decide) true cs⟩
  | sigil => exact ⟨hbreak (by decide) (by decide), Scan.parameter_onLine cs⟩
  | digit => exact absurd h (by simp [Opening.scan, Scan.number_not_isSpelled])
  | point => exact absurd h (by simp [Opening.scan, Scan.number_not_isSpelled])
  | letter => exact ⟨hbreak (by decide) (by decide), Scan.word_onLine h⟩
  | mark => exact ⟨hbreak (by decide) (by decide), Scan.punctuation_onLine c cs⟩

theorem not_lineBreak_of_mem_lexemes {text : List Char} {l : Lexeme} (hl : l ∈ lexemes text)
    (h : l.kind.isSpelled = true) : ∀ x ∈ l.chars, Text.isLineBreak x = false := by
  induction text using lexemes_induction with
  | nil => simp [lexemes_nil] at hl
  | cons c cs ih =>
    rw [lexemes_cons] at hl
    rcases List.mem_cons.mp hl with rfl | hl
    · obtain ⟨hc, hline⟩ := scan_onLine h
      intro x hx
      rcases List.mem_cons.mp hx with rfl | hx
      · exact hc
      · exact hline x hx
    · exact ih hl

end QueryLint
