import QueryLint.Proofs.Token.Boundary
import QueryLint.Proofs.Token.LineEnding
import QueryLint.Proofs.Token.Names

/-!
# Where a literal ends

A literal ends behind the first closing mark of its body that is not escaped
(`tokenize_literals`). The scans for it never look back: they step over a backslash
together with the character behind it. They find the same mark, because what they have
stepped over ends in an even number of backslashes, so it escapes nothing
(`Scan.isEscaped_append`), and holds no place for the mark (`Scan.Ends.append`). A block
comment ends in the same way, but that nothing in it is escaped.
-/
namespace QueryLint

/-- How many backslashes a text ends in. -/
def Text.backslashes (cs : List Char) : Nat :=
  (cs.reverse.takeWhile (· == '\\')).length

namespace Scan

/-- Whether the backslashes at the end of the text before a place escape what stands there. -/
def isEscaped (escapes : Bool) (before : List Char) : Bool :=
  escapes && Text.backslashes before % 2 == 1

/-- Whether a mark that is not escaped stands in `body` behind `before`. -/
def Stands (mark : List Char) (escapes : Bool) (before body : List Char) : Prop :=
  before ++ mark <+: body ∧ isEscaped escapes before = false

/-- Whether the first mark of `body` that is not escaped stands behind `before`. -/
structure StandsFirst (mark : List Char) (escapes : Bool) (before body : List Char) : Prop where
  stands : Stands mark escapes before body
  first : ∀ earlier, Stands mark escapes earlier body → before.length ≤ earlier.length

/-- What a literal takes of the text in which its closing mark has to stand, and whether
it is closed there. -/
inductive Ends (mark : List Char) (escapes : Bool) (scope : List Char) : Bool → List Char → Prop
  | closed {before : List Char} (h : StandsFirst mark escapes before scope) :
      Ends mark escapes scope true (before ++ mark)
  | leftOpen (h : ∀ before, ¬Stands mark escapes before scope) :
      Ends mark escapes scope false scope

end Scan

namespace Lexeme

/-- Whether a lexeme opens with `opening` and is of the given kind up to its closing mark in
`scope`, or `other` with all of `scope` when no mark closes it there. -/
def IsLiteral (l : Lexeme) (kind : TokenKind) (opening mark : List Char) (escapes : Bool)
    (scope : List Char) : Prop :=
  ∃ closed taken, Scan.Ends mark escapes scope closed taken ∧
    l = ⟨if closed then kind else .other, opening ++ taken⟩

/-- Whether a lexeme is the string literal that a word and a quote open before `behind`.
Three quotes need three to close them, anywhere in the text; one quote needs one on its line.
Backslashes escape unless the word says that the literal is raw. -/
structure IsString (l : Lexeme) (word : List Char) (quote : Char) (behind : List Char) : Prop where
  triple : ∀ body, behind = quote :: quote :: body →
    l.IsLiteral .stringLiteral (word ++ [quote, quote, quote]) [quote, quote, quote]
      (!(Keyword.lower word).contains 'r') body
  single : ¬[quote, quote] <+: behind →
    l.IsLiteral .stringLiteral (word ++ [quote]) [quote] (!(Keyword.lower word).contains 'r')
      (Text.line behind)

end Lexeme

namespace Scan

section Stands

variable {mark before body chunk taken scope : List Char} {escapes closed : Bool}

theorem isEscaped_nil : isEscaped escapes [] = false := by
  cases escapes <;> rfl

/-- An escaping backslash and what it escapes do not escape what follows them. -/
theorem isEscaped_pair (d : Char) : isEscaped escapes ['\\', d] = false := by
  by_cases hd : d = '\\'
  · subst hd
    cases escapes <;> rfl
  · simp [isEscaped, Text.backslashes, hd]

theorem isEscaped_singleton {c : Char} (h : ¬(escapes && c == '\\') = true) :
    isEscaped escapes [c] = false := by
  cases escapes with
  | false => rfl
  | true => simp_all [isEscaped, Text.backslashes]

theorem isEscaped_append (h : isEscaped escapes chunk = false) (before : List Char) :
    isEscaped escapes (chunk ++ before) = isEscaped escapes before := by
  unfold isEscaped Text.backslashes at *
  rw [List.reverse_append, List.takeWhile_append]
  split_ifs with hall
  · -- All of `before` are backslashes, and those before it are even in number.
    cases escapes with
    | false => rfl
    | true =>
      simp only [Bool.true_and, beq_eq_false_iff_ne, ne_eq] at h
      simp only [Bool.true_and, List.length_append, hall, List.length_reverse, beq_eq_beq]
      omega
  · rfl

theorem stands_append_iff (h : isEscaped escapes chunk = false) :
    Stands mark escapes (chunk ++ before) (chunk ++ body) ↔ Stands mark escapes before body := by
  unfold Stands
  rw [isEscaped_append h, List.append_assoc, List.prefix_append_right_inj]

theorem Stands.exists_of_append (h : Stands mark escapes before (chunk ++ body))
    (hle : chunk.length ≤ before.length) : ∃ later, before = chunk ++ later := by
  have hbefore : before <+: chunk ++ body := (List.prefix_append before mark).trans h.1
  have hchunk : chunk <+: before :=
    List.prefix_of_prefix_length_le (List.prefix_append chunk body) hbefore hle
  exact hchunk.imp fun _ => Eq.symm

/-- A scan may step over a chunk that escapes nothing behind it and holds no place for the
mark. -/
theorem Ends.append (hescaped : isEscaped escapes chunk = false)
    (hnone : ∀ before, before.length < chunk.length → ¬Stands mark escapes before (chunk ++ scope))
    (h : Ends mark escapes scope closed taken) :
    Ends mark escapes (chunk ++ scope) closed (chunk ++ taken) := by
  have hlater : ∀ before, Stands mark escapes before (chunk ++ scope) →
      ∃ later, before = chunk ++ later ∧ Stands mark escapes later scope := by
    intro before hstands
    have hle : chunk.length ≤ before.length := Nat.le_of_not_lt fun hlt => hnone before hlt hstands
    obtain ⟨later, rfl⟩ := hstands.exists_of_append hle
    exact ⟨later, rfl, (stands_append_iff hescaped).mp hstands⟩
  cases h with
  | @closed before hfirst =>
    rw [← List.append_assoc]
    refine Ends.closed ⟨(stands_append_iff hescaped).mpr hfirst.stands, fun earlier hearlier => ?_⟩
    obtain ⟨later, rfl, hstands⟩ := hlater earlier hearlier
    have hle := hfirst.first later hstands
    simp only [List.length_append]
    omega
  | leftOpen hopen =>
    refine Ends.leftOpen fun before hbefore => ?_
    obtain ⟨later, rfl, hstands⟩ := hlater before hbefore
    exact hopen later hstands

theorem Ends.close (h : mark <+: scope) : Ends mark escapes scope true mark := by
  have hfirst : StandsFirst mark escapes [] scope :=
    ⟨⟨h, isEscaped_nil⟩, fun _ _ => Nat.zero_le _⟩
  exact Ends.closed hfirst

theorem Ends.isPrefix (h : Ends mark escapes scope closed taken) : taken <+: scope := by
  cases h with
  | closed hfirst => exact hfirst.stands.1
  | leftOpen => exact List.prefix_rfl

theorem Ends.of_nil (hmark : mark ≠ []) : Ends mark escapes [] false [] := by
  refine Ends.leftOpen fun before hstands => hmark ?_
  exact (List.append_eq_nil_iff.mp (List.prefix_nil.mp hstands.1)).2

theorem not_stands_of_ne {quote c : Char} (hc : c ≠ quote) :
    ¬Stands (quote :: mark) escapes [] (c :: body) := by
  rintro ⟨hlead, -⟩
  exact hc (List.cons_prefix_cons.mp hlead).1.symm

theorem Ends.cons {c : Char} (hc : ¬(escapes && c == '\\') = true) (hmark : ¬mark <+: c :: scope)
    (h : Ends mark escapes scope closed taken) :
    Ends mark escapes (c :: scope) closed (c :: taken) := by
  refine h.append (isEscaped_singleton hc) fun before hlt hstands => hmark ?_
  obtain rfl : before = [] := List.eq_nil_of_length_eq_zero (Nat.lt_one_iff.mp hlt)
  exact hstands.1

end Stands

section Backslash

variable {quote : Char} {mark taken scope : List Char} {escapes closed : Bool}

/-- No mark stands at an escaping backslash or right behind it. -/
theorem not_stands_of_backslash (hquote : '\\' ≠ quote) (hescapes : escapes = true)
    {before body : List Char} (hlt : before.length < 2) :
    ¬Stands (quote :: mark) escapes before ('\\' :: body) := by
  subst hescapes
  intro hstands
  cases before with
  | nil => exact not_stands_of_ne hquote hstands
  | cons c before =>
    obtain rfl : before = [] := List.eq_nil_of_length_eq_zero (by simpa using hlt)
    obtain rfl : c = '\\' := (List.cons_prefix_cons.mp hstands.1).1
    exact absurd hstands.2 (by decide)

theorem Ends.escape (hquote : '\\' ≠ quote) (hescapes : escapes = true) (d : Char)
    (h : Ends (quote :: mark) escapes scope closed taken) :
    Ends (quote :: mark) escapes ('\\' :: d :: scope) closed ('\\' :: d :: taken) :=
  h.append (isEscaped_pair d)
    fun _ hlt => not_stands_of_backslash hquote hescapes hlt

theorem Ends.of_backslash (hquote : '\\' ≠ quote) (hescapes : escapes = true) :
    Ends (quote :: mark) escapes ['\\'] false ['\\'] := by
  refine Ends.leftOpen fun before hstands => not_stands_of_backslash hquote hescapes ?_ hstands
  have hle := hstands.1.length_le
  simp only [List.length_append, List.length_cons, List.length_nil] at hle
  omega

end Backslash

section Scans

variable {quote : Char} {escapes : Bool}

theorem eq_backslash_of_escapes {c : Char} (h : (escapes && c == '\\') = true) :
    escapes = true ∧ c = '\\' := by
  simpa using h

theorem single_ends (hquote : '\\' ≠ quote) (escapes : Bool) (cs : List Char) :
    Ends [quote] escapes (Text.line cs) (single quote escapes cs).1
      (cs.take (single quote escapes cs).2) := by
  fun_induction single quote escapes cs with
  | case1 => exact Ends.of_nil (List.cons_ne_nil quote [])
  | case2 c cs hc =>
    rw [Text.line_of_lineBreak hc]
    exact Ends.of_nil (List.cons_ne_nil quote [])
  | case3 cs hc =>
    rw [Text.line_cons hc]
    exact Ends.close (List.cons_prefix_cons.mpr ⟨rfl, List.nil_prefix⟩)
  | case4 c hc hq he =>
    obtain ⟨hescapes, rfl⟩ := eq_backslash_of_escapes he
    rw [Text.line_cons hc]
    exact Ends.of_backslash hquote hescapes
  | case5 c hc hq he d cs hd =>
    obtain ⟨hescapes, rfl⟩ := eq_backslash_of_escapes he
    rw [Text.line_cons hc, Text.line_of_lineBreak hd]
    exact Ends.of_backslash hquote hescapes
  | case6 c hc hq he d cs hd r ih =>
    obtain ⟨hescapes, rfl⟩ := eq_backslash_of_escapes he
    rw [Text.line_cons hc, Text.line_cons hd, List.take_succ_cons, List.take_succ_cons]
    exact ih.escape hquote hescapes d
  | case7 c cs hc hq he r ih =>
    rw [Text.line_cons hc, List.take_succ_cons]
    refine ih.cons he fun hlead => ?_
    exact hq (List.cons_prefix_cons.mp hlead).1.symm

theorem triple_ends (hquote : '\\' ≠ quote) (cs : List Char) :
    Ends [quote, quote, quote] escapes cs (triple quote escapes cs).1
      (cs.take (triple quote escapes cs).2) := by
  fun_induction triple quote escapes cs with
  | case1 => exact Ends.of_nil (List.cons_ne_nil quote _)
  | case2 c cs hc =>
    obtain ⟨rfl, hpair⟩ := hc
    obtain ⟨rest, rfl⟩ := List.isPrefixOf_iff_prefix.mp hpair
    exact Ends.close (List.prefix_append [c, c, c] rest)
  | case3 c he hc =>
    obtain ⟨hescapes, rfl⟩ := eq_backslash_of_escapes he
    exact Ends.of_backslash hquote hescapes
  | case4 c he d cs hc r ih =>
    obtain ⟨hescapes, rfl⟩ := eq_backslash_of_escapes he
    rw [List.take_succ_cons, List.take_succ_cons]
    exact ih.escape hquote hescapes d
  | case5 c cs hc he r ih =>
    rw [List.take_succ_cons]
    refine ih.cons he fun hlead => hc ?_
    obtain ⟨rfl, hpair⟩ := List.cons_prefix_cons.mp hlead
    exact ⟨rfl, List.isPrefixOf_iff_prefix.mpr hpair⟩

/-- A block comment ends like a literal in which nothing is escaped. -/
theorem blockClose?_ends (cs : List Char) :
    Ends ['*', '/'] false cs (blockClose? cs).isSome
      (cs.take ((blockClose? cs).getD cs.length)) := by
  induction cs with
  | nil => exact Ends.of_nil (List.cons_ne_nil '*' _)
  | cons c cs ih =>
    rw [blockClose?]
    split_ifs with hclose
    · obtain ⟨rfl, hslash⟩ := hclose
      obtain ⟨rest, rfl⟩ := List.head?_eq_some_iff.mp hslash
      exact Ends.close (List.prefix_append ['*', '/'] rest)
    · have hextra : ((blockClose? cs).map (· + 1)).getD (cs.length + 1) =
          (blockClose? cs).getD cs.length + 1 := by
        cases blockClose? cs <;> rfl
      rw [Option.isSome_map, List.length_cons, hextra, List.take_succ_cons]
      refine ih.cons (by simp) fun hlead => hclose ?_
      obtain ⟨rfl, hslash⟩ := List.cons_prefix_cons.mp hlead
      obtain ⟨rest, rfl⟩ := hslash
      exact ⟨rfl, rfl⟩

theorem blockComment_isLiteral {body : List Char} {l : Lexeme}
    (hkind : l.kind = (blockComment ('*' :: body)).kind)
    (hchars : l.chars = '/' :: ('*' :: body).take (blockComment ('*' :: body)).extra) :
    l.IsLiteral .comment ['/', '*'] ['*', '/'] false body := by
  have hl : l = ⟨l.kind, l.chars⟩ := rfl
  refine ⟨_, _, blockClose?_ends body, ?_⟩
  rw [hl, hkind, hchars]
  unfold blockComment
  rw [List.drop_succ_cons, List.drop_zero]
  cases blockClose? body with
  | none => simp
  | some n => simp

theorem string_isString {word behind : List Char} (hquote : '\\' ≠ quote)
    (hescapes : escapes = !(Keyword.lower word).contains 'r') {l : Lexeme}
    (hkind : l.kind = (string quote escapes behind).kind)
    (hchars : l.chars = word ++ quote :: behind.take (string quote escapes behind).extra) :
    l.IsString word quote behind := by
  have hl : l = ⟨l.kind, l.chars⟩ := rfl
  subst hescapes
  constructor
  · rintro body rfl
    rw [string_of_pair (by simp)] at hkind hchars
    refine ⟨_, _, triple_ends hquote body, ?_⟩
    rw [hl, hkind, hchars]
    simp [literalKind]
  · intro hpair
    rw [string_of_not_pair (by simpa using hpair)] at hkind hchars
    refine ⟨_, _, single_ends hquote _ behind, ?_⟩
    rw [hl, hkind, hchars]
    simp [literalKind]

theorem word_isString {c : Char} {cs : List Char} {l : Lexeme} (hkind : l.kind = (word c cs).kind)
    (hchars : l.chars = c :: cs.take (word c cs).extra) :
    (∃ word quote behind, c :: cs = word ++ quote :: behind ∧ Marks word quote ∧
      l.IsString word quote behind) ∨ OnLine (word c cs).extra cs := by
  rcases word_cases c cs with ⟨quote, behind, hdrop, hmarks, heq⟩ | heq
  · left
    rw [heq] at hkind hchars
    refine ⟨_, quote, behind, ?_, hmarks, string_isString ?_ rfl hkind ?_⟩
    · rw [← hdrop, List.cons_append, List.take_append_drop]
    · rcases hmarks.1 with rfl | rfl <;> decide
    · exact hchars.trans (cons_take_of_drop hdrop c _)
  · right
    rw [heq]
    exact .run (by decide) (by decide) cs

theorem quotedName_isLiteral {behind : List Char} {l : Lexeme}
    (hkind : l.kind = (quotedName behind).kind)
    (hchars : l.chars = '\x60' :: behind.take (quotedName behind).extra) :
    l.IsLiteral .identifier ['\x60'] ['\x60'] true (Text.line behind) := by
  have hl : l = ⟨l.kind, l.chars⟩ := rfl
  refine ⟨_, _, single_ends (by decide) _ behind, ?_⟩
  rw [hl, hkind, hchars]
  rfl

end Scans

theorem opening_quote {quote : Char} (h : quote = '\'' ∨ quote = '"') (next : Option Char) :
    opening quote next = .quote := by
  rcases h with rfl | rfl <;> exact opening_none (by simp) (by simp) (by simp)

theorem names_of_literalMarks {word : List Char}
    (h : Lexer.literalMarks.contains (Keyword.lower word)) :
    ∀ x ∈ word, opening x none = .letter ∧ Text.isNamePart x = true :=
  names_of_lower (by decide) (List.contains_iff_mem.mp h)

theorem scan_of_marks {c quote : Char} {cs behind : List Char} (h : Marks (c :: cs) quote) :
    scan c (cs ++ quote :: behind) = markedLiteral (c :: cs) cs.length quote behind := by
  have hnames := names_of_literalMarks h.2
  have hrun : runLength Text.isNamePart (cs ++ quote :: behind) = cs.length := by
    refine runLength_append_eq_iff.mpr
      ⟨fun x hx => (hnames x (List.mem_cons_of_mem c hx)).2, fun x hx => ?_⟩
    obtain rfl : quote = x := by simpa using hx
    rcases h.1 with rfl | rfl <;> decide
  rw [scan_eq_opening, opening_of_name (by decide) (hnames c List.mem_cons_self).1]
  change word c (cs ++ quote :: behind) = _
  rw [word_eq, hrun, List.take_left, List.drop_left, wordBefore_marked h]

end Scan

theorem toLexeme_of_start {front cs : List Char} {c : Char} {t : Token}
    (ht : t ∈ tokenize (front ++ c :: cs)) (hstart : t.span.start = Text.byteLength front) :
    t.kind = (scan c cs).kind ∧ t.chars = c :: cs.take (scan c cs).extra := by
  obtain ⟨i, hi⟩ := List.getElem?_of_mem ht
  obtain ⟨before, after, hsplit, -, -, hrest, -⟩ := exists_lexemes_of_token hi hstart
  have hlexemes : lexemes (c :: cs) = t.toLexeme :: after := by
    rw [← hrest]
    exact lexemes_join_right hsplit
  obtain ⟨c', cs', hcons, hlexeme, -⟩ := lexemes_eq_cons hlexemes
  obtain ⟨rfl, rfl⟩ := List.cons.inj hcons
  exact ⟨congrArg Lexeme.kind hlexeme, congrArg Lexeme.chars hlexeme⟩

/-- A token that starts with a quote, or with a word that marks a literal and a quote behind
it, ends behind the first closing mark that is not escaped. Without one it is left open, up
to the end of the text or of its line. A name in backticks ends like a literal in one
quote. -/
theorem tokenize_literals (front rest : List Char) (t : Token) (ht : t ∈ tokenize (front ++ rest))
    (hstart : t.span.start = Text.byteLength front) :
    (∀ word quote behind, rest = word ++ quote :: behind → quote = '\'' ∨ quote = '"' →
      Keyword.lower word ∈ ["", "r", "b", "rb", "br"].map String.toList →
        t.toLexeme.IsString word quote behind) ∧
    ∀ behind, rest = '\x60' :: behind →
      t.toLexeme.IsLiteral .identifier ['\x60'] ['\x60'] true (Text.line behind) := by
  constructor
  · rintro word quote behind rfl hquote hword
    have hne : '\\' ≠ quote := by rcases hquote with rfl | rfl <;> decide
    cases word with
    | nil =>
      obtain ⟨hkind, hchars⟩ := toLexeme_of_start ht hstart
      rw [scan_eq_opening, Scan.opening_quote hquote] at hkind hchars
      exact Scan.string_isString hne rfl hkind hchars
    | cons c cs =>
      have hmarks : Scan.Marks (c :: cs) quote := by
        refine ⟨hquote, List.contains_iff_mem.mpr ?_⟩
        exact (List.mem_cons.mp hword).resolve_left (by simp [Keyword.lower])
      rw [List.cons_append] at ht
      obtain ⟨hkind, hchars⟩ := toLexeme_of_start ht hstart
      rw [Scan.scan_of_marks hmarks] at hkind hchars
      refine Scan.string_isString hne rfl hkind ?_
      rw [hchars]
      simp [Scan.markedLiteral, List.take_append, Nat.add_assoc, Nat.add_comm 1]
  · rintro behind rfl
    obtain ⟨hkind, hchars⟩ := toLexeme_of_start ht hstart
    rw [scan_eq_opening, opening_backtick] at hkind hchars
    exact Scan.quotedName_isLiteral hkind hchars

/-- An escaped quote does not end the literal, nor does the quote behind its line. -/
theorem tokenize_literals_escaped :
    let t : Token := ⟨⟨.other, "b'\\'x".toList⟩, ⟨⟨0, 2⟩, ⟨0, 7⟩⟩, ⟨2, 7⟩⟩
    t ∈ tokenize ("= ".toList ++ "b'\\'x\n'".toList) ∧
      t.toLexeme.IsString ['b'] '\'' "\\'x\n'".toList := by
  intro t
  have ht : t ∈ tokenize ("= ".toList ++ "b'\\'x\n'".toList) := by decide +kernel
  exact ⟨ht, (tokenize_literals "= ".toList _ t ht rfl).1 ['b'] '\'' _ rfl (Or.inl rfl) (by decide)⟩

end QueryLint
