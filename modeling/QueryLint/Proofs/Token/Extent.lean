import QueryLint.Proofs.Text.Bytes
import QueryLint.Proofs.Token.Opening
import QueryLint.Proofs.Token.Rows

/-!
# What the lexer counts

Function by function, the bytes that the lexer counts are those of whole characters: the
first one, and as many behind it as the account by characters says. So what is cut off a
text for a lexeme is neither empty nor more than the text, and the cut never goes through
a character.
-/
namespace QueryLint

/-- The first character `c` and what a scan adds to it, in bytes. -/
def Scan.extent (s : Scan) (c : Char) (cs : List Char) : Extent :=
  ⟨s.kind, Text.byteLength (c :: cs.take s.extra)⟩

namespace Lexer

variable {c : Char} {cs : List Char}

theorem one_cons (c : Char) (cs : List Char) : one (c :: cs) = c.utf8Size :=
  rfl

theorem run_eq (p : Char → Bool) (cs : List Char) :
    run p cs = Text.byteLength (cs.take (Scan.runLength p cs)) := by
  rw [run, Scan.runLength, ← List.prefix_iff_eq_take.mp (List.takeWhile_prefix p)]

theorem run_cons {p : Char → Bool} (h : p c = true) (cs : List Char) :
    run p (c :: cs) = Text.byteLength (c :: cs.take (Scan.runLength p cs)) := by
  rw [Text.byteLength_cons, ← run_eq, run, List.takeWhile_cons_of_pos h]
  rfl

theorem byteLength_add_run (p : Char → Bool) (lead cs : List Char) :
    Text.byteLength lead + run p cs =
      Text.byteLength ((lead ++ cs).take (lead.length + Scan.runLength p cs)) := by
  rw [List.take_length_add_append, Text.byteLength_append, run_eq]

theorem lineComment_eq (h : Text.isBlank c = false) :
    lineComment (c :: cs) = (Scan.lineComment cs).extent c cs := by
  have hprefix : Text.trimBlankEnd (cs.takeWhile fun c => !Text.isLineBreak c) <+: cs :=
    (Text.isPrefix_trimBlankEnd _).trans (List.takeWhile_prefix _)
  rw [lineComment, List.takeWhile_cons, Text.not_isLineBreak_of_not_isBlank h, Bool.not_false,
    if_pos rfl, Text.trimBlankEnd_cons h, Scan.extent, Scan.lineComment,
    ← List.prefix_iff_eq_take.mp hprefix]

theorem blockClose?_eq (cs : List Char) :
    (blockClose? cs).map (· + 2) =
      (Scan.blockClose? cs).map fun n => Text.byteLength (cs.take n) := by
  induction cs with
  | nil => rfl
  | cons c cs ih =>
    by_cases hclose : c = '*' ∧ cs.head? = some '/'
    · obtain ⟨rfl, hslash⟩ := hclose
      obtain ⟨rest, rfl⟩ := List.head?_eq_some_iff.mp hslash
      rfl
    · have hmark : ¬['*', '/'].isPrefixOf (c :: cs) = true := by
        rw [List.isPrefixOf_iff_prefix]
        rintro ⟨rest, hrest⟩
        obtain ⟨rfl, rfl⟩ := List.cons.inj hrest
        exact hclose ⟨rfl, rfl⟩
      have hbehind := congrArg (Option.map (c.utf8Size + ·)) ih
      rw [blockClose?, if_neg hmark, Scan.blockClose?, if_neg hclose]
      simpa [Function.comp_def, Text.byteLength_cons, Nat.add_assoc] using hbehind

theorem blockComment_eq (cs : List Char) :
    blockComment ('/' :: '*' :: cs) = (Scan.blockComment ('*' :: cs)).extent '/' ('*' :: cs) := by
  have hclose := blockClose?_eq cs
  have hbehind : Text.dropBytes 2 ('/' :: '*' :: cs) = cs := Text.dropBytes_append ['/', '*'] cs
  rw [blockComment, hbehind, Scan.blockComment, List.drop_one, List.tail_cons]
  cases hn : Scan.blockClose? cs with
  | none =>
    rw [hn, Option.map_none, Option.map_eq_none_iff] at hclose
    simp [hclose, Scan.extent, List.take_of_length_le]
  | some n =>
    rw [hn, Option.map_some] at hclose
    obtain ⟨i, hi, hsize⟩ := Option.map_eq_some_iff.mp hclose
    have hmarks : '/'.utf8Size = 1 ∧ '*'.utf8Size = 1 := by decide
    simp only [hi, Scan.extent, List.take_succ_cons, Text.byteLength_cons, ← hsize, hmarks,
      Extent.mk.injEq, true_and]
    omega

theorem single_eq {quote : Char} (hquote : quote ≠ '\\') (escapes : Bool) (cs : List Char) :
    single quote escapes cs =
      (Scan.single quote escapes cs).map id fun n => Text.byteLength (cs.take n) := by
  have hne : ∀ c, (escapes && c == '\\') = true → c ≠ quote := by
    rintro c he rfl
    simp at he
    exact hquote he.2
  fun_induction single quote escapes cs with
  | case1 => rfl
  | case2 c cs hc =>
    rw [Scan.single_of_lineBreak hc]
    rfl
  | case3 c hc he =>
    rw [Scan.single_of_escape_nil hc (hne c he) he]
    rfl
  | case4 c hc he d ds hd =>
    rw [Scan.single_of_escape_lineBreak hc (hne c he) he hd]
    rfl
  | case5 c hc he d ds hd r ih =>
    rw [Scan.single_of_escape hc (hne c he) he hd]
    simp only [r, ih, Prod.map, id, List.take_succ_cons, Text.byteLength_cons, Nat.add_assoc]
  | case6 cs hc _ =>
    rw [Scan.single_of_quote hc]
    rfl
  | case7 c cs hc he hq r ih =>
    rw [Scan.single_of_plain hc hq he]
    simp only [r, ih, Prod.map, id, List.take_succ_cons, Text.byteLength_cons]

theorem isPrefixOf_triple {quote c : Char} {cs : List Char} :
    [quote, quote, quote].isPrefixOf (c :: cs) = true ↔
      c = quote ∧ [quote, quote].isPrefixOf cs = true := by
  rw [List.isPrefixOf_cons_cons, Bool.and_eq_true, beq_iff_eq, eq_comm]

theorem triple_eq {quote : Char} (hquote : quote.utf8Size = 1) (escapes : Bool) (cs : List Char) :
    triple quote escapes cs =
      (Scan.triple quote escapes cs).map id fun n => Text.byteLength (cs.take n) := by
  fun_induction triple quote escapes cs with
  | case1 => rfl
  | case2 c cs hclose =>
    obtain ⟨rfl, hpair⟩ := isPrefixOf_triple.mp hclose
    obtain ⟨rest, rfl⟩ := List.isPrefixOf_iff_prefix.mp hpair
    rw [Scan.triple_of_close hpair]
    simp [Text.byteLength, hquote]
  | case3 c he _ =>
    rw [Scan.triple_of_escape_nil he]
    rfl
  | case4 c he d ds r hclose ih =>
    rw [Scan.triple_of_escape (mt isPrefixOf_triple.mpr hclose) he]
    simp only [r, ih, Prod.map, id, List.take_succ_cons, Text.byteLength_cons, Nat.add_assoc]
  | case5 c cs hclose he r ih =>
    rw [Scan.triple_of_plain (mt isPrefixOf_triple.mpr hclose) he]
    simp only [r, ih, Prod.map, id, List.take_succ_cons, Text.byteLength_cons]

theorem string_eq {quote : Char} (hquote : quote = '\'' ∨ quote = '"') (escapes : Bool)
    (cs : List Char) :
    string quote escapes (quote :: cs) = (Scan.string quote escapes cs).extent quote cs := by
  have hsize : quote.utf8Size = 1 := by
    rcases hquote with rfl | rfl <;> decide
  have hne : quote ≠ '\\' := by
    rcases hquote with rfl | rfl <;> decide
  by_cases hpair : [quote, quote].isPrefixOf cs = true
  · obtain ⟨rest, rfl⟩ := List.isPrefixOf_iff_prefix.mp hpair
    have hthree : Text.byteLength [quote, quote, quote] = 3 := by
      simp [Text.byteLength, hsize]
    have hbehind : Text.dropBytes 3 (quote :: ([quote, quote] ++ rest)) = rest := by
      rw [← hthree]
      exact Text.dropBytes_append [quote, quote, quote] rest
    rw [string, if_pos (isPrefixOf_triple.mpr ⟨rfl, hpair⟩), hbehind, triple_eq hsize,
      Scan.string_of_pair hpair]
    simp [Scan.extent, Scan.literalKind, Text.byteLength, hsize]
    omega
  · rw [string, if_neg (mt isPrefixOf_triple.mp fun h => hpair h.2), List.drop_one, List.tail_cons,
      single_eq hne, Scan.string_of_not_pair hpair]
    rfl

theorem quotedName_eq (cs : List Char) :
    quotedName ('\x60' :: cs) = (Scan.quotedName cs).extent '\x60' cs := by
  rw [quotedName, List.drop_one, List.tail_cons, single_eq (by decide)]
  rfl

/-- A name behind more sigils than the first; the first alone, if there is no name. -/
theorem extent_parameterName (sigils name : List Char) :
    (Scan.parameterName sigils.length name).extent '@' (sigils ++ name) =
      if name.head?.any Text.isNameStart then
        ⟨.identifier, Text.byteLength ('@' :: sigils) + run Text.isNamePart name⟩
      else ⟨.punctuation, one ('@' :: (sigils ++ name))⟩ := by
  rw [Scan.parameterName_eq]
  split_ifs
  · rw [byteLength_add_run, Scan.extent, ← List.take_succ_cons, Nat.add_right_comm]
    rfl
  · rfl

theorem parameter_eq (cs : List Char) :
    parameter ('@' :: cs) = (Scan.parameter cs).extent '@' cs := by
  by_cases hsigil : cs.head? = some '@'
  · obtain ⟨name, rfl⟩ := List.head?_eq_some_iff.mp hsigil
    have hpair : ['@', '@'].isPrefixOf ('@' :: '@' :: name) = true := rfl
    have hbehind : Text.dropBytes 2 ('@' :: '@' :: name) = name :=
      Text.dropBytes_append ['@', '@'] name
    simp only [Scan.parameter_sigil, parameter, hpair, if_true, hbehind]
    exact (extent_parameterName ['@'] name).symm
  · have hpair : ¬['@', '@'].isPrefixOf ('@' :: cs) = true := by
      rw [List.isPrefixOf_iff_prefix, List.cons_prefix_cons, and_iff_right rfl]
      rintro ⟨rest, rfl⟩
      exact hsigil rfl
    have hbehind : Text.dropBytes 1 ('@' :: cs) = cs := Text.dropBytes_append ['@'] cs
    simp only [Scan.parameter_of_ne hsigil, parameter, hpair, Bool.false_eq_true, if_false,
      hbehind]
    exact (extent_parameterName [] cs).symm

theorem fraction_eq (cs : List Char) :
    fraction cs = Text.byteLength (cs.take (Scan.fractionLength cs)) := by
  cases cs with
  | nil => rfl
  | cons c cs =>
    by_cases hpoint : c = '.'
    · subst hpoint
      simp [fraction, Scan.fractionLength, run_eq, one_cons, Nat.add_comm 1, Text.byteLength_cons]
    · simp [fraction, Scan.fractionLength, hpoint, Text.byteLength]

theorem exponent_sign {e sign : Char} (he : e = 'e' ∨ e = 'E') (hsign : sign = '+' ∨ sign = '-')
    (ds : List Char) :
    exponent (e :: sign :: ds) =
      if ds.head?.any Char.isDigit then Text.byteLength [e, sign] + run Char.isDigit ds else 0 := by
  have hlead : Text.byteLength [e, sign] = 1 + 1 := by
    rcases he with rfl | rfl <;> rcases hsign with rfl | rfl <;> rfl
  have hbehind : Text.dropBytes (1 + 1) (e :: sign :: ds) = ds := by
    rw [← hlead]
    exact Text.dropBytes_append [e, sign] ds
  have hmark : (e == 'e' || e == 'E') = true := by simpa using he
  have hsign' : (sign == '+' || sign == '-') = true := by simpa using hsign
  simp only [exponent, List.head?_cons, Option.any_some, hmark, List.getElem?_cons_succ,
    hsign', if_true, true_and, hbehind, hlead, ← List.head?_eq_getElem?]

theorem exponent_digits {e : Char} (he : e = 'e' ∨ e = 'E')
    (hsign : ∀ sign ∈ cs.head?, ¬(sign = '+' ∨ sign = '-')) :
    exponent (e :: cs) =
      if cs.head?.any Char.isDigit then Text.byteLength [e] + run Char.isDigit cs else 0 := by
  have hlead : Text.byteLength [e] = 1 := by
    rcases he with rfl | rfl <;> rfl
  have hbehind : Text.dropBytes 1 (e :: cs) = cs := by
    rw [← hlead]
    exact Text.dropBytes_append [e] cs
  have hmark : (e == 'e' || e == 'E') = true := by simpa using he
  have hsign' : ¬cs.head?.any (fun c => c == '+' || c == '-') = true := by
    rw [Option.any_eq_true]
    rintro ⟨sign, hhead, h⟩
    exact hsign sign hhead (by simpa using h)
  simp only [exponent, List.head?_cons, Option.any_some, hmark, List.getElem?_cons_succ, hsign',
    Bool.false_eq_true, if_false, true_and, Nat.add_zero, hbehind, hlead, ← List.head?_eq_getElem?]

theorem exponent_eq (cs : List Char) :
    exponent cs = Text.byteLength (cs.take (Scan.exponentLength cs)) := by
  cases cs with
  | nil => rfl
  | cons e cs =>
    by_cases he : e = 'e' ∨ e = 'E'
    · by_cases hsign : ∃ sign ∈ cs.head?, sign = '+' ∨ sign = '-'
      · obtain ⟨sign, hhead, hsign⟩ := hsign
        obtain ⟨ds, rfl⟩ := List.head?_eq_some_iff.mp hhead
        rw [Scan.exponentLength_sign he hsign, Scan.exponentDigits_eq, exponent_sign he hsign]
        split_ifs
        · exact byteLength_add_run Char.isDigit [e, sign] ds
        · rfl
      · have hnone : ∀ sign ∈ cs.head?, ¬(sign = '+' ∨ sign = '-') := by
          intro sign hhead h
          exact hsign ⟨sign, hhead, h⟩
        rw [Scan.exponentLength_digits he hnone, Scan.exponentDigits_eq, exponent_digits he hnone]
        split_ifs
        · exact byteLength_add_run Char.isDigit [e] cs
        · rfl
    · rw [Scan.exponentLength_of_ne he]
      simp [exponent, he, Text.byteLength]

theorem mantissa_eq (h : c.isDigit = true ∨ c = '.') (cs : List Char) :
    run Char.isDigit (c :: cs) +
        fraction (Text.dropBytes (run Char.isDigit (c :: cs)) (c :: cs)) =
      Text.byteLength (c :: cs.take (Scan.mantissaLength c cs)) := by
  unfold Scan.mantissaLength
  by_cases hpoint : c = '.'
  · subst hpoint
    have hnone : run Char.isDigit ('.' :: cs) = 0 := rfl
    rw [hnone, Text.dropBytes_zero, Nat.zero_add, fraction_eq, Scan.fractionLength, if_pos rfl,
      Nat.add_comm, List.take_succ_cons]
    rfl
  · have hdigit : c.isDigit = true := h.resolve_right hpoint
    have hbehind : Text.dropBytes (run Char.isDigit (c :: cs)) (c :: cs) =
        cs.drop (Scan.runLength Char.isDigit cs) := by
      rw [run_cons hdigit]
      exact Text.dropBytes_take (c :: cs) (Scan.runLength Char.isDigit cs + 1)
    rw [hbehind, run_cons hdigit, fraction_eq, if_neg hpoint, Text.byteLength_cons,
      Text.byteLength_cons, Text.byteLength_take_add, Nat.add_assoc]

theorem isPrefixOf_hex (c : Char) (cs : List Char) :
    (['0', 'x'].isPrefixOf (c :: cs) = true ∨ ['0', 'X'].isPrefixOf (c :: cs) = true) ↔
      c = '0' ∧ cs.head?.any (fun x => x == 'x' || x == 'X') = true := by
  cases cs with
  | nil => simp
  | cons x cs =>
    simp only [List.isPrefixOf_cons_cons, List.isPrefixOf_nil_left, Bool.and_true,
      Bool.and_eq_true, beq_iff_eq, List.head?_cons, Option.any_some, Bool.or_eq_true,
      ← and_or_left]
    rw [eq_comm, @eq_comm _ 'x', @eq_comm _ 'X']

theorem exists_of_hexMark
    (h : c = '0' ∧ cs.head?.any (fun x => x == 'x' || x == 'X') = true) :
    ∃ x ds, cs = x :: ds ∧ Text.byteLength [c, x] = 2 ∧ Text.dropBytes 2 (c :: cs) = ds := by
  obtain ⟨rfl, hmark⟩ := h
  obtain ⟨x, hhead, hx⟩ := (Option.any_eq_true _ _).mp hmark
  obtain ⟨ds, rfl⟩ := List.head?_eq_some_iff.mp hhead
  have hx' : x = 'x' ∨ x = 'X' := by simpa using hx
  have hlead : Text.byteLength ['0', x] = 2 := by
    rcases hx' with rfl | rfl <;> rfl
  refine ⟨x, ds, rfl, hlead, ?_⟩
  rw [← hlead]
  exact Text.dropBytes_append ['0', x] ds

theorem number_hex (hmark : c = '0' ∧ cs.head?.any (fun x => x == 'x' || x == 'X') = true)
    (hdigit : (cs.drop 1).head?.any isHexDigit = true) :
    number (c :: cs) = (Scan.number c cs).extent c cs := by
  obtain ⟨x, ds, rfl, hlead, hdrop⟩ := exists_of_hexMark hmark
  have hdigit' : ds.head?.any isHexDigit = true := hdigit
  have hcut := byteLength_add_run isHexDigit [c, x] ds
  simp only [number, hdrop, hdigit', and_true, (isPrefixOf_hex _ _).mpr hmark, if_true]
  rw [Scan.number, if_pos ⟨hmark.1, hmark.2, hdigit⟩, Scan.extent, ← List.take_succ_cons,
    Nat.add_right_comm, ← hlead]
  exact congrArg _ hcut

theorem number_decimal (h : c.isDigit = true ∨ c = '.')
    (hhex : ¬(c = '0' ∧ cs.head?.any (fun x => x == 'x' || x == 'X') = true ∧
      (cs.drop 1).head?.any isHexDigit = true)) :
    number (c :: cs) = (Scan.decimal c cs).extent c cs := by
  have hplain : ¬((['0', 'x'].isPrefixOf (c :: cs) = true ∨
      ['0', 'X'].isPrefixOf (c :: cs) = true) ∧
      (Text.dropBytes 2 (c :: cs)).head?.any isHexDigit = true) := by
    rintro ⟨hmark, hdigit⟩
    rw [isPrefixOf_hex] at hmark
    obtain ⟨x, ds, rfl, -, hdrop⟩ := exists_of_hexMark hmark
    rw [hdrop] at hdigit
    exact hhex ⟨hmark.1, hmark.2, hdigit⟩
  have hdrop : Text.dropBytes (Text.byteLength (c :: cs.take (Scan.mantissaLength c cs)))
      (c :: cs) = cs.drop (Scan.mantissaLength c cs) :=
    Text.dropBytes_take (c :: cs) (Scan.mantissaLength c cs + 1)
  rw [number]
  dsimp only
  rw [if_neg hplain, mantissa_eq h, hdrop, exponent_eq, Scan.extent, Scan.decimal]
  dsimp only
  rw [Text.byteLength_cons, Text.byteLength_cons, Text.byteLength_take_add, Nat.add_assoc]

theorem number_eq (h : c.isDigit = true ∨ c = '.') (cs : List Char) :
    number (c :: cs) = (Scan.number c cs).extent c cs := by
  by_cases hhex : c = '0' ∧ cs.head?.any (fun x => x == 'x' || x == 'X') = true ∧
      (cs.drop 1).head?.any isHexDigit = true
  · exact number_hex ⟨hhex.1, hhex.2.1⟩ hhex.2.2
  · have hscan : Scan.number c cs = Scan.decimal c cs := if_neg hhex
    rw [hscan]
    exact number_decimal h hhex

theorem word_eq (h : Text.isNameStart c = true) (cs : List Char) :
    word (c :: cs) = (Scan.word c cs).extent c cs := by
  have hsize := run_cons (Text.isNamePart_of_isNameStart h) cs
  have hword : Text.takeBytes (run Text.isNamePart (c :: cs)) (c :: cs) =
      c :: cs.take (Scan.runLength Text.isNamePart cs) := by
    rw [hsize]
    exact Text.takeBytes_take (c :: cs) (Scan.runLength Text.isNamePart cs + 1)
  have hrest : Text.dropBytes (run Text.isNamePart (c :: cs)) (c :: cs) =
      cs.drop (Scan.runLength Text.isNamePart cs) := by
    rw [hsize]
    exact Text.dropBytes_take (c :: cs) (Scan.runLength Text.isNamePart cs + 1)
  simp only [word, hword, hrest]
  rw [hsize, Scan.word_eq]
  cases hbehind : cs.drop (Scan.runLength Text.isNamePart cs) with
  | nil => rfl
  | cons quote rest =>
    by_cases hmark : (quote = '\'' ∨ quote = '"') ∧
        literalMarks.contains (Keyword.lower (c :: cs.take (Scan.runLength Text.isNamePart cs)))
    · dsimp only
      rw [if_pos hmark, Scan.wordBefore_marked hmark, string_eq hmark.1]
      simp only [Scan.markedLiteral, Scan.extent, Nat.add_assoc, Text.byteLength_cons,
        Text.byteLength_take_add, hbehind, Nat.add_comm 1, List.take_succ_cons]
    · rw [Scan.wordBefore_plain (by simpa [Scan.Marks] using hmark)]
      exact if_neg hmark

theorem punctuation_eq (c : Char) (cs : List Char) :
    punctuation c (c :: cs) = (Scan.punctuation c cs).extent c cs := by
  cases hfind : operators.find? fun op => [op.1, op.2].isPrefixOf (c :: cs) with
  | some op =>
    have hprefix : [op.1, op.2].isPrefixOf (c :: cs) = true := by
      simpa using List.find?_some hfind
    obtain ⟨rest, hrest⟩ := List.isPrefixOf_iff_prefix.mp hprefix
    obtain ⟨rfl, hcs⟩ := List.cons.inj hrest
    obtain rfl : op.2 :: rest = cs := hcs
    have hop : (op.2 :: rest).head?.any (fun d => operators.contains (op.1, d)) = true := by
      simpa using List.mem_of_find?_eq_some hfind
    rw [punctuation, hfind, Scan.punctuation, if_pos hop]
    rfl
  | none =>
    have hop : ¬cs.head?.any (fun d => operators.contains (c, d)) = true := by
      intro hop
      obtain ⟨d, hhead, hmem⟩ := (Option.any_eq_true _ _).mp hop
      obtain ⟨rest, rfl⟩ := List.head?_eq_some_iff.mp hhead
      have hnone := List.find?_eq_none.mp hfind (c, d) (List.contains_iff_mem.mp hmem)
      simp at hnone
    rw [punctuation, hfind, Scan.punctuation, if_neg hop]
    split_ifs <;> rfl

theorem extent_ite {p : Prop} [Decidable p] {a b : Extent} {s t : Scan}
    (ha : p → a = s.extent c cs) (hb : ¬p → b = t.extent c cs) :
    (if p then a else b) = (if p then s else t).extent c cs := by
  split_ifs with h
  · exact ha h
  · exact hb h

/-- The lexer counts the bytes of the characters that the account by characters gives a
lexeme. -/
theorem extent_eq (c : Char) (cs : List Char) : extent c cs = (scan c cs).extent c cs := by
  refine extent_ite (fun _ => rfl) fun hfeed => ?_
  refine extent_ite (fun _ => ?_) fun hreturn => ?_
  · split_ifs <;> rfl
  refine extent_ite (fun hblank => ?_) fun hblank => ?_
  · rw [run_cons (by simp [Text.isInlineBlank, Text.isLineBreak, hfeed, hreturn, hblank])]
    rfl
  rw [Bool.not_eq_true] at hblank
  refine extent_ite (fun _ => lineComment_eq hblank) fun _ => ?_
  refine extent_ite (fun _ => lineComment_eq hblank) fun _ => ?_
  refine extent_ite (fun hblock => ?_) fun _ => ?_
  · obtain ⟨rfl, hstar⟩ := hblock
    obtain ⟨rest, rfl⟩ := List.head?_eq_some_iff.mp hstar
    exact blockComment_eq rest
  refine extent_ite (fun hquote => string_eq hquote true cs) fun _ => ?_
  refine extent_ite (fun hbacktick => ?_) fun _ => ?_
  · rw [hbacktick]
    exact quotedName_eq cs
  refine extent_ite (fun hsigil => ?_) fun _ => ?_
  · rw [hsigil]
    exact parameter_eq cs
  refine extent_ite (fun hdigit => number_eq (Or.inl hdigit) cs) fun _ => ?_
  refine extent_ite (fun hpoint => number_eq (Or.inr hpoint.1) cs) fun _ => ?_
  exact extent_ite (fun hstart => word_eq hstart cs) fun _ => punctuation_eq c cs

/-- The bytes of a lexeme are those of whole characters at the start of the text, one at
least. -/
theorem cutAt?_extent (c : Char) (cs : List Char) :
    Text.cutAt? (extent c cs).size (c :: cs) =
      some (c :: cs.take (scan c cs).extra, cs.drop (scan c cs).extra) := by
  have happend := Text.cutAt?_byteLength (c :: cs.take (scan c cs).extra)
    (cs.drop (scan c cs).extra)
  rw [List.cons_append, List.take_append_drop] at happend
  rw [extent_eq]
  exact happend

end Lexer

theorem lexemes_nil : lexemes [] = [] := by
  rw [lexemes]

theorem lexemes_cons (c : Char) (cs : List Char) :
    lexemes (c :: cs) =
      ⟨(scan c cs).kind, c :: cs.take (scan c cs).extra⟩ ::
        lexemes (cs.drop (scan c cs).extra) := by
  rw [lexemes]
  split
  · rename_i hcut
    rw [Lexer.cutAt?_extent] at hcut
    cases hcut
  · rename_i chars rest hcut
    rw [Lexer.cutAt?_extent] at hcut
    obtain ⟨rfl, rfl⟩ := Prod.mk.inj (Option.some.inj hcut)
    rw [Lexer.extent_eq]
    rfl

/-- Induction over the lexemes of a text: from the rest behind the first lexeme to the
whole. -/
theorem lexemes_induction {motive : List Char → Prop} (nil : motive [])
    (cons : ∀ c cs, motive (cs.drop (scan c cs).extra) → motive (c :: cs)) (text : List Char) :
    motive text := by
  induction hn : text.length using Nat.strong_induction_on generalizing text with
  | _ n ih =>
    cases text with
    | nil => exact nil
    | cons c cs =>
      apply cons
      refine ih _ ?_ _ rfl
      rw [← hn, List.length_drop, List.length_cons]
      omega

end QueryLint
