import Mathlib
import QueryLint.Proofs.Token.Opening
import QueryLint.Proofs.Token.Rows
import QueryLint.Proofs.Token.Tiling

/-!
# Letter case

A text in lower case has the lexemes of the text, in lower case
(`lexemes_lower`), and they stand at the same places: no scan tells the cases of
an ASCII letter apart, and both cases take the same room. What a scan asks about a
character it asks of a class of characters that holds both cases of a letter or
neither (`Text.apply_toLower`), or of a single character that is no letter
(`Text.toLower_eq_iff`).
-/
namespace QueryLint

namespace Text

/-- What agrees on both cases of each of the letters from code 65 on does not see
the case of any character. -/
theorem apply_toLower {α : Type} {p : Char → α}
    (h : ∀ n ∈ List.range' 65 26, p (Char.ofNat n).toLower = p (Char.ofNat n)) (c : Char) :
    p c.toLower = p c := by
  by_cases hc : c.isUpper = true
  · have hrange : 65 ≤ c.toNat ∧ c.toNat ≤ 90 := by
      simpa [Char.isUpper, UInt32.le_iff_toNat_le] using hc
    rw [← Char.ofNat_toNat c]
    apply h
    rw [List.mem_range'_1]
    omega
  · rw [Char.toLower_eq_of_not_isUpper hc]

theorem toLower_eq_self {c : Char} (h : c.isAlpha = false) : c.toLower = c := by
  apply Char.toLower_eq_of_not_isUpper
  intro hupper
  simp [Char.isAlpha, hupper] at h

theorem toLower_eq_iff {c d : Char} (hd : d.isAlpha = false) : c.toLower = d ↔ c = d := by
  constructor
  · intro h
    rw [← h, Char.isAlpha_toLower_eq_isAlpha] at hd
    rw [← h, toLower_eq_self hd]
  · rintro rfl
    exact toLower_eq_self hd

theorem eq_or_eq_toUpper {c d : Char} (h : c.toLower = d) : c = d ∨ c = d.toUpper := by
  by_cases hc : c.isUpper = true
  · right
    rw [← h, Char.toUpper_toLower_eq_toUpper,
      Char.toUpper_eq_of_not_isLower (Char.not_isLower_of_isUpper hc)]
  · left
    rw [← h, Char.toLower_eq_of_not_isUpper hc]

theorem isDigit_toLower (c : Char) : c.toLower.isDigit = c.isDigit :=
  apply_toLower (by decide) c

theorem isLineBreak_toLower (c : Char) : isLineBreak c.toLower = isLineBreak c :=
  apply_toLower (by decide) c

theorem isBlank_toLower (c : Char) : isBlank c.toLower = isBlank c :=
  apply_toLower (by decide) c

theorem isNameStart_toLower (c : Char) : isNameStart c.toLower = isNameStart c :=
  apply_toLower (by decide) c

theorem isNamePart_toLower (c : Char) : isNamePart c.toLower = isNamePart c :=
  apply_toLower (by decide) c

theorem isHexDigit_toLower (c : Char) : Lexer.isHexDigit c.toLower = Lexer.isHexDigit c :=
  apply_toLower (by decide) c

theorem utf8Size_toLower (c : Char) : c.toLower.utf8Size = c.utf8Size :=
  apply_toLower (by decide) c

theorem charUnits_toLower (c : Char) : charUnits c.toLower = charUnits c :=
  apply_toLower (by decide) c

end Text

namespace Scan

open Keyword (lower)

variable {p : Char → Bool} {quote : Char} {escapes : Bool}

theorem lower_cons (c : Char) (cs : List Char) : lower (c :: cs) = c.toLower :: lower cs := rfl

theorem take_lower (n : Nat) (cs : List Char) : (lower cs).take n = lower (cs.take n) :=
  List.map_take.symm

theorem drop_lower (n : Nat) (cs : List Char) : (lower cs).drop n = lower (cs.drop n) :=
  List.map_drop.symm

theorem head?_lower (cs : List Char) : (lower cs).head? = cs.head?.map Char.toLower :=
  List.head?_map

theorem any_head?_lower (hp : ∀ c, p c.toLower = p c) (cs : List Char) :
    (lower cs).head?.any p = cs.head?.any p := by
  rw [head?_lower, Option.any_map]
  exact congrArg (cs.head?.any ·) (funext hp)

theorem head?_lower_eq {d : Char} (hd : d.isAlpha = false) (cs : List Char) :
    (lower cs).head? = some d ↔ cs.head? = some d := by
  cases cs with
  | nil => rfl
  | cons c cs => simp [lower_cons, Text.toLower_eq_iff hd]

theorem isPrefixOf_lower {word : List Char} (hword : ∀ d ∈ word, d.isAlpha = false)
    (cs : List Char) : word.isPrefixOf (lower cs) = word.isPrefixOf cs := by
  induction word generalizing cs with
  | nil => simp
  | cons d word ih =>
    cases cs with
    | nil => rfl
    | cons c cs =>
      have hd : (d == c.toLower) = (d == c) := by
        rw [Bool.eq_iff_iff, beq_iff_eq, beq_iff_eq, eq_comm, eq_comm (a := d)]
        exact Text.toLower_eq_iff (hword d List.mem_cons_self)
      rw [lower_cons, List.isPrefixOf, List.isPrefixOf, hd,
        ih fun x hx => hword x (List.mem_cons_of_mem d hx)]

theorem runLength_lower (hp : ∀ c, p c.toLower = p c) (cs : List Char) :
    runLength p (lower cs) = runLength p cs := by
  have hcomp : p ∘ Char.toLower = p := funext hp
  unfold runLength lower
  rw [List.takeWhile_map, hcomp, List.length_map]

theorem lineComment_lower (cs : List Char) : lineComment (lower cs) = lineComment cs := by
  have hbreak : (fun c => !Text.isLineBreak c) ∘ Char.toLower = fun c => !Text.isLineBreak c :=
    funext fun c => congrArg not (Text.isLineBreak_toLower c)
  have hblank : Text.isBlank ∘ Char.toLower = Text.isBlank := funext Text.isBlank_toLower
  unfold lineComment Text.trimBlankEnd lower
  simp only [List.takeWhile_map, hbreak, ← List.map_reverse, List.dropWhile_map, hblank,
    List.length_map]

theorem blockClose?_lower (cs : List Char) : blockClose? (lower cs) = blockClose? cs := by
  induction cs with
  | nil => rfl
  | cons c cs ih =>
    have hstar : c.toLower = '*' ↔ c = '*' := Text.toLower_eq_iff (by decide)
    have hslash : (lower cs).head? = some '/' ↔ cs.head? = some '/' :=
      head?_lower_eq (by decide) cs
    rw [lower_cons, blockClose?, blockClose?, ih]
    simp only [hstar, hslash]

theorem blockComment_lower (cs : List Char) : blockComment (lower cs) = blockComment cs := by
  have hlength : (lower cs).length = cs.length := List.length_map Char.toLower
  unfold blockComment
  rw [drop_lower, blockClose?_lower, hlength]

theorem escapes_lower (c : Char) : (escapes && c.toLower == '\\') = (escapes && c == '\\') := by
  rw [Text.apply_toLower (p := (· == '\\')) (by decide) c]

theorem single_lower (hquote : quote.isAlpha = false) (cs : List Char) :
    single quote escapes (lower cs) = single quote escapes cs := by
  have hq : ∀ {c : Char}, c.toLower = quote ↔ c = quote := Text.toLower_eq_iff hquote
  fun_induction single quote escapes cs with
  | case1 => rfl
  | case2 c cs hc =>
    rw [lower_cons, single_of_lineBreak]
    rw [Text.isLineBreak_toLower, hc]
  | case3 cs hc =>
    rw [lower_cons, Text.toLower_eq_self hquote, single_of_quote hc]
  | case4 c hc hcq he =>
    rw [← Text.isLineBreak_toLower] at hc
    rw [← hq] at hcq
    rw [← escapes_lower] at he
    exact single_of_escape_nil hc hcq he
  | case5 c hc hcq he d ds hd =>
    rw [← Text.isLineBreak_toLower] at hc hd
    rw [← hq] at hcq
    rw [← escapes_lower] at he
    exact single_of_escape_lineBreak hc hcq he hd
  | case6 c hc hcq he d ds hd r ih =>
    rw [← Text.isLineBreak_toLower] at hc hd
    rw [← hq] at hcq
    rw [← escapes_lower] at he
    rw [lower_cons, lower_cons, single_of_escape hc hcq he hd, ih]
    rfl
  | case7 c cs hc hcq he r ih =>
    rw [← Text.isLineBreak_toLower] at hc
    rw [← hq] at hcq
    rw [← escapes_lower] at he
    rw [lower_cons, single_of_plain hc hcq he, ih]
    rfl

theorem triple_lower (hquote : quote.isAlpha = false) (cs : List Char) :
    triple quote escapes (lower cs) = triple quote escapes cs := by
  have hclosed : ∀ c cs, (c.toLower = quote ∧ [quote, quote].isPrefixOf (lower cs) = true) ↔
      (c = quote ∧ [quote, quote].isPrefixOf cs = true) := by
    intro c cs
    rw [Text.toLower_eq_iff hquote, isPrefixOf_lower (by simp [hquote])]
  fun_induction triple quote escapes cs with
  | case1 => rfl
  | case2 c cs hc =>
    obtain ⟨hq, hpre⟩ := (hclosed c cs).mpr hc
    rw [lower_cons, hq, triple_of_close hpre]
  | case3 c he hc =>
    rw [← escapes_lower] at he
    exact triple_of_escape_nil he
  | case4 c he d ds r hc ih =>
    rw [← escapes_lower] at he
    rw [← hclosed, lower_cons] at hc
    rw [lower_cons, lower_cons, triple_of_escape hc he, ih]
    rfl
  | case5 c cs hc he r ih =>
    rw [← escapes_lower] at he
    rw [← hclosed] at hc
    rw [lower_cons, triple_of_plain hc he, ih]
    rfl

theorem string_lower (hquote : quote.isAlpha = false) (escapes : Bool) (cs : List Char) :
    string quote escapes (lower cs) = string quote escapes cs := by
  unfold string
  rw [isPrefixOf_lower (by simp [hquote]), drop_lower, triple_lower hquote, single_lower hquote]

theorem quotedName_lower (cs : List Char) : quotedName (lower cs) = quotedName cs := by
  unfold quotedName
  rw [single_lower (by decide)]

theorem parameter_lower (cs : List Char) : parameter (lower cs) = parameter cs := by
  have hsigil : (lower cs).head? = some '@' ↔ cs.head? = some '@' := head?_lower_eq (by decide) cs
  unfold parameter
  simp only [hsigil, drop_lower, any_head?_lower Text.isNameStart_toLower,
    runLength_lower Text.isNamePart_toLower]

theorem exponentLength_lower (cs : List Char) : exponentLength (lower cs) = exponentLength cs := by
  cases cs with
  | nil => rfl
  | cons e cs =>
    have he : (e.toLower = 'e' ∨ e.toLower = 'E') = (e = 'e' ∨ e = 'E') :=
      Text.apply_toLower (p := fun e => e = 'e' ∨ e = 'E') (by decide) e
    cases cs with
    | nil => simp only [lower_cons, exponentLength, he]; rfl
    | cons sign ds =>
      have hsign : (sign.toLower = '+' ∨ sign.toLower = '-') = (sign = '+' ∨ sign = '-') :=
        Text.apply_toLower (p := fun sign => sign = '+' ∨ sign = '-') (by decide) sign
      have hrun := runLength_lower Text.isDigit_toLower (sign :: ds)
      rw [lower_cons] at hrun
      simp only [lower_cons, exponentLength, he, hsign, Text.isDigit_toLower, hrun,
        any_head?_lower Text.isDigit_toLower, runLength_lower Text.isDigit_toLower]

theorem fractionLength_lower (cs : List Char) : fractionLength (lower cs) = fractionLength cs := by
  cases cs with
  | nil => rfl
  | cons c cs =>
    have hpoint : c.toLower = '.' ↔ c = '.' := Text.toLower_eq_iff (by decide)
    simp only [lower_cons, fractionLength, hpoint, runLength_lower Text.isDigit_toLower]

theorem number_lower (c : Char) (cs : List Char) : number c.toLower (lower cs) = number c cs := by
  have hzero : c.toLower = '0' ↔ c = '0' := Text.toLower_eq_iff (by decide)
  have hpoint : c.toLower = '.' ↔ c = '.' := Text.toLower_eq_iff (by decide)
  have hmark : (lower cs).head?.any (fun x => x == 'x' || x == 'X') =
      cs.head?.any (fun x => x == 'x' || x == 'X') :=
    any_head?_lower (Text.apply_toLower (by decide)) cs
  unfold number
  simp only [hzero, hpoint, hmark, drop_lower, any_head?_lower Text.isHexDigit_toLower,
    runLength_lower Text.isHexDigit_toLower, runLength_lower Text.isDigit_toLower,
    fractionLength_lower, exponentLength_lower]

theorem lower_lower (word : List Char) : lower (lower word) = lower word := by
  unfold lower
  rw [List.map_map]
  exact congrArg (List.map · word) (funext Char.toLower_toLower_eq_toLower)

theorem upper_lower (word : List Char) : Keyword.upper (lower word) = Keyword.upper word := by
  unfold lower Keyword.upper
  rw [List.map_map]
  exact congrArg (List.map · word) (funext Char.toUpper_toLower_eq_toUpper)

theorem wordBefore_lower (word : List Char) (extra : Nat) (rest : List Char) :
    wordBefore (lower word) extra (lower rest) = wordBefore word extra rest := by
  have hplain : plainWord (lower word) extra = plainWord word extra := by
    unfold plainWord Keyword.isKeyword
    rw [upper_lower]
  cases rest with
  | nil => exact hplain
  | cons quote rest =>
    have hquote : (quote.toLower = '\'' ∨ quote.toLower = '"') = (quote = '\'' ∨ quote = '"') :=
      Text.apply_toLower (p := fun quote => quote = '\'' ∨ quote = '"') (by decide) quote
    by_cases hmarks : Marks word quote
    · have halpha : quote.isAlpha = false := by rcases hmarks.1 with rfl | rfl <;> decide
      have hmarks' : Marks (lower word) quote.toLower := by
        unfold Marks at *
        rwa [hquote, lower_lower]
      rw [lower_cons, wordBefore_marked hmarks, wordBefore_marked hmarks']
      unfold markedLiteral
      rw [lower_lower, Text.toLower_eq_self halpha, string_lower halpha]
    · have hmarks' : ¬Marks (lower word) quote.toLower := by
        unfold Marks at *
        rwa [hquote, lower_lower]
      rw [lower_cons, wordBefore_plain, wordBefore_plain, hplain]
      · intro x hx
        obtain rfl : quote = x := by simpa using hx
        exact hmarks
      · intro x hx
        obtain rfl : quote.toLower = x := by simpa using hx
        exact hmarks'

theorem word_lower (c : Char) (cs : List Char) : word c.toLower (lower cs) = word c cs := by
  rw [word_eq, runLength_lower Text.isNamePart_toLower, take_lower, drop_lower, ← lower_cons,
    wordBefore_lower, ← word_eq]

theorem mem_operators_lower (c d : Char) :
    (c.toLower, d.toLower) ∈ Lexer.operators ↔ (c, d) ∈ Lexer.operators := by
  have halpha : ∀ o ∈ Lexer.operators, o.1.isAlpha = false ∧ o.2.isAlpha = false := by decide
  constructor
  · intro h
    obtain ⟨hc, hd⟩ := halpha _ h
    rw [Char.isAlpha_toLower_eq_isAlpha] at hc hd
    rwa [Text.toLower_eq_self hc, Text.toLower_eq_self hd] at h
  · intro h
    obtain ⟨hc, hd⟩ := halpha _ h
    rwa [Text.toLower_eq_self hc, Text.toLower_eq_self hd]

theorem punctuation_lower (c : Char) (cs : List Char) :
    punctuation c.toLower (lower cs) = punctuation c cs := by
  have hmarks : Lexer.marks.contains c.toLower = Lexer.marks.contains c :=
    Text.apply_toLower (p := Lexer.marks.contains) (by decide) c
  have hoperators : (lower cs).head?.any (fun d => Lexer.operators.contains (c.toLower, d)) =
      cs.head?.any (fun d => Lexer.operators.contains (c, d)) := by
    cases cs with
    | nil => rfl
    | cons d cs =>
      rw [lower_cons, List.head?_cons, List.head?_cons, Option.any_some, Option.any_some,
        Bool.eq_iff_iff, List.contains_iff_mem, List.contains_iff_mem]
      exact mem_operators_lower c d
  unfold punctuation
  rw [hmarks, hoperators]

end Scan

open Keyword (lower)

theorem opening_some_letter {x : Char} (hx : x.isAlpha = true) (c : Char) :
    opening c (some x) = opening c none := by
  apply opening_none
  · rintro ⟨-, h⟩
    obtain rfl := Option.some.inj h
    exact absurd hx (by decide)
  · rintro ⟨-, h⟩
    obtain rfl := Option.some.inj h
    exact absurd hx (by decide)
  · rintro ⟨-, h⟩
    simp [Char.isDigit, Char.isAlpha, Char.isUpper, Char.isLower, UInt32.le_iff_toNat_le] at h hx
    omega

theorem opening_letter {c : Char} (hc : c.isAlpha = true) (next : Option Char) :
    opening c next = opening c none := by
  apply opening_none
  · rintro ⟨rfl, -⟩
    exact absurd hc (by decide)
  · rintro ⟨rfl, -⟩
    exact absurd hc (by decide)
  · rintro ⟨rfl, -⟩
    exact absurd hc (by decide)

theorem opening_lower (c : Char) (next : Option Char) :
    opening c.toLower (next.map Char.toLower) = opening c next := by
  have hnext : opening c (next.map Char.toLower) = opening c next := by
    cases next with
    | none => rfl
    | some x =>
      cases hx : x.isAlpha with
      | true =>
        rw [Option.map_some, opening_some_letter hx, opening_some_letter]
        rw [Char.isAlpha_toLower_eq_isAlpha, hx]
      | false => rw [Option.map_some, Text.toLower_eq_self hx]
  cases hc : c.isAlpha with
  | true =>
    have hlower : c.toLower.isAlpha = true := by rw [Char.isAlpha_toLower_eq_isAlpha, hc]
    rw [opening_letter hlower, opening_letter hc]
    exact Text.apply_toLower (p := fun c => opening c none) (by decide) c
  | false => rw [Text.toLower_eq_self hc, hnext]

theorem scan_lower (c : Char) (cs : List Char) : scan c.toLower (lower cs) = scan c cs := by
  have hfits := opening_fits c cs.head?
  rw [scan_eq_opening, scan_eq_opening, Scan.head?_lower, opening_lower]
  generalize opening c cs.head? = o at hfits ⊢
  cases o with
  | lineFeed => rfl
  | carriageReturn =>
    have hfeed : (lower cs).head? = some '\n' ↔ cs.head? = some '\n' :=
      Scan.head?_lower_eq (by decide) cs
    simp only [Opening.scan, hfeed]
  | blank =>
    have hblank : ∀ c : Char, Text.isInlineBlank c.toLower = Text.isInlineBlank c :=
      Text.apply_toLower (by decide)
    simp only [Opening.scan, Scan.runLength_lower hblank]
  | lineComment => exact Scan.lineComment_lower cs
  | blockComment => exact Scan.blockComment_lower cs
  | quote =>
    have halpha : c.isAlpha = false := by rcases hfits with rfl | rfl <;> decide
    simp only [Opening.scan, Text.toLower_eq_self halpha, Scan.string_lower halpha]
  | backtick => exact Scan.quotedName_lower cs
  | sigil => exact Scan.parameter_lower cs
  | digit => exact Scan.number_lower c cs
  | point => exact Scan.number_lower c cs
  | letter => exact Scan.word_lower c cs
  | mark => exact Scan.punctuation_lower c cs

theorem Lexeme.exists_head_of_isKeyword {l : Lexeme} {word : String} (h : l.isKeyword word = true)
    {c : Char} (hc : (lower word.toList).head? = some c) :
    ∃ x ∈ l.chars.head?, x = c ∨ x = c.toUpper := by
  rw [Lexeme.isKeyword, Bool.and_eq_true, beq_iff_eq, beq_iff_eq] at h
  rw [← h.2, Scan.head?_lower] at hc
  obtain ⟨x, hx, hlower⟩ := Option.map_eq_some_iff.mp hc
  exact ⟨x, hx, Text.eq_or_eq_toUpper hlower⟩

def Lexeme.lowered (l : Lexeme) : Lexeme :=
  { l with chars := lower l.chars }

theorem lexemes_lower (text : List Char) :
    lexemes (lower text) = (lexemes text).map Lexeme.lowered := by
  induction text using lexemes_induction with
  | nil =>
    rw [lexemes_nil]
    exact lexemes_nil
  | cons c cs ih =>
    rw [Scan.lower_cons, lexemes_cons, scan_lower, Scan.take_lower, Scan.drop_lower, ih,
      lexemes_cons c cs]
    rfl

theorem byteLength_lower (cs : List Char) : Text.byteLength (lower cs) = Text.byteLength cs := by
  induction cs with
  | nil => rfl
  | cons c cs ih =>
    rw [Scan.lower_cons, Text.byteLength, Text.byteLength, Text.utf8Size_toLower, ih]

theorem advance_lower (p : Position) (cs : List Char) : p.advance (lower cs) = p.advance cs := by
  induction cs generalizing p with
  | nil => rfl
  | cons c cs ih =>
    have hfeed : (c.toLower == '\n') = (c == '\n') :=
      Text.apply_toLower (p := (· == '\n')) (by decide) c
    have hreturn : (c.toLower == '\r') = (c == '\r') :=
      Text.apply_toLower (p := (· == '\r')) (by decide) c
    have hnext : ((lower cs).head? != some '\n') = (cs.head? != some '\n') := by
      rw [Bool.eq_iff_iff, bne_iff_ne, bne_iff_ne, Ne, Scan.head?_lower_eq (by decide)]
    have hends : Text.endsLine c.toLower (lower cs) = Text.endsLine c cs := by
      unfold Text.endsLine
      rw [hfeed, hreturn, hnext]
    rw [Scan.lower_cons, Position.advance, Position.advance, hends, hreturn, Text.charUnits_toLower,
      ih, ih, ih]

def Token.lowered (t : Token) : Token :=
  { t with chars := lower t.chars }

theorem place_lower (p : Position) (offset : Nat) (ls : List Lexeme) :
    place p offset (ls.map Lexeme.lowered) = (place p offset ls).map Token.lowered := by
  induction ls generalizing p offset with
  | nil => rfl
  | cons l ls ih =>
    have hstop : p.advance l.lowered.chars = p.advance l.chars := advance_lower p l.chars
    have hlength : Text.byteLength l.lowered.chars = Text.byteLength l.chars :=
      byteLength_lower l.chars
    have hplaced : l.lowered.placed p offset = (l.placed p offset).lowered := by
      unfold Lexeme.placed
      rw [hstop, hlength]
      rfl
    rw [List.map_cons, place_cons, place_cons, List.map_cons, hstop, hlength, hplaced, ih]

/-- A text in lower case has the tokens of the text, at the same places. -/
theorem tokenize_lower (text : List Char) :
    tokenize (lower text) = (tokenize text).map Token.lowered := by
  unfold tokenize
  rw [lexemes_lower, place_lower]

end QueryLint
