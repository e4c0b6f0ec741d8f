import QueryLint.Document
import QueryLint.Proofs.Token.Reach
import QueryLint.Proofs.Token.Tiling

/-!
# Lexemes and line breaks

No lexeme ends between a carriage return and its line feed. Most lexemes hold no
line break at all (`Scan.OnLine`); block comments and literals in three quotes
may, but end in a mark of their own or with the text. So walking over a text
lexeme by lexeme is walking over the text, and the positions found that way are
those of the line index.
-/
namespace QueryLint

namespace Scan

/-- Whether a text has none of a class among its first `n` characters. -/
def Avoids (q : Char → Bool) (n : Nat) (cs : List Char) : Prop :=
  ∀ x ∈ cs.take n, q x = false

namespace Avoids

variable {q : Char → Bool} {m n : Nat} {c : Char} {cs : List Char}

theorem zero (cs : List Char) : Avoids q 0 cs := by
  simp [Avoids]

theorem cons (hc : q c = false) (h : Avoids q n cs) : Avoids q (n + 1) (c :: cs) := by
  intro x hx
  rw [List.take_succ_cons] at hx
  rcases List.mem_cons.mp hx with rfl | hx
  · exact hc
  · exact h x hx

theorem add (hm : Avoids q m cs) (hn : Avoids q n (cs.drop m)) : Avoids q (m + n) cs := by
  intro x hx
  rw [List.take_add] at hx
  exact (List.mem_append.mp hx).elim (hm x) (hn x)

theorem of_le (h : Avoids q n cs) (hle : m ≤ n) : Avoids q m cs :=
  fun x hx => h x (List.take_subset_take_left cs hle hx)

theorem ofRun {p : Char → Bool} (h : ∀ x, p x = true → q x = false) (cs : List Char) :
    Avoids q (runLength p cs) cs :=
  fun x hx => h x (of_mem_take_runLength hx)

end Avoids

/-- Whether a text has no line break among its first `n` characters. -/
def OnLine (n : Nat) (cs : List Char) : Prop :=
  Avoids Text.isLineBreak n cs

theorem isLineBreak_eq_false {p : Char → Bool} (hfeed : p '\n' = false) (hreturn : p '\r' = false)
    (x : Char) (hx : p x = true) : Text.isLineBreak x = false := by
  rw [Bool.eq_false_iff]
  intro hbreak
  simp only [Text.isLineBreak, Bool.or_eq_true, beq_iff_eq] at hbreak
  rcases hbreak with rfl | rfl
  · simp [hfeed] at hx
  · simp [hreturn] at hx

theorem OnLine.run {p : Char → Bool} (hfeed : p '\n' = false) (hreturn : p '\r' = false)
    (cs : List Char) : OnLine (runLength p cs) cs :=
  Avoids.ofRun (isLineBreak_eq_false hfeed hreturn) cs

theorem lineComment_onLine (cs : List Char) : OnLine (lineComment cs).extra cs := by
  have hrun : OnLine (runLength (fun c => !Text.isLineBreak c) cs) cs :=
    .run (by decide) (by decide) cs
  exact hrun.of_le (Text.length_trimBlankEnd_le _)

theorem single_onLine {quote : Char} (hquote : Text.isLineBreak quote = false) (escapes : Bool)
    (cs : List Char) : OnLine (single quote escapes cs).2 cs := by
  fun_induction single quote escapes cs with
  | case1 => exact .zero _
  | case2 c cs hc => exact .zero _
  | case3 cs hc => exact .cons hquote (.zero _)
  | case4 c hc _ _ => exact .cons (by simpa using hc) (.zero _)
  | case5 c hc _ _ d ds hd => exact .cons (by simpa using hc) (.zero _)
  | case6 c hc _ _ d ds hd r ih => exact .cons (by simpa using hc) (.cons (by simpa using hd) ih)
  | case7 c cs hc _ _ r ih => exact .cons (by simpa using hc) ih

section Names

variable {q : Char → Bool} (hq : ∀ x, Text.isNamePart x = true → q x = false)
include hq

theorem parameterName_avoids {sigils : Nat} {cs : List Char} (h : Avoids q sigils cs) :
    Avoids q (parameterName sigils (cs.drop sigils)).extra cs := by
  rw [parameterName_eq]
  split_ifs
  · exact h.add (.ofRun hq _)
  · exact .zero _

theorem parameter_avoids (hsigil : q '@' = false) (cs : List Char) :
    Avoids q (parameter cs).extra cs := by
  rcases parameter_cases cs with ⟨name, rfl, heq⟩ | heq
  · rw [heq]
    exact parameterName_avoids hq (.cons hsigil (.zero name))
  · rw [heq]
    exact parameterName_avoids hq (.zero cs)

end Names

theorem parameter_onLine (cs : List Char) : OnLine (parameter cs).extra cs :=
  parameter_avoids (isLineBreak_eq_false (by decide) (by decide)) (by decide) cs

def isNumeric (c : Char) : Bool :=
  Lexer.isHexDigit c || ['.', 'x', 'X', '+', '-'].contains c

section Numbers

variable {q : Char → Bool} (hq : ∀ x, isNumeric x = true → q x = false)
include hq

theorem digits_avoids (cs : List Char) : Avoids q (runLength Char.isDigit cs) cs := by
  apply Avoids.ofRun
  intro x hx
  exact hq x (by simp [isNumeric, Lexer.isHexDigit, hx])

theorem exponentDigits_avoids {lead : Nat} {cs : List Char} (h : Avoids q lead cs) :
    Avoids q (exponentDigits lead (cs.drop lead)) cs := by
  rw [exponentDigits_eq]
  split_ifs
  · exact h.add (digits_avoids hq _)
  · exact .zero _

theorem exponentLength_avoids (cs : List Char) : Avoids q (exponentLength cs) cs := by
  rcases exponentLength_cases cs with ⟨e, sign, ds, rfl, he, hsign, heq⟩ | ⟨e, ds, rfl, he, heq⟩ |
    heq
  · have hmark : q e = false := by rcases he with rfl | rfl <;> exact hq _ (by decide)
    have hmark' : q sign = false := by rcases hsign with rfl | rfl <;> exact hq _ (by decide)
    rw [heq]
    exact exponentDigits_avoids hq (.cons hmark (.cons hmark' (.zero ds)))
  · have hmark : q e = false := by rcases he with rfl | rfl <;> exact hq _ (by decide)
    rw [heq]
    exact exponentDigits_avoids hq (.cons hmark (.zero ds))
  · rw [heq]
    exact .zero _

theorem fractionLength_avoids (cs : List Char) : Avoids q (fractionLength cs) cs := by
  cases cs with
  | nil => exact .zero _
  | cons c cs =>
    simp only [fractionLength]
    split_ifs with hc
    · subst hc
      rw [Nat.add_comm]
      exact .cons (hq '.' (by decide)) (digits_avoids hq cs)
    · exact .zero _

theorem mantissaLength_avoids (c : Char) (cs : List Char) : Avoids q (mantissaLength c cs) cs := by
  have hdigits := digits_avoids hq cs
  unfold mantissaLength
  dsimp only
  split_ifs
  · exact hdigits
  · exact hdigits.add (fractionLength_avoids hq _)

theorem decimal_avoids (c : Char) (cs : List Char) : Avoids q (decimal c cs).extra cs :=
  (mantissaLength_avoids hq c cs).add (exponentLength_avoids hq _)

theorem number_avoids (c : Char) (cs : List Char) : Avoids q (number c cs).extra cs := by
  cases cs with
  | nil =>
    rw [number_nil]
    exact decimal_avoids hq c []
  | cons x cs =>
    rw [number_cons]
    split_ifs with h
    · have hx : q x = false := by rcases h.1.2 with rfl | rfl <;> exact hq _ (by decide)
      have hrun : Avoids q (openedRun Lexer.isHexDigit Lexer.isHexDigit cs) cs := by
        unfold openedRun
        split_ifs
        · exact .ofRun (fun x hx => hq x (by simp [isNumeric, hx])) cs
        · exact .zero _
      dsimp only
      rw [Nat.add_comm]
      exact hrun.cons hx
    · exact decimal_avoids hq c (x :: cs)

end Numbers

theorem number_onLine (c : Char) (cs : List Char) : OnLine (number c cs).extra cs :=
  number_avoids (isLineBreak_eq_false (by decide) (by decide)) c cs

theorem punctuation_avoids {q : Char → Bool} (hq : ∀ pair ∈ Lexer.operators, q pair.2 = false)
    (c : Char) (cs : List Char) : Avoids q (punctuation c cs).extra cs := by
  unfold punctuation
  split_ifs with h
  · cases cs with
    | nil => simp at h
    | cons d cs => exact .cons (hq (c, d) (by simpa using h)) (.zero cs)
  · exact .zero _
  · exact .zero _

theorem punctuation_onLine (c : Char) (cs : List Char) : OnLine (punctuation c cs).extra cs :=
  punctuation_avoids (by decide) c cs

theorem getLast?_blockClose? {cs : List Char} {n : Nat} (h : blockClose? cs = some n) :
    (cs.take n).getLast? = some '/' := by
  obtain ⟨before, hbefore⟩ := (blockClose?_eq_some_iff.mp h).1
  simp [← hbefore]

/-- A block comment ends in a slash, or it is open and takes the rest. -/
theorem blockComment_cases (star : Char) (cs : List Char) :
    ((star :: cs).take (blockComment (star :: cs)).extra).getLast? = some '/' ∨
      blockComment (star :: cs) = ⟨.other, (star :: cs).length⟩ := by
  unfold blockComment
  rw [List.drop_succ_cons, List.drop_zero]
  cases hclose : blockClose? cs with
  | some n =>
    left
    rw [List.take_succ_cons, List.getLast?_cons, getLast?_blockClose? hclose]
    rfl
  | none => exact Or.inr rfl

theorem getLast?_triple {quote : Char} {escapes : Bool} {cs : List Char}
    (h : (triple quote escapes cs).1 = true) :
    (cs.take (triple quote escapes cs).2).getLast? = some quote := by
  fun_induction triple quote escapes cs with
  | case1 => simp at h
  | case2 c cs hclose =>
    obtain ⟨rest, rfl⟩ := List.isPrefixOf_iff_prefix.mp hclose.2
    simp
  | case3 => simp at h
  | case4 c hc d ds r _ ih =>
    rw [List.take_succ_cons, List.take_succ_cons, List.getLast?_cons, List.getLast?_cons, ih h]
    rfl
  | case5 c cs _ _ r ih =>
    rw [List.take_succ_cons, List.getLast?_cons, ih h]
    rfl

theorem string_cases_of_pair {quote : Char} {escapes : Bool} {cs : List Char}
    (hpair : [quote, quote].isPrefixOf cs = true) :
    (cs.take (string quote escapes cs).extra).getLast? = some quote ∨
      string quote escapes cs = ⟨.other, cs.length⟩ := by
  obtain ⟨body, rfl⟩ := List.isPrefixOf_iff_prefix.mp hpair
  have hstring : string quote escapes ([quote, quote] ++ body) =
      ⟨literalKind (triple quote escapes body).1, (triple quote escapes body).2 + 2⟩ :=
    string_of_pair hpair
  rw [hstring]
  cases hclosed : (triple quote escapes body).1 with
  | true =>
    left
    rw [List.cons_append, List.singleton_append, List.take_succ_cons, List.take_succ_cons,
      List.getLast?_cons, List.getLast?_cons, getLast?_triple hclosed]
    rfl
  | false =>
    right
    rw [triple_open hclosed]
    rfl

/-- Whether the lexeme that starts with `c` and takes `n` characters of `cs`
leaves a line break behind it whole. -/
def Whole (c : Char) (cs : List Char) (n : Nat) : Prop :=
  ¬Text.SplitsBreak (c :: cs.take n) (cs.drop n)

section Whole

variable {c d : Char} {cs ds : List Char} {m n : Nat}

theorem Whole.of_onLine (hc : c ≠ '\r') (h : OnLine n cs) : Whole c cs n := by
  intro hsplit
  have hmem : '\r' ∈ c :: cs.take n := List.mem_of_getLast? hsplit.1
  rcases List.mem_cons.mp hmem with hreturn | hreturn
  · exact hc hreturn.symm
  · exact absurd (h '\r' hreturn) (by decide)

theorem Whole.of_getLast? (h : (cs.take n).getLast? = some d) (hd : d ≠ '\r') : Whole c cs n := by
  intro hsplit
  have hreturn := hsplit.1
  rw [List.getLast?_cons, h] at hreturn
  exact hd (Option.some.inj hreturn)

theorem Whole.of_length_le (h : cs.length ≤ n) : Whole c cs n := by
  unfold Whole
  rw [List.drop_eq_nil_of_le h]
  exact Text.SplitsBreak.not_of_nil

theorem cons_take_of_drop (hdrop : cs.drop m = d :: ds) (c : Char) (n : Nat) :
    c :: cs.take (m + 1 + n) = (c :: cs.take m) ++ d :: ds.take n := by
  rw [Nat.add_assoc, List.take_add, hdrop, Nat.add_comm 1, List.take_succ_cons, List.cons_append]

theorem drop_of_drop (hdrop : cs.drop m = d :: ds) (n : Nat) :
    cs.drop (m + 1 + n) = ds.drop n := by
  rw [Nat.add_assoc, ← List.drop_drop, hdrop, Nat.add_comm 1, List.drop_succ_cons]

theorem Whole.of_drop (hdrop : cs.drop m = d :: ds) (h : Whole d ds n) :
    Whole c cs (m + 1 + n) := by
  unfold Whole
  rw [cons_take_of_drop hdrop, drop_of_drop hdrop]
  exact fun hsplit => h (hsplit.of_append_left (List.cons_ne_nil _ _))

theorem blockComment_whole (h : cs ≠ []) : Whole c cs (blockComment cs).extra := by
  obtain ⟨star, cs, rfl⟩ := List.exists_cons_of_ne_nil h
  rcases blockComment_cases star cs with hlast | hopen
  · exact .of_getLast? hlast (by decide)
  · rw [hopen]
    exact .of_length_le (Nat.le_refl _)

theorem string_whole {quote : Char} (hquote : Text.isLineBreak quote = false) (escapes : Bool)
    (cs : List Char) : Whole quote cs (string quote escapes cs).extra := by
  have hne : quote ≠ '\r' := by
    rintro rfl
    exact absurd hquote (by decide)
  by_cases hpair : [quote, quote].isPrefixOf cs = true
  · rcases string_cases_of_pair hpair with hlast | hopen
    · exact .of_getLast? hlast hne
    · rw [hopen]
      exact .of_length_le (Nat.le_refl _)
  · rw [string_of_not_pair hpair]
    exact .of_onLine hne (single_onLine hquote escapes cs)

theorem word_whole (hc : c ≠ '\r') : Whole c cs (word c cs).extra := by
  have hrun : OnLine (runLength Text.isNamePart cs) cs := .run (by decide) (by decide) cs
  rcases word_cases c cs with ⟨quote, behind, hdrop, hmarks, heq⟩ | heq
  · have hquote : Text.isLineBreak quote = false := by rcases hmarks.1 with rfl | rfl <;> decide
    rw [heq]
    exact .of_drop hdrop (string_whole hquote _ behind)
  · rw [heq]
    exact .of_onLine hc hrun

end Whole
end Scan

theorem Opening.Fits.ne_return {c : Char} {next : Option Char} {o : Opening} (h : o.Fits c next)
    (ho : o ≠ carriageReturn) : c ≠ '\r' := by
  rintro rfl
  cases o with
  | carriageReturn => exact ho rfl
  | blank => exact absurd (show Text.isInlineBlank '\r' = true from h) (by decide)
  | digit => exact absurd (show Char.isDigit '\r' = true from h) (by decide)
  | letter => exact absurd (show Text.isNameStart '\r' = true from h) (by decide)
  | mark => exact absurd (show Text.isBlank '\r' = false from h) (by decide)
  | _ => simp [Fits] at h

/-- No lexeme takes a carriage return and leaves its line feed. -/
theorem scan_whole (c : Char) (cs : List Char) : Scan.Whole c cs (scan c cs).extra := by
  have hfits := opening_fits c cs.head?
  have hreturn := hfits.ne_return
  rw [scan_eq_opening]
  generalize opening c cs.head? = o at hfits hreturn ⊢
  cases o with
  | lineFeed => exact .of_onLine (hreturn (by decide)) (.zero cs)
  | carriageReturn =>
    dsimp only [Opening.scan]
    split_ifs with h
    · obtain ⟨rest, rfl⟩ := List.head?_eq_some_iff.mp h
      exact @Scan.Whole.of_getLast? c '\n' ('\n' :: rest) 1 rfl (by decide)
    · exact fun hsplit => h hsplit.2
  | blank => exact .of_onLine (hreturn (by decide)) (.run (by decide) (by decide) cs)
  | lineComment => exact .of_onLine (hreturn (by decide)) (Scan.lineComment_onLine cs)
  | blockComment =>
    refine Scan.blockComment_whole ?_
    rintro rfl
    exact absurd hfits.2 (by simp)
  | quote =>
    have hquote : Text.isLineBreak c = false := by rcases hfits with rfl | rfl <;> decide
    exact Scan.string_whole hquote true cs
  | backtick => exact .of_onLine (hreturn (by decide)) (Scan.single_onLine (by decide) true cs)
  | sigil => exact .of_onLine (hreturn (by decide)) (Scan.parameter_onLine cs)
  | digit => exact .of_onLine (hreturn (by decide)) (Scan.number_onLine c cs)
  | point => exact .of_onLine (hreturn (by decide)) (Scan.number_onLine c cs)
  | letter => exact Scan.word_whole (hreturn (by decide))
  | mark => exact .of_onLine (hreturn (by decide)) (Scan.punctuation_onLine c cs)

theorem not_splitsBreak_of_lexemes {text : List Char} {before after : List Lexeme}
    (h : lexemes text = before ++ after) :
    ¬Text.SplitsBreak (Lexeme.join before) (Lexeme.join after) := by
  induction before generalizing text with
  | nil => exact fun hsplit => by simpa using hsplit.1
  | cons l before ih =>
    obtain ⟨c, cs, rfl, rfl, hrest⟩ := lexemes_eq_cons h
    intro hsplit
    by_cases hbefore : Lexeme.join before = []
    · have hafter : Lexeme.join after = cs.drop (scan c cs).extra := by
        rw [← join_lexemes (cs.drop _), hrest]
        simp [hbefore]
      rw [Lexeme.join_cons, hbefore, List.append_nil, hafter] at hsplit
      exact scan_whole c cs hsplit
    · exact ih hrest (hsplit.of_append_left hbefore)

/-- Walking over the first lexemes of a text is walking over their characters. -/
theorem advanceAll_lexemes {text : List Char} {before after : List Lexeme}
    (h : lexemes text = before ++ after) (p : Position) :
    p.advanceAll before = p.advance (Lexeme.join before) := by
  induction before generalizing text p with
  | nil => rfl
  | cons l before ih =>
    obtain ⟨c, cs, rfl, rfl, hrest⟩ := lexemes_eq_cons h
    have hdrop : cs.drop (scan c cs).extra = Lexeme.join before ++ Lexeme.join after := by
      rw [← join_lexemes (cs.drop _), hrest]
      exact Lexeme.join_append before after
    have hcut : ¬Text.SplitsBreak (c :: cs.take (scan c cs).extra) (Lexeme.join before) := by
      intro hsplit
      have hwhole := scan_whole c cs
      rw [Scan.Whole, hdrop] at hwhole
      exact hwhole (hsplit.append_right (Lexeme.join after))
    rw [Lexeme.join_cons, Position.advance_append hcut, ← ih hrest]
    rfl

theorem position_join {text : List Char} {before after : List Lexeme}
    (h : lexemes text = before ++ after) :
    (Text.LineIndex.ofText text).position (Text.byteLength (Lexeme.join before)) =
      Position.origin.advanceAll before := by
  have htext : text = Lexeme.join before ++ Lexeme.join after := by
    rw [← Lexeme.join_append, ← h, join_lexemes]
  rw [advanceAll_lexemes h, htext]
  exact Text.LineIndex.position_append (not_splitsBreak_of_lexemes h)

/-- The two ways to a token's position agree: the walk that placed it and the
line index of its text. The end of the last token is the end of the document. -/
theorem tokenize_range_eq_position (text : List Char) :
    (∀ t ∈ tokenize text,
      t.range.start = (Text.LineIndex.ofText text).position t.span.start ∧
        t.range.stop = (Text.LineIndex.ofText text).position t.span.stop) ∧
    ∀ t ∈ (tokenize text).getLast?, (Document.parse text).stop = t.range.stop := by
  constructor
  · intro t ht
    obtain ⟨before, l, after, hsplit, rfl⟩ := exists_of_mem_place ht
    have hstart := position_join hsplit
    have hstop := position_join (hsplit.trans (List.append_cons before l after))
    rw [Lexeme.join_concat, Text.byteLength_append, Position.advanceAll_concat] at hstop
    simp only [Lexeme.placed, Nat.zero_add]
    exact ⟨hstart.symm, hstop.symm⟩
  · intro t ht
    have hstop := position_join (List.append_nil (lexemes text)).symm
    rw [join_lexemes] at hstop
    rw [(stop_of_getLast?_place ht).2, ← hstop]
    rfl

/-- A literal left open ends before its line break, escaped or not. -/
theorem tokenize_range_eq_position_escape :
    let text := "'a\\\r\nb".toList
    let t : Token := ⟨⟨.other, ['\'', 'a', '\\']⟩, ⟨⟨0, 0⟩, ⟨0, 3⟩⟩, ⟨0, 3⟩⟩
    t ∈ tokenize text ∧ t.range.stop = (Text.LineIndex.ofText text).position t.span.stop := by
  intro text t
  have ht : t ∈ tokenize text := by decide +kernel
  exact ⟨ht, ((tokenize_range_eq_position text).1 t ht).2⟩

end QueryLint
