import QueryLint.Proofs.Token.Scan
import Mathlib.Data.List.TakeWhile
import Mathlib.Tactic.SplitIfs

/-!
# The scans row by row

Equations for the scans that read character by character, one for each way a
step can go, and forms of the scans that look ahead: a parameter, a hexadecimal
number and an exponent are there only if the run of characters that they need
is. Everything else about these scans is proved from here.
-/
namespace QueryLint
namespace Scan

section Literals

variable {quote : Char} {escapes : Bool} {c d : Char} {cs : List Char}

theorem single_of_lineBreak (h : Text.isLineBreak c = true) :
    single quote escapes (c :: cs) = (false, 0) := by
  rw [single.eq_def]
  simp [h]

theorem single_of_quote (h : ¬Text.isLineBreak quote = true) :
    single quote escapes (quote :: cs) = (true, 1) := by
  rw [single.eq_def]
  simp [h]

theorem single_of_escape_nil (hc : ¬Text.isLineBreak c = true) (hq : ¬c = quote)
    (he : (escapes && c == '\\') = true) : single quote escapes [c] = (false, 1) := by
  rw [single.eq_def]
  simp [hc, hq, he]

theorem single_of_escape_lineBreak (hc : ¬Text.isLineBreak c = true) (hq : ¬c = quote)
    (he : (escapes && c == '\\') = true) (hd : Text.isLineBreak d = true) :
    single quote escapes (c :: d :: cs) = (false, 1) := by
  rw [single.eq_def]
  simp [hc, hq, he, hd]

theorem single_of_escape (hc : ¬Text.isLineBreak c = true) (hq : ¬c = quote)
    (he : (escapes && c == '\\') = true) (hd : ¬Text.isLineBreak d = true) :
    single quote escapes (c :: d :: cs) = (single quote escapes cs).map id (· + 2) := by
  rw [single.eq_def]
  simp only [hc, hq, he, hd]
  rfl

theorem single_of_plain (hc : ¬Text.isLineBreak c = true) (hq : ¬c = quote)
    (he : ¬(escapes && c == '\\') = true) :
    single quote escapes (c :: cs) = (single quote escapes cs).map id (· + 1) := by
  rw [single.eq_def]
  simp only [hc, hq, he]
  rfl

theorem triple_of_close (h : [quote, quote].isPrefixOf cs = true) :
    triple quote escapes (quote :: cs) = (true, 3) := by
  rw [triple.eq_def]
  simp [h]

theorem triple_of_escape_nil (he : (escapes && c == '\\') = true) :
    triple quote escapes [c] = (false, 1) := by
  rw [triple.eq_def]
  simp [he]

theorem triple_of_escape (hc : ¬(c = quote ∧ [quote, quote].isPrefixOf (d :: cs) = true))
    (he : (escapes && c == '\\') = true) :
    triple quote escapes (c :: d :: cs) = (triple quote escapes cs).map id (· + 2) := by
  rw [triple.eq_def]
  simp only [hc, he]
  rfl

theorem triple_of_plain (hc : ¬(c = quote ∧ [quote, quote].isPrefixOf cs = true))
    (he : ¬(escapes && c == '\\') = true) :
    triple quote escapes (c :: cs) = (triple quote escapes cs).map id (· + 1) := by
  rw [triple.eq_def]
  simp only [hc, he]
  rfl

/-- The kind of a literal that is closed, or left open. -/
def literalKind (closed : Bool) : TokenKind :=
  if closed then .stringLiteral else .other

theorem string_of_pair (h : [quote, quote].isPrefixOf cs = true) :
    string quote escapes cs =
      ⟨literalKind (triple quote escapes (cs.drop 2)).1,
        (triple quote escapes (cs.drop 2)).2 + 2⟩ :=
  if_pos h

theorem string_of_not_pair (h : ¬[quote, quote].isPrefixOf cs = true) :
    string quote escapes cs =
      ⟨literalKind (single quote escapes cs).1, (single quote escapes cs).2⟩ :=
  if_neg h

theorem length_of_isPrefixOf_pair (h : [c, c].isPrefixOf cs = true) : 2 ≤ cs.length :=
  (List.isPrefixOf_iff_prefix.mp h).length_le

end Literals

/-- What closes a block comment is the first mark that can. -/
theorem blockClose?_eq_some_iff {cs : List Char} {n : Nat} :
    blockClose? cs = some n ↔
      ['*', '/'] <:+ cs.take n ∧ ∀ m < n, ¬['*', '/'] <:+ cs.take m := by
  induction cs generalizing n with
  | nil => simp [blockClose?]
  | cons c cs ih =>
    have hshort : ∀ m < 2, ¬['*', '/'] <:+ (c :: cs).take m := by
      intro m hm hmark
      have hle := hmark.length_le.trans (List.length_take_le m (c :: cs))
      simp only [List.length_cons, List.length_nil] at hle
      omega
    rw [blockClose?]
    split_ifs with hc
    · obtain ⟨rfl, hslash⟩ := hc
      obtain ⟨rest, rfl⟩ := List.head?_eq_some_iff.mp hslash
      have htwo : ['*', '/'] <:+ ('*' :: '/' :: rest).take 2 := List.suffix_rfl
      constructor
      · intro h
        obtain rfl := Option.some.inj h
        exact ⟨htwo, hshort⟩
      · rintro ⟨hmark, hfirst⟩
        rcases Nat.lt_trichotomy n 2 with hlt | rfl | hlt
        · exact absurd hmark (hshort n hlt)
        · rfl
        · exact absurd htwo (hfirst 2 hlt)
    · have hbehind : ∀ m, ['*', '/'] <:+ (c :: cs).take (m + 1) ↔ ['*', '/'] <:+ cs.take m := by
        intro m
        rw [List.take_succ_cons, List.suffix_cons_iff, or_iff_right]
        intro hmark
        obtain ⟨hstar, hslash⟩ := List.cons.inj hmark
        refine hc ⟨hstar.symm, ?_⟩
        obtain ⟨rest, hrest⟩ := List.take_prefix m cs
        rw [← hrest, ← hslash]
        rfl
      cases n with
      | zero => simp
      | succ n =>
        rw [Nat.forall_lt_succ_left, and_iff_right (hshort 0 (by decide))]
        simp only [hbehind, ← ih, Option.map_eq_some_iff, Nat.add_right_cancel_iff,
          exists_eq_right]

/-- A name or keyword of which `extra` characters follow the first one. -/
def plainWord (word : List Char) (extra : Nat) : Scan :=
  ⟨if Keyword.isKeyword word then .keyword else .identifier, extra⟩

/-- Whether a word makes the quote right behind it part of a literal. -/
def Marks (word : List Char) (quote : Char) : Prop :=
  (quote = '\'' ∨ quote = '"') ∧ Lexer.literalMarks.contains (Keyword.lower word) = true

/-- The literal that a word and a quote right behind it open. -/
def markedLiteral (word : List Char) (extra : Nat) (quote : Char) (rest : List Char) : Scan :=
  let literal := string quote (!(Keyword.lower word).contains 'r') rest
  ⟨literal.kind, extra + 1 + literal.extra⟩

/-- A word of which `extra` characters follow the first one, with `rest` behind. -/
def wordBefore (word : List Char) (extra : Nat) (rest : List Char) : Scan :=
  match rest with
  | quote :: rest =>
    if (quote = '\'' ∨ quote = '"') ∧ Lexer.literalMarks.contains (Keyword.lower word) then
      markedLiteral word extra quote rest
    else plainWord word extra
  | [] => plainWord word extra

theorem word_eq (c : Char) (cs : List Char) :
    word c cs =
      wordBefore (c :: cs.take (runLength Text.isNamePart cs)) (runLength Text.isNamePart cs)
        (cs.drop (runLength Text.isNamePart cs)) :=
  rfl

theorem wordBefore_marked {word rest : List Char} {extra : Nat} {quote : Char}
    (h : Marks word quote) :
    wordBefore word extra (quote :: rest) = markedLiteral word extra quote rest :=
  if_pos h

theorem wordBefore_plain {word rest : List Char} {extra : Nat}
    (h : ∀ quote ∈ rest.head?, ¬Marks word quote) :
    wordBefore word extra rest = plainWord word extra := by
  cases rest with
  | nil => rfl
  | cons quote rest => exact if_neg (h quote rfl)

theorem wordBefore_cases (word : List Char) (extra : Nat) (rest : List Char) :
    (∃ quote behind, rest = quote :: behind ∧ Marks word quote ∧
      wordBefore word extra rest = markedLiteral word extra quote behind) ∨
    wordBefore word extra rest = plainWord word extra := by
  by_cases h : ∃ quote ∈ rest.head?, Marks word quote
  · obtain ⟨quote, hhead, hmarks⟩ := h
    obtain ⟨behind, rfl⟩ := List.head?_eq_some_iff.mp hhead
    exact Or.inl ⟨quote, behind, rfl, hmarks, wordBefore_marked hmarks⟩
  · right
    apply wordBefore_plain
    intro quote hhead hmarks
    exact h ⟨quote, hhead, hmarks⟩

theorem word_cases (c : Char) (cs : List Char) :
    (∃ quote behind, cs.drop (runLength Text.isNamePart cs) = quote :: behind ∧
      Marks (c :: cs.take (runLength Text.isNamePart cs)) quote ∧
      word c cs = markedLiteral (c :: cs.take (runLength Text.isNamePart cs))
        (runLength Text.isNamePart cs) quote behind) ∨
    word c cs = plainWord (c :: cs.take (runLength Text.isNamePart cs))
      (runLength Text.isNamePart cs) :=
  wordBefore_cases _ _ _

/-- The length of a run of `p` characters that has to start with an `s`. -/
def openedRun (s p : Char → Bool) (cs : List Char) : Nat :=
  if cs.head?.any s then runLength p cs else 0

theorem openedRun_of_starts {s p : Char → Bool} {cs : List Char} (h : cs.head?.any s = true) :
    openedRun s p cs = runLength p cs :=
  if_pos h

theorem openedRun_of_not_starts {s p : Char → Bool} {cs : List Char}
    (h : ¬cs.head?.any s = true) : openedRun s p cs = 0 :=
  if_neg h

theorem openedRun_ne_zero {s p : Char → Bool} (hsp : ∀ c, s c = true → p c = true)
    {cs : List Char} (h : cs.head?.any s = true) : openedRun s p cs ≠ 0 := by
  rw [openedRun_of_starts h]
  cases cs with
  | nil => simp at h
  | cons c cs =>
    have hc : p c = true := hsp c (by simpa using h)
    simp [runLength, hc]

/-- A parameter of which `sigils` more characters and `name` are left to read. -/
def parameterName (sigils : Nat) (name : List Char) : Scan :=
  let run := openedRun Text.isNameStart Text.isNamePart name
  if run = 0 then ⟨.punctuation, 0⟩ else ⟨.identifier, sigils + run⟩

theorem parameterName_eq (sigils : Nat) (name : List Char) :
    parameterName sigils name =
      if name.head?.any Text.isNameStart then
        ⟨.identifier, sigils + runLength Text.isNamePart name⟩
      else ⟨.punctuation, 0⟩ := by
  unfold parameterName
  by_cases h : name.head?.any Text.isNameStart = true
  · have hne := openedRun_ne_zero (fun c => Text.isNamePart_of_isNameStart (c := c)) h
    rw [if_pos h, if_neg hne, openedRun_of_starts h]
  · rw [if_neg h, if_pos (openedRun_of_not_starts h)]

theorem parameter_sigil (cs : List Char) : parameter ('@' :: cs) = parameterName 1 cs := by
  rw [parameterName_eq]
  simp [parameter]

theorem parameter_of_ne {cs : List Char} (h : cs.head? ≠ some '@') :
    parameter cs = parameterName 0 cs := by
  rw [parameterName_eq]
  simp [parameter, h]

theorem parameter_cases (cs : List Char) :
    (∃ name, cs = '@' :: name ∧ parameter cs = parameterName 1 name) ∨
      parameter cs = parameterName 0 cs := by
  by_cases h : cs.head? = some '@'
  · obtain ⟨name, rfl⟩ := List.head?_eq_some_iff.mp h
    exact Or.inl ⟨name, rfl, parameter_sigil name⟩
  · exact Or.inr (parameter_of_ne h)

/-- The length of an exponent's `lead` characters and the digits behind them. -/
def exponentDigits (lead : Nat) (cs : List Char) : Nat :=
  let run := openedRun Char.isDigit Char.isDigit cs
  if run = 0 then 0 else lead + run

theorem exponentDigits_eq (lead : Nat) (cs : List Char) :
    exponentDigits lead cs =
      if cs.head?.any Char.isDigit then lead + runLength Char.isDigit cs else 0 := by
  unfold exponentDigits
  by_cases h : cs.head?.any Char.isDigit = true
  · rw [if_pos h, if_neg (openedRun_ne_zero (fun _ => id) h), openedRun_of_starts h]
  · rw [if_neg h, if_pos (openedRun_of_not_starts h)]

theorem exponentLength_sign {e sign : Char} (he : e = 'e' ∨ e = 'E')
    (hsign : sign = '+' ∨ sign = '-') (cs : List Char) :
    exponentLength (e :: sign :: cs) = exponentDigits 2 cs := by
  rw [exponentDigits_eq]
  simp only [exponentLength, if_pos he, if_pos hsign]

theorem exponentLength_digits {e : Char} (he : e = 'e' ∨ e = 'E') {cs : List Char}
    (hsign : ∀ sign ∈ cs.head?, ¬(sign = '+' ∨ sign = '-')) :
    exponentLength (e :: cs) = exponentDigits 1 cs := by
  rw [exponentDigits_eq]
  cases cs with
  | nil => simp [exponentLength]
  | cons sign cs =>
    have hsign' := hsign sign rfl
    simp only [exponentLength, if_pos he, if_neg hsign']
    rfl

theorem exponentLength_of_ne {e : Char} (he : ¬(e = 'e' ∨ e = 'E')) (cs : List Char) :
    exponentLength (e :: cs) = 0 := by
  simp only [exponentLength, if_neg he]

/-- An exponent has a letter and a sign in front of its digits, or a letter only,
or is not there. -/
theorem exponentLength_cases (cs : List Char) :
    (∃ e sign ds, cs = e :: sign :: ds ∧ (e = 'e' ∨ e = 'E') ∧ (sign = '+' ∨ sign = '-') ∧
      exponentLength cs = exponentDigits 2 ds) ∨
    (∃ e ds, cs = e :: ds ∧ (e = 'e' ∨ e = 'E') ∧ exponentLength cs = exponentDigits 1 ds) ∨
    exponentLength cs = 0 := by
  cases cs with
  | nil => exact Or.inr (Or.inr rfl)
  | cons e cs =>
    by_cases he : e = 'e' ∨ e = 'E'
    · by_cases hsign : ∃ sign ∈ cs.head?, sign = '+' ∨ sign = '-'
      · obtain ⟨sign, hhead, hsign⟩ := hsign
        obtain ⟨ds, rfl⟩ := List.head?_eq_some_iff.mp hhead
        exact Or.inl ⟨e, sign, ds, rfl, he, hsign, exponentLength_sign he hsign ds⟩
      · refine Or.inr (Or.inl ⟨e, cs, rfl, he, ?_⟩)
        apply exponentLength_digits he
        intro sign hhead h
        exact hsign ⟨sign, hhead, h⟩
    · exact Or.inr (Or.inr (exponentLength_of_ne he cs))

/-- The length of a decimal number behind its first character `c`, up to its
exponent. -/
def mantissaLength (c : Char) (cs : List Char) : Nat :=
  let digits := runLength Char.isDigit cs
  if c = '.' then digits else digits + fractionLength (cs.drop digits)

def decimal (c : Char) (cs : List Char) : Scan :=
  ⟨.numberLiteral, mantissaLength c cs + exponentLength (cs.drop (mantissaLength c cs))⟩

theorem number_nil (c : Char) : number c [] = decimal c [] := by
  simp [number, decimal, mantissaLength]

theorem number_cons (c x : Char) (cs : List Char) :
    number c (x :: cs) =
      if (c = '0' ∧ (x = 'x' ∨ x = 'X')) ∧ openedRun Lexer.isHexDigit Lexer.isHexDigit cs ≠ 0 then
        ⟨.numberLiteral, 1 + openedRun Lexer.isHexDigit Lexer.isHexDigit cs⟩
      else decimal c (x :: cs) := by
  by_cases h : cs.head?.any Lexer.isHexDigit = true
  · have hne := openedRun_ne_zero (fun _ => id) h
    rw [openedRun_of_starts h] at *
    simp [number, decimal, mantissaLength, h, hne]
  · rw [openedRun_of_not_starts h]
    simp [number, decimal, mantissaLength, h]

end Scan
end QueryLint
