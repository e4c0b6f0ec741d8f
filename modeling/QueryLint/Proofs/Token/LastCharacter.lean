import QueryLint.Proofs.Token.LineComment
import QueryLint.Proofs.Token.Literal
import QueryLint.Proofs.Token.Touching
import QueryLint.Proofs.Token.Trivia

/-!
# How a lexeme ends

The last character of a lexeme that is no trivia is no blank, unless the lexeme is left
open; then its line or the text ends behind it (`Scan.Firm`). So blanks that go on behind a
lexeme belong to none but a run of blanks, and a lexeme with no mark of its own to end it,
a name, a number or a sign, holds no run of blanks before a line break.
-/
namespace QueryLint

namespace Text

theorem head?_behind_line {cs rest : List Char} (h : line cs ++ rest = cs) :
    ∀ x ∈ rest.head?, isLineBreak x = true := by
  have hrest : rest = cs.dropWhile fun c => !isLineBreak c :=
    List.append_cancel_left (h.trans List.takeWhile_append_dropWhile.symm)
  intro x hx
  have hstops := List.head?_dropWhile_not (fun c => !isLineBreak c) cs
  rw [← hrest, Option.mem_def.mp hx] at hstops
  simpa using hstops

theorem getLast?_trimBlankEnd (cs : List Char) :
    ∀ x ∈ (trimBlankEnd cs).getLast?, isBlank x = false := by
  intro x hx
  have hstops := List.head?_dropWhile_not isBlank cs.reverse
  rw [trimBlankEnd, List.getLast?_reverse] at hx
  rw [Option.mem_def.mp hx] at hstops
  exact hstops

end Text

namespace Scan

/-- Whether the lexeme that starts with `c` ends in no blank, or is left open up to the end
of its line or of the text. -/
def Firm (c : Char) (cs : List Char) (s : Scan) : Prop :=
  (∀ x ∈ (c :: cs.take s.extra).getLast?, Text.isBlank x = false) ∨
    s.kind = .other ∧ ∀ x ∈ (cs.drop s.extra).head?, Text.isLineBreak x = true

section Firm

variable {c d : Char} {cs ds : List Char} {s : Scan}

theorem Firm.of_avoids (hc : Text.isBlank c = false) (h : Avoids Text.isBlank s.extra cs) :
    Firm c cs s := by
  left
  intro x hx
  rcases List.mem_cons.mp (List.mem_of_getLast? hx) with rfl | hx
  · exact hc
  · exact h x hx

theorem Firm.of_getLast? (h : (cs.take s.extra).getLast? = some d) (hd : Text.isBlank d = false) :
    Firm c cs s := by
  left
  intro x hx
  rw [List.getLast?_cons, h] at hx
  obtain rfl : d = x := Option.some.inj hx
  exact hd

theorem Firm.of_length_le (hkind : s.kind = .other) (h : cs.length ≤ s.extra) : Firm c cs s := by
  refine Or.inr ⟨hkind, fun x hx => ?_⟩
  rw [List.drop_eq_nil_of_le h] at hx
  cases hx

theorem Firm.of_drop {m : Nat} (hdrop : cs.drop m = d :: ds) (h : Firm d ds s) :
    Firm c cs ⟨s.kind, m + 1 + s.extra⟩ := by
  unfold Firm
  rwa [cons_take_of_drop hdrop, drop_of_drop hdrop,
    List.getLast?_append_of_ne_nil _ (List.cons_ne_nil _ _)]

theorem lineComment_firm (hc : Text.isBlank c = false) (cs : List Char) :
    Firm c cs (lineComment cs) := by
  left
  intro x hx
  rw [take_lineComment, List.getLast?_cons, Option.mem_some_iff] at hx
  cases hlast : (Text.trimBlankEnd (Text.line cs)).getLast? with
  | none =>
    rw [hlast, Option.getD_none] at hx
    rw [← hx]
    exact hc
  | some y =>
    rw [hlast, Option.getD_some] at hx
    rw [← hx]
    exact Text.getLast?_trimBlankEnd _ y hlast

theorem blockComment_firm (hcs : cs ≠ []) : Firm c cs (blockComment cs) := by
  obtain ⟨star, cs, rfl⟩ := List.exists_cons_of_ne_nil hcs
  rcases blockComment_cases star cs with hlast | hopen
  · exact .of_getLast? hlast (by decide)
  · rw [hopen]
    exact .of_length_le rfl (Nat.le_refl _)

/-- A literal in one quote that is closed ends in it, and one that is open ends its line. -/
theorem single_firm {quote : Char} (hquote : '\\' ≠ quote) (hblank : Text.isBlank quote = false)
    (escapes : Bool) (kind : Bool → TokenKind) (hkind : kind false = .other) (cs : List Char) :
    Firm c cs ⟨kind (single quote escapes cs).1, (single quote escapes cs).2⟩ := by
  have hends := single_ends hquote escapes cs
  generalize single quote escapes cs = r at hends ⊢
  obtain ⟨closed, n⟩ := r
  generalize htaken : cs.take n = taken at hends
  cases hends with
  | closed h => exact .of_getLast? (by simp [htaken]) hblank
  | leftOpen h =>
    have hline : Text.line cs ++ cs.drop n = cs := by rw [← htaken, List.take_append_drop]
    exact Or.inr ⟨hkind, Text.head?_behind_line hline⟩

theorem string_firm {quote : Char} (hquote : quote = '\'' ∨ quote = '"') (escapes : Bool)
    (cs : List Char) : Firm quote cs (string quote escapes cs) := by
  have hne : '\\' ≠ quote := by rcases hquote with rfl | rfl <;> decide
  have hblank : Text.isBlank quote = false := by rcases hquote with rfl | rfl <;> decide
  by_cases hpair : [quote, quote].isPrefixOf cs = true
  · rcases string_cases_of_pair hpair with hlast | hopen
    · exact .of_getLast? hlast hblank
    · rw [hopen]
      exact .of_length_le rfl (Nat.le_refl _)
  · rw [string_of_not_pair hpair]
    exact single_firm hne hblank escapes literalKind rfl cs

theorem quotedName_firm (cs : List Char) : Firm '\x60' cs (quotedName cs) :=
  single_firm (by decide) (by decide) true (fun closed => if closed then .identifier else .other)
    rfl cs

theorem isBlank_eq_false_of_isNamePart {x : Char} (h : Text.isNamePart x = true) :
    Text.isBlank x = false := by
  rw [Bool.eq_false_iff]
  intro hblank
  rw [Text.not_isNamePart_of_isBlank hblank] at h
  cases h

theorem isBlank_eq_false_of_isNumeric {x : Char} (h : isNumeric x = true) :
    Text.isBlank x = false := by
  rcases Bool.or_eq_true_iff.mp h with hdigit | hmark
  · exact isBlank_eq_false_of_isNamePart (Text.isNamePart_of_isHexDigit hdigit)
  · have hmarks : ['.', 'x', 'X', '+', '-'].all (fun x => !Text.isBlank x) = true := by decide
    simpa using List.all_eq_true.mp hmarks x (List.contains_iff_mem.mp hmark)

theorem word_firm (hc : Text.isBlank c = false) (cs : List Char) : Firm c cs (word c cs) := by
  rcases word_cases c cs with ⟨quote, behind, hdrop, hmarks, heq⟩ | heq
  · rw [heq]
    exact .of_drop hdrop (string_firm hmarks.1 _ behind)
  · rw [heq]
    exact .of_avoids hc (.ofRun (fun x => isBlank_eq_false_of_isNamePart) cs)

end Firm

end Scan

/-- Every lexeme that starts with no blank ends in none, or is left open. -/
theorem scan_firm {c : Char} (hc : Text.isBlank c = false) (cs : List Char) :
    Scan.Firm c cs (scan c cs) := by
  have hfits := opening_fits c cs.head?
  have hname : ∀ x, Text.isNamePart x = true → Text.isBlank x = false :=
    fun _ => Scan.isBlank_eq_false_of_isNamePart
  have hnumeric : ∀ x, Scan.isNumeric x = true → Text.isBlank x = false :=
    fun _ => Scan.isBlank_eq_false_of_isNumeric
  rw [scan_eq_opening]
  generalize opening c cs.head? = o at hfits ⊢
  cases o with
  | lineFeed =>
    obtain rfl : c = '\n' := hfits
    exact absurd hc (by decide)
  | carriageReturn =>
    obtain rfl : c = '\r' := hfits
    exact absurd hc (by decide)
  | blank =>
    have hblank : Text.isInlineBlank c = true := hfits
    simp [Text.isInlineBlank, hc] at hblank
  | lineComment => exact Scan.lineComment_firm hc cs
  | blockComment =>
    refine Scan.blockComment_firm ?_
    rintro rfl
    exact absurd hfits.2 (by simp)
  | quote => exact Scan.string_firm hfits true cs
  | backtick =>
    obtain rfl : c = '\x60' := hfits
    exact Scan.quotedName_firm cs
  | sigil => exact .of_avoids hc (Scan.parameter_avoids hname (by decide) cs)
  | digit => exact .of_avoids hc (Scan.number_avoids hnumeric c cs)
  | point => exact .of_avoids hc (Scan.number_avoids hnumeric c cs)
  | letter => exact Scan.word_firm hc cs
  | mark => exact .of_avoids hc (Scan.punctuation_avoids (by decide) c cs)

theorem scan_onLine_of_number {c : Char} {cs : List Char} (h : (scan c cs).kind = .numberLiteral) :
    Text.isLineBreak c = false ∧ Scan.OnLine (scan c cs).extra cs := by
  have hfits := opening_fits c cs.head?
  have hkind := kind_scan_mem c cs
  have hbreak := hfits.not_lineBreak
  rw [h] at hkind
  rw [scan_eq_opening]
  generalize opening c cs.head? = o at hkind hbreak ⊢
  cases o with
  | digit => exact ⟨hbreak (by decide) (by decide), Scan.number_onLine c cs⟩
  | point => exact ⟨hbreak (by decide) (by decide), Scan.number_onLine c cs⟩
  | _ => exact absurd hkind (by decide)

/-- The kinds of lexemes that can hold blanks before a line break. -/
def TokenKind.isEnclosing : TokenKind → Bool
  | comment | stringLiteral | other => true
  | _ => false

namespace Lexeme.ReadBefore

variable {l : Lexeme} {after : List Char}

theorem firm (h : l.ReadBefore after) (htrivia : l.isTrivia = false) :
    (∀ x ∈ l.chars.getLast?, Text.isBlank x = false) ∨
      l.kind = .other ∧ ∀ x ∈ after.head?, Text.isLineBreak x = true := by
  have hhead := h.not_blank_head htrivia
  obtain ⟨c, front, hchars, hscan⟩ := h
  have hfirm := scan_firm (hhead c (by simp [hchars])) (front ++ after)
  unfold Scan.Firm at hfirm
  rwa [hscan, List.take_left, List.drop_left, ← hchars] at hfirm

/-- No lexeme parts a run of blanks. -/
theorem not_blank_behind_blank (h : l.ReadBefore after) {x : Char} (hx : x ∈ l.chars.getLast?)
    (hblank : Text.isInlineBlank x = true) : ∀ y ∈ after.head?, Text.isInlineBlank y = false := by
  obtain ⟨hx', hbreak⟩ := Text.isInlineBlank_iff.mp hblank
  by_cases hwhitespace : l.kind = .whitespace
  · exact h.not_blank_behind hwhitespace
  by_cases hnewline : l.kind = .newline
  · rw [h.lineBreak_of_newline hnewline x (List.mem_of_getLast? hx)] at hbreak
    cases hbreak
  · rcases h.firm (by simp [isTrivia, hwhitespace, hnewline]) with hfirm | ⟨-, hfirm⟩
    · rw [hfirm x hx] at hx'
      cases hx'
    · intro y hy
      simp [Text.isInlineBlank, hfirm y hy]

theorem not_lineBreak (h : l.ReadBefore after) (htrivia : l.isTrivia = false)
    (hkind : l.kind.isEnclosing = false) : ∀ x ∈ l.chars, Text.isLineBreak x = false := by
  obtain ⟨c, front, hchars, hscan⟩ := h
  have honLine : Text.isLineBreak c = false ∧
      Scan.OnLine (scan c (front ++ after)).extra (front ++ after) := by
    cases hl : l.kind with
    | numberLiteral => exact scan_onLine_of_number (by rw [hscan, hl])
    | identifier => exact scan_onLine (by rw [hscan, hl]; rfl)
    | keyword => exact scan_onLine (by rw [hscan, hl]; rfl)
    | punctuation => exact scan_onLine (by rw [hscan, hl]; rfl)
    | _ => simp [isTrivia, hl, TokenKind.isEnclosing] at htrivia hkind
  rw [hscan] at honLine
  unfold Scan.OnLine Scan.Avoids at honLine
  rw [List.take_left] at honLine
  rw [hchars]
  exact List.forall_mem_cons.mpr honLine

end Lexeme.ReadBefore

theorem exists_lexeme_at {text front tail : List Char} {d : Char} (h : text = front ++ d :: tail) :
    ∃ before l after start stop, lexemes text = before ++ l :: after ∧
      front = Lexeme.join before ++ start ∧ l.chars = start ++ d :: stop ∧
        tail = stop ++ Lexeme.join after := by
  generalize hls : lexemes text = ls
  induction ls generalizing text front with
  | nil =>
    rw [← join_lexemes text, hls] at h
    simp at h
  | cons l ls ih =>
    have hjoin : l.chars ++ Lexeme.join ls = front ++ d :: tail := by
      rw [← h, ← join_lexemes text, hls, Lexeme.join_cons]
    have hlater : ∀ later, front = l.chars ++ later → Lexeme.join ls = later ++ d :: tail →
        ∃ before m after start stop, l :: ls = before ++ m :: after ∧
          front = Lexeme.join before ++ start ∧ m.chars = start ++ d :: stop ∧
            tail = stop ++ Lexeme.join after := by
      intro later hfront hrest
      obtain ⟨before, m, after, start, stop, rfl, hstart, hm, htail⟩ :=
        ih hrest (readBefore_of_lexemes hls).2
      exact ⟨l :: before, m, after, start, stop, rfl, by simp [hfront, hstart], hm, htail⟩
    rcases List.append_eq_append_iff.mp hjoin with ⟨later, hfront, hrest⟩ | ⟨inner, hl, hrest⟩
    · exact hlater later hfront hrest
    · cases inner with
      | nil => exact hlater [] (by simpa using hl.symm) (by simpa using hrest.symm)
      | cons e stop =>
        obtain ⟨rfl, htail⟩ := List.cons.inj hrest
        exact ⟨[], l, ls, front, stop, rfl, rfl, hl, htail⟩

end QueryLint
