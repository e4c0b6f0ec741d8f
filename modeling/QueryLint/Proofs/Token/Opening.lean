import QueryLint.Proofs.Token.Scan

/-!
# How a lexeme opens

The first character of a lexeme and the one behind it settle which scan reads
it. `opening` names that choice, so what holds of every lexeme is proved with one
case for each way to open; `opening_fits` says what is known of the first
character in each of them.
-/
namespace QueryLint

inductive Opening where
  | lineFeed
  | carriageReturn
  | blank
  | lineComment
  | blockComment
  | quote
  | backtick
  | sigil
  | digit
  /-- A point with a digit behind it. -/
  | point
  | letter
  /-- Whatever opens none of the others. -/
  | mark
  deriving DecidableEq, Repr

/-- How a lexeme opens that starts with `c` and goes on with `next`. -/
def opening (c : Char) (next : Option Char) : Opening :=
  if c = '\n' then .lineFeed
  else if c = '\r' then .carriageReturn
  else if Text.isBlank c then .blank
  else if c = '-' ∧ next = some '-' then .lineComment
  else if c = '#' then .lineComment
  else if c = '/' ∧ next = some '*' then .blockComment
  else if c = '\'' ∨ c = '"' then .quote
  else if c = '\x60' then .backtick
  else if c = '@' then .sigil
  else if c.isDigit then .digit
  else if c = '.' ∧ next.any Char.isDigit then .point
  else if Text.isNameStart c then .letter
  else .mark

namespace Opening

/-- The scan that reads a lexeme with this opening. -/
def scan (c : Char) (cs : List Char) : Opening → Scan
  | lineFeed => ⟨.newline, 0⟩
  | carriageReturn => ⟨.newline, if cs.head? = some '\n' then 1 else 0⟩
  | blank => ⟨.whitespace, Scan.runLength Text.isInlineBlank cs⟩
  | lineComment => Scan.lineComment cs
  | blockComment => Scan.blockComment cs
  | quote => Scan.string c true cs
  | backtick => Scan.quotedName cs
  | sigil => Scan.parameter cs
  | digit | point => Scan.number c cs
  | letter => Scan.word c cs
  | mark => Scan.punctuation c cs

/-- What an opening says of the first two characters. -/
def Fits (c : Char) (next : Option Char) : Opening → Prop
  | lineFeed => c = '\n'
  | carriageReturn => c = '\r'
  | blank => Text.isInlineBlank c = true
  | lineComment => c = '-' ∧ next = some '-' ∨ c = '#'
  | blockComment => c = '/' ∧ next = some '*'
  | quote => c = '\'' ∨ c = '"'
  | backtick => c = '\x60'
  | sigil => c = '@'
  | digit => c.isDigit = true
  | point => c = '.' ∧ next.any Char.isDigit = true
  | letter => Text.isNameStart c = true
  | mark => Text.isBlank c = false

end Opening

theorem scan_eq_opening (c : Char) (cs : List Char) :
    scan c cs = (opening c cs.head?).scan c cs := by
  unfold scan opening
  repeat rw [apply_ite (Opening.scan c cs)]
  rfl

theorem opening_fits (c : Char) (next : Option Char) : (opening c next).Fits c next := by
  unfold opening
  refine iteInduction (motive := Opening.Fits c next) id fun hfeed => ?_
  refine iteInduction (motive := Opening.Fits c next) id fun hreturn => ?_
  refine iteInduction (motive := Opening.Fits c next) (fun h => ?_) fun hblank => ?_
  · simp [Opening.Fits, Text.isInlineBlank, Text.isLineBreak, h, hfeed, hreturn]
  refine iteInduction (motive := Opening.Fits c next) Or.inl fun _ => ?_
  refine iteInduction (motive := Opening.Fits c next) Or.inr fun _ => ?_
  refine iteInduction (motive := Opening.Fits c next) id fun _ => ?_
  refine iteInduction (motive := Opening.Fits c next) id fun _ => ?_
  refine iteInduction (motive := Opening.Fits c next) id fun _ => ?_
  refine iteInduction (motive := Opening.Fits c next) id fun _ => ?_
  refine iteInduction (motive := Opening.Fits c next) id fun _ => ?_
  refine iteInduction (motive := Opening.Fits c next) id fun _ => ?_
  refine iteInduction (motive := Opening.Fits c next) id fun _ => ?_
  exact Bool.eq_false_iff.mpr hblank

theorem opening_point {next : Option Char} (h : next.any Char.isDigit = true) :
    opening '.' next = .point := by
  unfold opening
  rw [if_neg (by decide), if_neg (by decide), if_neg (by decide), if_neg (by simp),
    if_neg (by decide), if_neg (by simp), if_neg (by decide), if_neg (by decide),
    if_neg (by decide), if_neg (by decide), if_pos ⟨rfl, h⟩]

/-- The second character matters to three openings only. -/
theorem opening_none {c : Char} {next : Option Char}
    (hcomment : ¬(c = '-' ∧ next = some '-')) (hblock : ¬(c = '/' ∧ next = some '*'))
    (hpoint : ¬(c = '.' ∧ next.any Char.isDigit = true)) :
    opening c next = opening c none := by
  unfold opening
  rw [if_neg hcomment, if_neg hblock, if_neg hpoint]
  simp only [reduceCtorEq, Option.any_none, Bool.false_eq_true, and_false, if_false]

end QueryLint
