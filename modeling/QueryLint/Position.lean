import QueryLint.Text.Blank
import QueryLint.Text.Measure

/-!
# Positions

A position is a line and a column, both counted from zero; columns are UTF-16
code units, as editors count them. Positions are ordered by line, then by
column. Walking over a text moves a position: a line break starts the next
line, and a carriage return that belongs to a following line feed stays where
it is.
-/
namespace QueryLint

structure Position where
  line : Nat := 0
  character : Nat := 0
  deriving DecidableEq, Repr, Inhabited

namespace Position

def origin : Position := ⟨0, 0⟩

instance : Ord Position where
  compare a b := (compare a.line b.line).then (compare a.character b.character)

instance : LT Position where
  lt a b := a.line < b.line ∨ (a.line = b.line ∧ a.character < b.character)

instance : LE Position where
  le a b := a.line < b.line ∨ (a.line = b.line ∧ a.character ≤ b.character)

theorem lt_def (a b : Position) :
    a < b ↔ a.line < b.line ∨ (a.line = b.line ∧ a.character < b.character) := Iff.rfl

theorem le_def (a b : Position) :
    a ≤ b ↔ a.line < b.line ∨ (a.line = b.line ∧ a.character ≤ b.character) := Iff.rfl

instance (a b : Position) : Decidable (a < b) :=
  decidable_of_iff _ (lt_def a b).symm

instance (a b : Position) : Decidable (a ≤ b) :=
  decidable_of_iff _ (le_def a b).symm

instance : Min Position := ⟨fun a b => if b < a then b else a⟩

instance : Max Position := ⟨fun a b => if b < a then a else b⟩

@[ext]
theorem ext {a b : Position} (hline : a.line = b.line) (hcharacter : a.character = b.character) :
    a = b := by
  cases a; cases b; simp_all

theorem not_lt {a b : Position} : ¬ a < b ↔ b ≤ a := by
  simp only [lt_def, le_def]; omega

theorem le_refl (a : Position) : a ≤ a :=
  Or.inr ⟨rfl, Nat.le_refl _⟩

theorem le_trans {a b c : Position} (hab : a ≤ b) (hbc : b ≤ c) : a ≤ c := by
  simp only [le_def] at *; omega

theorem le_antisymm {a b : Position} (hab : a ≤ b) (hba : b ≤ a) : a = b := by
  simp only [le_def] at *; ext <;> omega

theorem le_total (a b : Position) : a ≤ b ∨ b ≤ a := by
  simp only [le_def]; omega

theorem origin_le (a : Position) : origin ≤ a := by
  simp only [le_def, origin]; omega

/-- The position reached from `p` after walking over a text. -/
def advance (p : Position) : List Char → Position
  | [] => p
  | c :: cs =>
    if Text.endsLine c cs then advance ⟨p.line + 1, 0⟩ cs
    else if c == '\r' then advance p cs
    else advance ⟨p.line, p.character + Text.charUnits c⟩ cs

@[simp]
theorem advance_nil (p : Position) : p.advance [] = p := rfl

theorem le_advance (p : Position) (cs : List Char) : p ≤ p.advance cs := by
  induction cs generalizing p with
  | nil => exact le_refl p
  | cons c cs ih =>
    simp only [advance]
    split
    · exact le_trans (b := ⟨p.line + 1, 0⟩) (Or.inl (Nat.lt_succ_self _)) (ih _)
    · split
      · exact ih p
      · refine le_trans (b := ⟨p.line, p.character + Text.charUnits c⟩) ?_ (ih _)
        exact Or.inr ⟨rfl, Nat.le_add_right _ _⟩

/-- The position `q`, counted from a text's origin, when that text stands at `p`:
lines add up, and columns do on the first line only. -/
def shift (p q : Position) : Position :=
  if q.line = 0 then ⟨p.line, p.character + q.character⟩ else ⟨p.line + q.line, q.character⟩

def display (p : Position) : String :=
  toString p.line ++ ":" ++ toString p.character

end Position

end QueryLint
