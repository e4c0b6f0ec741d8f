/-!
# Binary floating point numbers

A number of the form `± mantissa * 2 ^ exponent` with a mantissa of at most 53
bits and an exponent of at least -1074, kept exactly. `ofRatio?` rounds a
quotient of natural numbers to the nearest such number, and to the even mantissa
between two. `digits` goes back to decimals: the fewest digits that still round
to the number, and of those the nearest.
-/
namespace QueryLint
namespace Data

structure Binary64 where
  negative : Bool
  mantissa : Nat
  exponent : Int
  deriving DecidableEq, Repr, Inhabited

/-- The quotient rounded to the nearest natural number, a half to the even one. -/
def roundDiv (n d : Nat) : Nat :=
  let q := n / d
  let twice := 2 * (n % d)
  if d < twice ∨ (twice = d ∧ q % 2 = 1) then q + 1 else q

namespace Binary64

def zero (negative : Bool) : Binary64 := ⟨negative, 0, -1074⟩

def isZero (x : Binary64) : Bool := x.mantissa == 0

/-- The numerator and denominator of `m * 2 ^ e`. -/
def ratio (m : Nat) (e : Int) : Nat × Nat :=
  if 0 ≤ e then (m * Nat.pow 2 e.toNat, 1) else (m, Nat.pow 2 (-e).toNat)

def magnitude (x : Binary64) : Nat × Nat := ratio x.mantissa x.exponent

/-- The quotient `num / den` in units of `2 ^ e`, rounded. -/
def roundAt (num den : Nat) (e : Int) : Nat :=
  if 0 ≤ e then roundDiv num (den * Nat.pow 2 e.toNat)
  else roundDiv (num * Nat.pow 2 (-e).toNat) den

/-- Whether `num / den` is less than `2 ^ e`. -/
def below (num den : Nat) (e : Int) : Bool :=
  if 0 ≤ e then num < den * Nat.pow 2 e.toNat else num * Nat.pow 2 (-e).toNat < den

/-- The number nearest to `num / den`; none if that is too large. -/
def ofRatio? (negative : Bool) (num den : Nat) : Option Binary64 :=
  if num = 0 ∨ den = 0 then some (zero negative)
  else
    let high : Int := (num.log2 : Int) - (den.log2 : Int)
    let top := if below num den high then high else high + 1
    let e := max (top - 53) (-1074)
    let m := roundAt num den e
    let (m, e) := if m = Nat.pow 2 53 then (Nat.pow 2 52, e + 1) else (m, e)
    if 971 < e then none else some ⟨negative, m, e⟩

def ofNat? (negative : Bool) (n : Nat) : Option Binary64 := ofRatio? negative n 1

def mul? (x y : Binary64) : Option Binary64 :=
  let (a, b) := x.magnitude
  let (c, d) := y.magnitude
  ofRatio? (x.negative != y.negative) (a * c) (b * d)

def div? (x y : Binary64) : Option Binary64 :=
  let (a, b) := x.magnitude
  let (c, d) := y.magnitude
  ofRatio? (x.negative != y.negative) (a * d) (b * c)

def ofDecimal? (negative : Bool) (n : Nat) (k : Int) : Option Binary64 :=
  if 0 ≤ k then ofRatio? negative (n * Nat.pow 10 k.toNat) 1
  else ofRatio? negative n (Nat.pow 10 (-k).toNat)

/-- Digits and the power of ten of the last one: the fewest digits that round to
the number, and of those the nearest. -/
def digits (x : Binary64) : Nat × Int :=
  if x.isZero then (0, 0)
  else
    -- the number and the ends of the interval that rounds to it, in quarter units
    let value := 4 * x.mantissa
    let low :=
      if x.mantissa = Nat.pow 2 52 ∧ -1074 < x.exponent then value - 1 else value - 2
    let high := value + 2
    let (unit, den) := ratio 1 (x.exponent - 2)
    let fits (num gridDen : Nat) : Bool :=
      -- whether num / gridDen lies in the interval
      let n := num * den
      let l := low * unit * gridDen
      let h := high * unit * gridDen
      if x.mantissa % 2 = 0 then l ≤ n && n ≤ h else l < n && n < h
    let magnitude : Int := (Nat.repr (value * unit * Nat.pow 10 400 / den)).length - 401
    let candidate (count : Nat) : Option (Nat × Int) :=
      let k : Int := magnitude - count
      let (grid, gridDen) :=
        if 0 ≤ k then (Nat.pow 10 k.toNat, 1) else (1, Nat.pow 10 (-k).toNat)
      let q := value * unit * gridDen / (den * grid)
      let fitsDown := fits (q * grid) gridDen
      let fitsUp := fits ((q + 1) * grid) gridDen
      if fitsDown && fitsUp then
        let exact := 2 * (value * unit * gridDen)
        let middle := (2 * q + 1) * (den * grid)
        some (if exact < middle ∨ (exact = middle ∧ q % 2 = 0) then q else q + 1, k)
      else if fitsDown then some (q, k)
      else if fitsUp then some (q + 1, k)
      else none
    ((List.range 17).findSome? candidate).getD (0, 0)

end Binary64

def stripZeros : Nat → Nat × Int → Nat × Int
  | 0, p => p
  | fuel + 1, (n, k) => if n ≠ 0 ∧ n % 10 = 0 then stripZeros fuel (n / 10, k + 1) else (n, k)

end Data
end QueryLint
