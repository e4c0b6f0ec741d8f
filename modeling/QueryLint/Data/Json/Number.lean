import QueryLint.Data.Value

/-!
# Numbers in JSON

A number without fraction and exponent that fits into 64 bits is an integer.
Every other one is a float: its leading digits, as many as fit into 64 bits, are
rounded, and the result is multiplied or divided by a rounded power of ten. A
float that becomes too large has no value. The written form of a float has the
fewest digits that read back, and always a point or an exponent.
-/
namespace QueryLint
namespace Data
namespace Json

def maxWord : Nat := Nat.pow 2 64 - 1

/-- Append digits to `n` as long as it fits into 64 bits. The second component
counts the digits left over. -/
def absorb (n : Nat) : List Char → Nat × Nat
  | [] => (n, 0)
  | c :: cs =>
    let next := n * 10 + (c.toNat - 48)
    if next ≤ maxWord then absorb next cs else (n, (c :: cs).length)

def maxPower : Nat := 308

def pow10? (k : Nat) : Option Binary64 := Binary64.ofNat? false (Nat.pow 10 k)

/-- Divide by the largest power of ten a number of times, or until nothing is
left. -/
def shrink? : Nat → Binary64 → Option Binary64
  | 0, x => some x
  | steps + 1, x => if x.isZero then some x else do shrink? steps (← x.div? (← pow10? maxPower))

/-- Divide by `10 ^ k`, in steps of at most the largest power of ten. -/
def divPow10? (x : Binary64) (k : Nat) : Option Binary64 := do
  let steps := (k - 1) / maxPower
  let y ← shrink? steps x
  y.div? (← pow10? (k - steps * maxPower))

def scale? (negative : Bool) (n : Nat) (k : Int) : Option Binary64 := do
  let x ← Binary64.ofNat? negative n
  if 0 ≤ k then
    if x.isZero then return x
    else if maxPower < k then none
    else x.mul? (← pow10? k.toNat)
  else divPow10? x (-k).toNat

structure Decimal where
  negative : Bool
  whole : List Char
  fraction : Option (List Char)
  exponent : Option (Bool × List Char)

def natOfDigits (cs : List Char) : Nat :=
  cs.foldl (fun n c => n * 10 + (c.toNat - 48)) 0

namespace Decimal

/-- The power of ten in an exponent with a sign. An exponent beyond 32 bits is
as good as any other so large. -/
def power (d : Decimal) : Int :=
  match d.exponent with
  | none => 0
  | some (negative, ds) =>
    let n : Int := min (natOfDigits ds) (Nat.pow 2 31)
    if negative then -n else n

/-- The number that is written; none if it is too large. -/
def number? (d : Decimal) : Option Number :=
  let (n, dropped) := absorb 0 d.whole
  if d.fraction.isNone ∧ d.exponent.isNone ∧ dropped = 0 then
    if !d.negative then some (.int n)
    else if n = 0 ∨ Nat.pow 2 63 < n then (Binary64.ofNat? true n).map .float
    else some (.int (-n))
  else
    let (m, unused) := absorb n (d.fraction.getD [])
    let used := (d.fraction.getD []).length - unused
    (scale? d.negative m ((dropped : Int) - used + d.power)).map .float

end Decimal

def pointAt (i : Nat) (ds : String) : String :=
  String.ofList (ds.toList.take i) ++ "." ++ String.ofList (ds.toList.drop i)

def zeros (n : Nat) : String := String.ofList (List.replicate n '0')

/-- The text of a float. Positional from 1e-5 up to below 1e16. -/
def floatText (x : Binary64) : String :=
  let sign := if x.negative then "-" else ""
  let (n, k) := stripZeros 20 x.digits
  let ds := Nat.repr n
  let point : Int := ds.length + k
  sign ++
    if x.isZero then "0.0"
    else if 0 ≤ k ∧ point ≤ 16 then ds ++ zeros k.toNat ++ ".0"
    else if 0 < point ∧ point ≤ 16 then pointAt point.toNat ds
    else if -5 < point ∧ point ≤ 0 then "0." ++ zeros (-point).toNat ++ ds
    else
      let mantissa := if ds.length = 1 then ds else pointAt 1 ds
      mantissa ++ "e" ++ toString (point - 1)

def numberText : Number → String
  | .int i => toString i
  | .float x => floatText x
  | .nonFinite => "null"

end Json
end Data
end QueryLint
