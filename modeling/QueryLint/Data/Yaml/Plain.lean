import QueryLint.Data.Json.Number
import QueryLint.Data.Node

/-!
# The meaning of plain scalars

A scalar without quotes can be null, a boolean, a number or a string. Integers are
written in decimal, or in another base behind `0x`, `0o` or `0b`; a decimal with a
zero in front is a string. An integer that does not fit into 64 bits has no value
as long as it fits into 128, and is a float beyond that.
-/
namespace QueryLint
namespace Data
namespace Yaml

def isNullWord (s : String) : Bool :=
  ["", "null", "Null", "NULL", "~"].contains s

def boolWord? (s : String) : Option Bool :=
  if ["true", "True", "TRUE"].contains s then some true
  else if ["false", "False", "FALSE"].contains s then some false
  else none

def digitValue? (base : Nat) (c : Char) : Option Nat := do
  let n ←
    if c.isDigit then some (c.toNat - 48)
    else if 'a' ≤ c ∧ c ≤ 'z' then some (c.toNat - 87)
    else if 'A' ≤ c ∧ c ≤ 'Z' then some (c.toNat - 55)
    else none
  if n < base then some n else none

def natInBase? (base : Nat) (cs : List Char) : Option Nat :=
  if cs.isEmpty then none
  else cs.foldlM (fun n c => (digitValue? base c).map (n * base + ·)) 0

def unsigned (cs : List Char) : List Char :=
  if cs.head? = some '+' ∨ cs.head? = some '-' then cs.drop 1 else cs

/-- Whether digits start with a zero that they do not need. -/
def hasLeadingZero (cs : List Char) : Bool :=
  let ds := unsigned cs
  1 < ds.length && ds.head? == some '0' && ds.all Char.isDigit

/-- The base that digits are marked with, and the digits. -/
def marked? : List Char → Option (Nat × List Char)
  | '0' :: 'x' :: cs => some (16, cs)
  | '0' :: 'o' :: cs => some (8, cs)
  | '0' :: 'b' :: cs => some (2, cs)
  | _ => none

def magnitude? (cs : List Char) : Option Nat :=
  match (marked? cs).bind fun (base, digits) => natInBase? base digits with
  | some n => some n
  | none => if hasLeadingZero cs then none else natInBase? 10 cs

def integer? (cs : List Char) : Option Int :=
  match cs with
  | '-' :: ds => (magnitude? ds).map fun n => -(n : Int)
  | '+' :: ds => (magnitude? ds).map Int.ofNat
  | ds => (magnitude? ds).map Int.ofNat

/-- Digits with a point among them or without, and an exponent. -/
def decimal? (cs : List Char) : Option (Nat × Int) := do
  let (whole, rest) := cs.span Char.isDigit
  let (fraction, rest) :=
    match rest with
    | '.' :: rest => rest.span Char.isDigit
    | rest => ([], rest)
  if whole.isEmpty ∧ fraction.isEmpty then none
  let exponent : Int ←
    match rest with
    | [] => some 0
    | e :: rest =>
      if e ≠ 'e' ∧ e ≠ 'E' then none
      else if (unsigned rest).isEmpty ∨ !(unsigned rest).all Char.isDigit then none
      else
        let n : Int := Json.natOfDigits (unsigned rest)
        some (if rest.head? = some '-' then -n else n)
  return (Json.natOfDigits (whole ++ fraction), exponent - fraction.length)

/-- A float near `n * 10 ^ k`, for any `k`. -/
def float? (negative : Bool) (n : Nat) (k : Int) : Option Binary64 :=
  if n = 0 then some (Binary64.zero negative)
  else if 400 < k then none
  else if k + (Nat.repr n).length < -400 then some (Binary64.zero negative)
  else Binary64.ofDecimal? negative n k

def floatWord? (s : String) : Option Number := do
  let cs := s.toList
  if [".inf", ".Inf", ".INF", "+.inf", "+.Inf", "+.INF", "-.inf", "-.Inf", "-.INF", ".nan", ".NaN",
      ".NAN"].contains s then
    return .nonFinite
  if hasLeadingZero cs then none
  let (n, k) ← decimal? (unsigned cs)
  return .float (← float? (cs.head? = some '-') n k)

def plainMeaning (s : String) : Scalar :=
  if isNullWord s then .null
  else
    match boolWord? s with
    | some b => .bool b
    | none =>
      match integer? s.toList with
      | some i =>
        if Number.isInteger i then .number (.int i)
        else if -Int.pow 2 127 ≤ i ∧ i < Int.pow 2 128 then .unreadable
        else
          match floatWord? s with
          | some n => .number n
          | none => .string
      | none =>
        match floatWord? s with
        | some n => .number n
        | none => .string

end Yaml
end Data
end QueryLint
