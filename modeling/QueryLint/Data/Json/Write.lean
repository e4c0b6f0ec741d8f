import QueryLint.Data.Json.Number

/-!
# Writing JSON

The compact text of a value. Quotes, backslashes and control characters are
escaped; every other character stands for itself.
-/
namespace QueryLint
namespace Data
namespace Json

def hex4 (n : Nat) : List Char :=
  let digit (i : Nat) : Char := "0123456789abcdef".toList.getD (n / Nat.pow 16 i % 16) '0'
  [digit 3, digit 2, digit 1, digit 0]

def escapeChar (c : Char) : List Char :=
  if c = '"' then ['\\', '"']
  else if c = '\\' then ['\\', '\\']
  else if c = '\n' then ['\\', 'n']
  else if c = '\r' then ['\\', 'r']
  else if c = '\t' then ['\\', 't']
  else if c.toNat < 0x20 then '\\' :: 'u' :: hex4 c.toNat
  else [c]

def stringText (s : String) : String :=
  "\"" ++ String.ofList (s.toList.flatMap escapeChar) ++ "\""

mutual

def valueText : Value → String
  | .null => "null"
  | .bool true => "true"
  | .bool false => "false"
  | .number n => numberText n
  | .string s => stringText s
  | .array items => "[" ++ ",".intercalate (itemTexts items) ++ "]"
  | .object fields => "\x7b" ++ ",".intercalate (fieldTexts fields) ++ "\x7d"

def itemTexts : List Value → List String
  | [] => []
  | v :: vs => valueText v :: itemTexts vs

def fieldTexts : List (String × Value) → List String
  | [] => []
  | (name, v) :: fields => (stringText name ++ ":" ++ valueText v) :: fieldTexts fields

end

end Json
end Data
end QueryLint
