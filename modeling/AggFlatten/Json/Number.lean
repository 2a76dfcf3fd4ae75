import AggFlatten.Json.Shortest

/-! Numbers of a document. An integer and a double of the same value are different
numbers and are written differently. -/
namespace AggFlatten

inductive Number where
  | int (n : Int)
  | float (x : Binary64)
deriving DecidableEq

namespace Number

def intChars : Int → List Char
  | .ofNat n => Nat.toDigits 10 n
  | .negSucc n => '-' :: Nat.toDigits 10 (n + 1)

/-- The sign of the exponent is always written, and its digits are not padded. -/
def exponentChars (exponent : Int) : List Char :=
  'e' :: if exponent < 0 then intChars exponent else '+' :: intChars exponent

/-- Positional from 1e-5 up to 1e16, with at least one digit after the point, and
scientific beyond, with no point after a single digit. `point` counts the digits
before the decimal point. -/
def decimalChars (d : Decimal) : List Char :=
  let digits := Nat.toDigits 10 d.digits
  let point := digits.length + d.exponent
  if 0 < point ∧ point ≤ 16 then
    if 0 ≤ d.exponent then digits ++ List.replicate d.exponent.toNat '0' ++ ['.', '0']
    else digits.take point.toNat ++ '.' :: digits.drop point.toNat
  else if -5 < point ∧ point ≤ 0 then
    '0' :: '.' :: List.replicate (-point).toNat '0' ++ digits
  else
    match digits with
    | [digit] => digit :: exponentChars (point - 1)
    | first :: rest => first :: '.' :: rest ++ exponentChars (point - 1)
    | [] => []

def chars : Number → List Char
  | .int n => intChars n
  | .float x =>
    if x.negative then '-' :: decimalChars x.shortest else decimalChars x.shortest

end Number

end AggFlatten
