import AggFlatten.Json.Number
import AggFlatten.Json.Reading

/-! Numbers as a document writes them. An integer that fits 64 bits, signed below zero
and unsigned from zero up, stays an integer; a point, an exponent, a greater magnitude
and the integer -0 make a double. A double is made of a significand of 64 bits and a power
of ten, which is fast and not exact: the nearest double is missed where the significand or the
power of ten is none itself. -/
namespace AggFlatten.Json.NumberLiteral

def digitsValue (digits : List Char) : Nat :=
  digits.foldl (fun n c => 10 * n + (c.toNat - '0'.toNat)) 0

/-- All digits at the start of the text. -/
def digitRun (text : List Char) : Reading (List Char) text :=
  ⟨text.takeWhile Char.isDigit, text.dropWhile Char.isDigit, (List.dropWhile_suffix _).length_le⟩

/-- The digits after a decimal point, if there is one. -/
def fraction (text : List Char) : Result (Option (List Char)) text :=
  match text with
  | '.' :: rest =>
    let run := digitRun rest
    if run.value = [] then
      .error (.atByte (if rest = [] then .endInValue else .invalidNumber) rest)
    else .ok (run.map some).past
  | _ => .ok (.nothing none)

/-- An exponent is read into 32 bits. Where it does not fit, a value other than zero is
out of range if the exponent is positive, and the value is zero otherwise. -/
inductive Exponent where
  | fits (n : Int)
  | vanishing
deriving DecidableEq

def greatestExponent : Nat := Nat.pow 2 31 - 1

/-- The shortest start of `digits` whose value exceeds the greatest exponent is dropped;
what follows it is returned. -/
def afterOverflow? (value : Nat) : List Char → Option (List Char)
  | [] => none
  | c :: rest =>
    let value := 10 * value + (c.toNat - '0'.toNat)
    if greatestExponent < value then some rest else afterOverflow? value rest

/-- The digits of an exponent, with the sign already read. -/
def exponentDigits (negative isZero : Bool) (text : List Char) : Result Exponent text :=
  let run := digitRun text
  if run.value = [] then
    .error (.atByte (if text = [] then .endInValue else .invalidNumber) text)
  else
    match afterOverflow? 0 run.value with
    | none =>
      let n : Int := digitsValue run.value
      .ok ⟨.fits (if negative then -n else n), run.rest, run.shorter⟩
    | some unread =>
      if negative || isZero then .ok ⟨.vanishing, run.rest, run.shorter⟩
      else .error (.before .numberOutOfRange (unread ++ run.rest))

def signedExponent (isZero : Bool) (text : List Char) : Result Exponent text :=
  match text with
  | '+' :: rest => do return (← exponentDigits false isZero rest).past
  | '-' :: rest => do return (← exponentDigits true isZero rest).past
  | text => exponentDigits false isZero text

/-- The exponent, if there is one. -/
def exponent (isZero : Bool) (text : List Char) : Result (Option Exponent) text :=
  match text with
  | 'e' :: rest | 'E' :: rest => do
    return ((← signedExponent isZero rest).map some).past
  | _ => .ok (.nothing none)

/-- The greatest significand. -/
def greatestSignificand : Nat := Nat.pow 2 64 - 1

/-- The significand with the digits appended that it has room for, and how many of them it has
none for. -/
def appendDigits (significand : Nat) : (digits : List Char) → Nat × Nat
  | [] => (significand, 0)
  | c :: rest =>
    let longer := 10 * significand + (c.toNat - '0'.toNat)
    if greatestSignificand < longer then (significand, rest.length + 1)
    else appendDigits longer rest

/-- A digit that finds no room before the point counts as a zero, and one behind it for nothing. -/
def decimal (negative : Bool) (whole places : List Char) (exponent : Int) : Option Number :=
  let (significand, above) := appendDigits 0 whole
  let (significand, dropped) := appendDigits significand places
  let exponent := exponent + above - (places.length - dropped : Nat)
  (Binary64.ofDecimal? negative significand exponent).map .float

def integer (negative : Bool) (digits : List Char) : Option Number :=
  let n := digitsValue digits
  if negative then
    if 0 < n ∧ n ≤ Nat.pow 2 63 then some (.int (-n)) else decimal true digits [] 0
  else
    if n ≤ greatestSignificand then some (.int n) else decimal false digits [] 0

/-- The value of a literal from its parts, unless it is out of range. -/
def literal (negative : Bool) (whole : List Char) :
    Option (List Char) → Option Exponent → Option Number
  | none, none => integer negative whole
  | _, some .vanishing => some (.float (.zero negative))
  | places, some (.fits n) => decimal negative whole (places.getD []) n
  | some places, none => decimal negative whole places 0

/-- A number without its sign. A zero at the start stands alone before the point. -/
def magnitude (negative : Bool) (text : List Char) : Result Number text :=
  match text with
  | [] => .error (.before .endInValue [])
  | c :: rest =>
    if !c.isDigit then .error (.atByte .invalidNumber (c :: rest))
    else
      let run := digitRun rest
      if c = '0' ∧ run.value ≠ [] then .error (.atByte .invalidNumber rest)
      else do
        let whole := c :: run.value
        let places ← fraction run.rest
        let isZero := (whole ++ places.value.getD []).all (· == '0')
        let power ← exponent isZero places.rest
        match literal negative whole places.value power.value with
        | some n =>
          return ⟨n, power.rest, Nat.le_succ_of_le <|
            Nat.le_trans power.shorter <| Nat.le_trans places.shorter run.shorter⟩
        | none => .error (.before .numberOutOfRange power.rest)

def number (text : List Char) : Result Number text :=
  match text with
  | '-' :: rest => do return (← magnitude true rest).past
  | text => magnitude false text

end AggFlatten.Json.NumberLiteral
