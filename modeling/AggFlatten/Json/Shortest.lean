import AggFlatten.Json.Binary64

/-! The shortest decimal of a double: the multiple of the greatest power of ten that
rounds to the double. Of two such multiples it is the nearer one, and of two equally
near ones the even one. -/
namespace AggFlatten

/-- The number `digits * 10 ^ exponent`. -/
structure Decimal where
  digits : Nat
  exponent : Int
deriving DecidableEq

namespace Binary64

/-- The reals that round to a magnitude, measured in quarters of 2^-1074. The ends
belong to them when the significand is even. -/
structure Interval where
  low : Nat
  centre : Nat
  high : Nat
  closed : Bool

/-- Half the distance to each neighbour. The one below a power of two is nearer
than the one above, except at the bottom of the range. -/
def interval (x : Binary64) : Interval :=
  let centre := 4 * x.units
  let step := Nat.pow 2 x.scale
  let below := if x.significand = fractionCount ∧ x.scale ≠ 0 then step else 2 * step
  ⟨centre - below, centre, centre + 2 * step, x.significand % 2 = 0⟩

/-- Multiples of `10 ^ exponent` stand to the interval as multiples of `unit` stand to the
interval scaled by `factor`. -/
def unit (exponent : Int) : Nat := Nat.pow 2 1076 * Nat.pow 10 exponent.toNat

def factor (exponent : Int) : Nat := Nat.pow 10 (-exponent).toNat

def Interval.holds (i : Interval) (d : Decimal) : Bool :=
  let low := i.low * factor d.exponent
  let high := i.high * factor d.exponent
  let point := d.digits * unit d.exponent
  if i.closed then low ≤ point && point ≤ high else low < point && point < high

/-- The multiple of `10 ^ exponent` that stands for the interval, if it holds one.
Only the two multiples around the centre can. -/
def Interval.multiple? (i : Interval) (exponent : Int) : Option Decimal :=
  let floor := i.centre * factor exponent / unit exponent
  let nearest := roundEven (i.centre * factor exponent) (unit exponent)
  [nearest, floor, floor + 1].findSome? fun digits =>
    if i.holds ⟨digits, exponent⟩ then some ⟨digits, exponent⟩ else none

/-- A power of ten above the magnitude: log 2 to the base ten is less than 0.30103. -/
def Interval.ceiling (i : Interval) : Int :=
  ((Nat.log2 i.centre + 1 : Nat) - 1076 : Int) * 30103 / 100000 + 1

/-- The first power of ten, from `exponent` down, with a multiple in the interval. -/
def Interval.coarsest (i : Interval) (exponent : Int) : Nat → Decimal
  | 0 => ⟨roundEven (i.centre * factor exponent) (unit exponent), exponent⟩
  | steps + 1 =>
    match i.multiple? exponent with
    | some d => d
    | none => i.coarsest (exponent - 1) steps

/-- Seventeen digits always suffice, so twenty steps do. No interval is left of zero:
its magnitude is written as the digit 0. -/
def shortest (x : Binary64) : Decimal :=
  if x.rank.val = 0 then ⟨0, 0⟩ else x.interval.coarsest x.interval.ceiling 20

end Binary64

end AggFlatten
