/-! Finite doubles. A magnitude is `significand * 2 ^ scale` units of 2^-1074, and
numbering the magnitudes upwards from zero puts the exponent field above the 52 bits of
the fraction, so a carry out of the fraction needs no case of its own. -/
namespace AggFlatten

/-- The magnitudes of one exponent. -/
def fractionCount : Nat := Nat.pow 2 52

/-- The exponents of finite doubles, the subnormal ones included. -/
def exponentCount : Nat := 2047

structure Binary64 where
  negative : Bool
  rank : Fin (exponentCount * fractionCount)
deriving DecidableEq

namespace Binary64

def scale (x : Binary64) : Nat :=
  x.rank.val / fractionCount - 1

def significand (x : Binary64) : Nat :=
  if x.rank.val < fractionCount then x.rank.val
  else fractionCount + x.rank.val % fractionCount

/-- The magnitude in units of 2^-1074. -/
def units (x : Binary64) : Nat :=
  x.significand * Nat.pow 2 x.scale

def zero (negative : Bool) : Binary64 :=
  ⟨negative, 0, by decide⟩

/-- The integer nearest to `num / den`, the even one of two. -/
def roundEven (num den : Nat) : Nat :=
  let q := num / den
  let twice := 2 * (num % den)
  if twice < den ∨ twice = den ∧ q % 2 = 0 then q else q + 1

/-- The rank of the magnitude nearest to `num / den` units; it may lie beyond the last
finite one. -/
def nearestRank (num den : Nat) : Nat :=
  let scale := Nat.log2 (num / den) - 52
  scale * fractionCount + roundEven num (den * Nat.pow 2 scale)

/-- The double nearest to `± num / den`, if that is finite. -/
def ofRatio? (negative : Bool) (num den : Nat) : Option Binary64 :=
  let rank := nearestRank (num * Nat.pow 2 1074) den
  if h : rank < exponentCount * fractionCount then some ⟨negative, rank, h⟩ else none

/-- The double nearest to the product, if that is finite. -/
def mul? (x y : Binary64) : Option Binary64 :=
  ofRatio? (x.negative != y.negative) (x.units * y.units) (Nat.pow 2 2148)

/-- The double nearest to the quotient by a double other than zero, if that is finite. -/
def div? (x y : Binary64) : Option Binary64 :=
  ofRatio? (x.negative != y.negative) x.units y.units

/-- The greatest power of ten that is a finite double. -/
def greatestPower : Nat := 308

/-- The double nearest to `10 ^ exponent`, if that is finite. -/
def powerOfTen? (exponent : Nat) : Option Binary64 :=
  if exponent ≤ greatestPower then ofRatio? false (Nat.pow 10 exponent) 1 else none

/-- Divided by the greatest power of ten so many times, or until nothing is left. -/
def shrink? (x : Binary64) : (times : Nat) → Option Binary64
  | 0 => some x
  | times + 1 =>
    if x.rank.val = 0 then some x
    else do (← x.div? (← powerOfTen? greatestPower)).shrink? times

/-- `± significand * 10 ^ exponent`, if that is finite. The significand is rounded first, and so
is every product and quotient with a power of ten, so that the outcome can miss the nearest
double by a few. -/
def ofDecimal? (negative : Bool) (significand : Nat) (exponent : Int) : Option Binary64 := do
  let x ← ofRatio? negative significand 1
  if x.rank.val = 0 then return x
  if 0 ≤ exponent then x.mul? (← powerOfTen? exponent.toNat)
  else
    let times := (-exponent - 1).toNat / greatestPower
    let x ← x.shrink? times
    x.div? (← powerOfTen? ((-exponent).toNat - greatestPower * times))

end Binary64

end AggFlatten
