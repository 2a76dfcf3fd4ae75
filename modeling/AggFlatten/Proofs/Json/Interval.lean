import AggFlatten.Json.Shortest
import AggFlatten.Proofs.Json.Magnitude
import Mathlib.Algebra.Order.Field.Power
import Mathlib.Tactic.FieldSimp

/-! What rounds to a magnitude, as the interval between the halves next to it. Its ends are whole
quarters of 2^-1074, so that integers tell whether it holds a multiple of a power of ten. -/
namespace AggFlatten

/-- The number `digits * 10 ^ exponent`. -/
def multiple (exponent : Int) (digits : Nat) : ℚ :=
  digits * 10 ^ exponent

section multiple

variable {exponent : Int} {digits more : Nat}

theorem multiple_strictMono (exponent : Int) : StrictMono (multiple exponent) := by
  intro digits more fewer
  have power : (0 : ℚ) < 10 ^ exponent := by positivity
  have cast : (digits : ℚ) < more := by exact_mod_cast fewer
  simpa [multiple] using mul_lt_mul_of_pos_right cast power

theorem multiple_le_iff : multiple exponent digits ≤ multiple exponent more ↔ digits ≤ more :=
  (multiple_strictMono exponent).le_iff_le

end multiple

namespace Binary64

section interval

variable {x : Binary64} {rank : Nat} {exponent : Int} {digits : Nat}

/-- Below a power of two the step is half of its own. -/
theorem two_mul_gap (ranked : x.rank.val = rank + 1) : 2 * gap rank =
    if x.significand = fractionCount ∧ x.scale ≠ 0 then 2 ^ x.scale else 2 * 2 ^ x.scale := by
  by_cases power : x.significand = fractionCount ∧ x.scale ≠ 0
  · have scaled : x.scale = rank / fractionCount - 1 + 1 := by
      simp only [significand, scale, ranked, fractionCount_eq] at power ⊢
      split at power <;> omega
    rw [if_pos power, scaled, gap, Nat.pow_succ, Nat.mul_comm]
  · have scaled : x.scale = rank / fractionCount - 1 := by
      simp only [significand, scale, ranked, fractionCount_eq] at power ⊢
      split at power <;> omega
    rw [if_neg power, scaled, gap]

theorem significand_mod_two (ranked : x.rank.val = rank + 1) :
    x.significand % 2 = (rank + 1) % 2 := by
  rw [significand, ranked, fractionCount_eq]
  split <;> omega

theorem interval_eq (ranked : x.rank.val = rank + 1) : x.interval =
    ⟨2 * (unitsAt rank + unitsAt (rank + 1)), 4 * unitsAt (rank + 1),
      2 * (unitsAt (rank + 1) + unitsAt (rank + 2)), (rank + 1) % 2 = 0⟩ := by
  have units : x.units = unitsAt (rank + 1) := by rw [units_eq, ranked]
  have below := unitsAt_succ rank
  have above : unitsAt (rank + 2) = unitsAt (rank + 1) + gap (rank + 1) := unitsAt_succ (rank + 1)
  have step : gap (rank + 1) = 2 ^ x.scale := by rw [scale, ranked, gap]
  have half := two_mul_gap ranked
  simp only [interval, Nat.pow_eq, units, significand_mod_two ranked]
  rw [← half, ← step]
  congr 1 <;> omega

theorem unit_eq (exponent : Int) :
    (unit exponent : ℚ) = 2 ^ 1076 * 10 ^ exponent * factor exponent := by
  have power : ((10 ^ exponent.toNat : Nat) : ℚ) = 10 ^ exponent * factor exponent := by
    cases exponent with
    | ofNat n => simp [factor]
    | negSucc n => simp [factor, zpow_negSucc]
  simp only [unit, Nat.pow_eq, Nat.cast_mul, power, mul_assoc, Nat.cast_pow, Nat.cast_ofNat]

end interval

section rounds

variable {x : Binary64} {rank : Nat} {exponent : Int} {digits : Nat}

/-- The number of so many quarters of 2^-1074. -/
def quarters (n : Nat) : ℚ :=
  n / 4 / 2 ^ 1074

theorem quarters_strictMono : StrictMono quarters := by
  intro n m less
  have cast : (n : ℚ) < m := by exact_mod_cast less
  exact div_lt_div_of_pos_right (div_lt_div_of_pos_right cast (by norm_num)) (by positivity)

theorem quarters_add (n m : Nat) : quarters (n + m) = quarters n + quarters m := by
  rw [quarters, quarters, quarters, Nat.cast_add, add_div, add_div]

theorem quarters_two_pow (n : Nat) : quarters (2 ^ n) = 2 ^ ((n : Int) - 1076) := by
  have units : (1076 : Int) = (1074 : Nat) + (2 : Nat) := by decide
  rw [units, ← sub_sub, zpow_sub₀ two_ne_zero, zpow_sub₀ two_ne_zero, zpow_natCast, zpow_natCast,
    zpow_natCast, div_right_comm, quarters, Nat.cast_pow]
  norm_num

theorem quarters_centre (rank : Nat) : quarters (4 * unitsAt rank) = magnitude rank := by
  rw [quarters, magnitude, Nat.cast_mul, Nat.cast_ofNat, mul_div_cancel_left₀ _ (by norm_num)]

theorem quarters_halfway (rank : Nat) :
    quarters (2 * (unitsAt rank + unitsAt (rank + 1))) = halfway magnitude rank := by
  simp only [quarters, halfway, magnitude, Nat.cast_mul, Nat.cast_add, Nat.cast_ofNat]
  generalize (2 : ℚ) ^ 1074 = units
  ring

/-- Multiples of `unit` stand to multiples of the power of ten as quarters scaled by `factor`
stand to quarters. -/
theorem scaled (exponent : Int) : ∃ scale : ℚ, 0 < scale ∧
    (∀ n, ((n * factor exponent : Nat) : ℚ) = quarters n * scale) ∧
    ∀ digits, ((digits * unit exponent : Nat) : ℚ) = multiple exponent digits * scale := by
  have positive : 0 < factor exponent := Nat.pow_pos (by decide)
  have units : (2 : ℚ) ^ 1076 = 2 ^ 1074 * 4 := by
    rw [pow_add 2 1074 2, sq, two_mul, two_add_two_eq_four]
  have nonzero : (2 : ℚ) ^ 1074 ≠ 0 := by positivity
  refine ⟨2 ^ 1076 * factor exponent, by positivity, fun n => ?_, fun digits => ?_⟩
  · rw [quarters, Nat.cast_mul, units]
    generalize (2 : ℚ) ^ 1074 = units at *
    field_simp
  · rw [multiple, Nat.cast_mul, unit_eq]
    generalize (2 : ℚ) ^ 1076 = units at *
    ring

theorem quarters_le_multiple_iff {n : Nat} :
    n * factor exponent ≤ digits * unit exponent ↔ quarters n ≤ multiple exponent digits := by
  obtain ⟨scale, positive, left, right⟩ := scaled exponent
  rw [← @Nat.cast_le ℚ, left, right, mul_le_mul_iff_left₀ positive]

theorem multiple_le_quarters_iff {n : Nat} :
    digits * unit exponent ≤ n * factor exponent ↔ multiple exponent digits ≤ quarters n := by
  obtain ⟨scale, positive, left, right⟩ := scaled exponent
  rw [← @Nat.cast_le ℚ, left, right, mul_le_mul_iff_left₀ positive]

theorem holds_iff (ranked : x.rank.val = rank + 1) :
    x.interval.holds ⟨digits, exponent⟩ = true ↔
      RoundsTo (multiple exponent digits) (rank + 1) := by
  rw [roundsTo_iff, Inside, interval_eq ranked, Interval.holds]
  by_cases even : (rank + 1) % 2 = 0
  · simp [even, quarters_le_multiple_iff, multiple_le_quarters_iff, quarters_halfway]
  · simp [even, ← not_le, quarters_le_multiple_iff, multiple_le_quarters_iff, quarters_halfway]

end rounds

end Binary64

end AggFlatten
