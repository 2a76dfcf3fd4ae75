import AggFlatten.Json.Binary64
import Mathlib.Algebra.Order.Field.Rat
import Mathlib.Tactic.Linarith
import Mathlib.Tactic.Positivity
import Mathlib.Tactic.Ring

/-! The magnitudes of doubles as numbers, in the order of their ranks. A number rounds to the
magnitude nearest to it, and from halfway between two to the even one. Of points in rising order
only the two next to a point have a say in what it is the nearest to. -/
namespace AggFlatten.Binary64

section Nearest

variable {point : Nat → ℚ} {q : ℚ} {i : Nat}

/-- Halfway from a point to the next one. -/
def halfway (point : Nat → ℚ) (i : Nat) : ℚ :=
  (point i + point (i + 1)) / 2

/-- No point is nearer to the number, and if another one is as near, this is the even one. -/
structure Nearest (point : Nat → ℚ) (q : ℚ) (i : Nat) : Prop where
  nearest : ∀ j, |q - point i| ≤ |q - point j|
  even : ∀ j, j ≠ i → |q - point i| = |q - point j| → i % 2 = 0

/-- Of two numbers the greater is at least as near to all from the middle on. -/
theorem abs_sub_le_iff_middle_le {a b : ℚ} (apart : a < b) :
    |q - b| ≤ |q - a| ↔ (a + b) / 2 ≤ q := by
  rcases abs_cases (q - b) with ⟨far, _⟩ | ⟨far, _⟩ <;>
    rcases abs_cases (q - a) with ⟨near, _⟩ | ⟨near, _⟩ <;>
    rw [far, near] <;> constructor <;> intro _ <;> linarith

theorem abs_sub_le_iff_le_middle {a b : ℚ} (apart : a < b) :
    |q - a| ≤ |q - b| ↔ q ≤ (a + b) / 2 := by
  rcases abs_cases (q - b) with ⟨far, _⟩ | ⟨far, _⟩ <;>
    rcases abs_cases (q - a) with ⟨near, _⟩ | ⟨near, _⟩ <;>
    rw [far, near] <;> constructor <;> intro _ <;> linarith

/-- A point is the nearest one to what lies between the two halves next to it. -/
theorem Nearest.of_halfway (rising : StrictMono point)
    (lower : ∀ j, i = j + 1 → halfway point j ≤ q) (upper : q ≤ halfway point i)
    (even : (∃ j, i = j + 1 ∧ q = halfway point j) ∨ q = halfway point i → i % 2 = 0) :
    Nearest point q i := by
  -- Any other point lies behind one of the two next to this one, and so does the middle.
  have each : ∀ j, j ≠ i → |q - point i| ≤ |q - point j| ∧
      (|q - point i| = |q - point j| →
        (∃ j, i = j + 1 ∧ q = halfway point j) ∨ q = halfway point i) := by
    intro j apart
    rcases Nat.lt_or_gt_of_ne apart with before | behind
    · obtain ⟨previous, rfl⟩ := Nat.exists_eq_add_one_of_ne_zero (Nat.ne_zero_of_lt before)
      have reached := lower previous rfl
      have beyond := rising.monotone (Nat.le_of_lt_succ before)
      have nearer := abs_sub_le_iff_middle_le (q := q) (rising before)
      rw [halfway] at reached
      refine ⟨nearer.mpr (by linarith), fun same => .inl ⟨previous, rfl, ?_⟩⟩
      have tie := (abs_sub_le_iff_le_middle (q := q) (rising before)).mp same.ge
      rw [halfway]
      linarith
    · have beyond := rising.monotone (Nat.succ_le_of_lt behind)
      have nearer := abs_sub_le_iff_le_middle (q := q) (rising behind)
      rw [halfway] at upper
      refine ⟨nearer.mpr (by linarith), fun same => .inr ?_⟩
      have tie := (abs_sub_le_iff_middle_le (q := q) (rising behind)).mp same.ge
      rw [halfway]
      linarith
  constructor
  · intro j
    by_cases same : j = i
    · rw [same]
    · exact (each j same).1
  · intro j apart tie
    exact even ((each j apart).2 tie)

end Nearest

/-- The magnitude of a rank in units of 2^-1074. Behind the last finite one the ranks go on. -/
def unitsAt (rank : Nat) : Nat :=
  if rank < fractionCount then rank
  else (fractionCount + rank % fractionCount) * 2 ^ (rank / fractionCount - 1)

/-- The units from a magnitude to the next one. -/
def gap (rank : Nat) : Nat :=
  2 ^ (rank / fractionCount - 1)

def magnitude (rank : Nat) : ℚ :=
  unitsAt rank / 2 ^ 1074

/-- Rounding to the nearest magnitude, the even one of two. -/
def RoundsTo (q : ℚ) (rank : Nat) : Prop :=
  Nearest magnitude q rank

section units

theorem fractionCount_eq : fractionCount = 4503599627370496 := rfl

theorem units_eq (x : Binary64) : x.units = unitsAt x.rank := by
  rw [units, significand, scale, unitsAt]
  split
  · next small =>
    rw [Nat.div_eq_of_lt small]
    simp
  · rfl

theorem gap_pos (rank : Nat) : 0 < gap rank :=
  Nat.two_pow_pos _

theorem unitsAt_succ (rank : Nat) : unitsAt (rank + 1) = unitsAt rank + gap rank := by
  rw [unitsAt, unitsAt, gap, fractionCount_eq]
  by_cases small : rank + 1 < 4503599627370496
  · have first : rank / 4503599627370496 - 1 = 0 := by omega
    rw [if_pos small, if_pos (by omega), first]
    rfl
  · rw [if_neg small]
    by_cases last : (rank + 1) % 4503599627370496 = 0
    · -- The last fraction of an exponent: the next magnitude has the next exponent.
      obtain ⟨scale, divided⟩ : ∃ scale, rank / 4503599627370496 = scale := ⟨_, rfl⟩
      have next : (rank + 1) / 4503599627370496 - 1 = scale := by omega
      rw [last, next, divided]
      cases scale with
      | zero =>
        rw [if_pos (by omega)]
        omega
      | succ scale =>
        have fraction : rank % 4503599627370496 = 4503599627370495 := by omega
        rw [if_neg (by omega), fraction, Nat.add_sub_cancel, Nat.pow_succ]
        ring
    · have same : (rank + 1) / 4503599627370496 = rank / 4503599627370496 := by omega
      have fraction : (rank + 1) % 4503599627370496 = rank % 4503599627370496 + 1 := by omega
      rw [same, fraction, if_neg (by omega)]
      ring

theorem unitsAt_strictMono : StrictMono unitsAt := by
  refine strictMono_nat_of_lt_succ fun rank => ?_
  rw [unitsAt_succ]
  exact Nat.lt_add_of_pos_right (gap_pos rank)

end units

theorem magnitude_strictMono : StrictMono magnitude := by
  intro rank other before
  have units : (unitsAt rank : ℚ) < unitsAt other := by exact_mod_cast unitsAt_strictMono before
  exact div_lt_div_of_pos_right units (by positivity)

theorem magnitude_lt_halfway (rank : Nat) : magnitude rank < halfway magnitude rank := by
  have next := magnitude_strictMono (Nat.lt_succ_self rank)
  rw [halfway]
  linarith

theorem halfway_lt_magnitude (rank : Nat) : halfway magnitude rank < magnitude (rank + 1) := by
  have next := magnitude_strictMono (Nat.lt_succ_self rank)
  rw [halfway]
  linarith

/-- A number between the two halves next to a magnitude, which belong to it if it is even. -/
def Inside (rank : Nat) (q : ℚ) : Prop :=
  if (rank + 1) % 2 = 0 then halfway magnitude rank ≤ q ∧ q ≤ halfway magnitude (rank + 1)
  else halfway magnitude rank < q ∧ q < halfway magnitude (rank + 1)

section Inside

variable {rank : Nat} {p q : ℚ}

theorem Inside.halves (inside : Inside rank q) :
    halfway magnitude rank ≤ q ∧ q ≤ halfway magnitude (rank + 1) := by
  rw [Inside] at inside
  split at inside
  · exact inside
  · exact ⟨inside.1.le, inside.2.le⟩

theorem Inside.of_lt (lower : halfway magnitude rank < q)
    (upper : q < halfway magnitude (rank + 1)) : Inside rank q := by
  rw [Inside]
  split
  · exact ⟨lower.le, upper.le⟩
  · exact ⟨lower, upper⟩

theorem inside_magnitude (rank : Nat) : Inside rank (magnitude (rank + 1)) :=
  .of_lt (halfway_lt_magnitude rank) (magnitude_lt_halfway (rank + 1))

/-- With two numbers all between them are inside. -/
theorem Inside.between (first : Inside rank p) (last : Inside rank q) {c : ℚ} (behind : p ≤ c)
    (before : c ≤ q) : Inside rank c := by
  rw [Inside] at first last ⊢
  split
  · next even =>
    rw [if_pos even] at first last
    exact ⟨first.1.trans behind, before.trans last.2⟩
  · next odd =>
    rw [if_neg odd] at first last
    exact ⟨first.1.trans_le behind, before.trans_lt last.2⟩

theorem Inside.roundsTo (inside : Inside rank q) : RoundsTo q (rank + 1) := by
  obtain ⟨lower, upper⟩ := inside.halves
  refine .of_halfway magnitude_strictMono ?_ upper ?_
  · rintro _ ⟨⟩
    exact lower
  · intro reached
    by_contra odd
    rw [Inside, if_neg odd] at inside
    rcases reached with ⟨_, ⟨⟩, rfl⟩ | rfl
    · exact lt_irrefl _ inside.1
    · exact lt_irrefl _ inside.2

theorem RoundsTo.inside (rounds : RoundsTo q (rank + 1)) : Inside rank q := by
  have below := magnitude_strictMono (Nat.lt_succ_self rank)
  have above := magnitude_strictMono (Nat.lt_succ_self (rank + 1))
  have lower : halfway magnitude rank ≤ q :=
    (abs_sub_le_iff_middle_le below).mp (rounds.nearest rank)
  have upper : q ≤ halfway magnitude (rank + 1) :=
    (abs_sub_le_iff_le_middle above).mp (rounds.nearest (rank + 2))
  rw [Inside]
  split
  · exact ⟨lower, upper⟩
  · next odd =>
    refine ⟨lt_of_le_of_ne lower ?_, lt_of_le_of_ne upper ?_⟩
    · intro reached
      have tie := le_antisymm (rounds.nearest rank)
        ((abs_sub_le_iff_le_middle below).mpr reached.ge)
      exact odd (rounds.even rank (Nat.ne_of_lt (Nat.lt_succ_self rank)) tie)
    · intro reached
      have tie := le_antisymm (rounds.nearest (rank + 2))
        ((abs_sub_le_iff_middle_le above).mpr reached.ge)
      exact odd (rounds.even (rank + 2) (Nat.ne_of_gt (Nat.lt_succ_self (rank + 1))) tie)

/-- What rounds to a magnitude other than zero is what lies between the halves next to it. -/
theorem roundsTo_iff : RoundsTo q (rank + 1) ↔ Inside rank q :=
  ⟨RoundsTo.inside, Inside.roundsTo⟩

end Inside

end AggFlatten.Binary64
