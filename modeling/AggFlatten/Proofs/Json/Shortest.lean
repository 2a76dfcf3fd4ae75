import AggFlatten.Proofs.Json.Interval

/-! The decimal that is written for a double, told from the numbers alone: it rounds to the double,
no decimal of a greater exponent does, and of those of its exponent it is the nearest one. The
search for it starts above all decimals that round so, and ends before its steps are used up. -/
namespace AggFlatten.Binary64

/-- The decimal rounds to the magnitude. Of those of its exponent that do it is the nearest one, and
of two that are equally near the even one. -/
structure BestOf (rank : Nat) (d : Decimal) : Prop where
  rounds : RoundsTo (multiple d.exponent d.digits) rank
  nearest : ∀ digits, RoundsTo (multiple d.exponent digits) rank →
    |magnitude rank - multiple d.exponent d.digits| ≤
      |magnitude rank - multiple d.exponent digits|
  even : ∀ digits, digits ≠ d.digits → RoundsTo (multiple d.exponent digits) rank →
    |magnitude rank - multiple d.exponent d.digits| =
      |magnitude rank - multiple d.exponent digits| → d.digits % 2 = 0

/-- No decimal of a greater exponent rounds to the magnitude. -/
structure ShortestOf (rank : Nat) (d : Decimal) : Prop extends BestOf rank d where
  coarsest : ∀ exponent digits, RoundsTo (multiple exponent digits) rank → exponent ≤ d.exponent

/-- A double is written as its shortest decimal, and zero, which all powers of ten have for a
multiple, as the digit 0. -/
inductive StandsFor (x : Binary64) : Decimal → Prop where
  | zero (none : x.rank.val = 0) : StandsFor x ⟨0, 0⟩
  | shortest {d : Decimal} (some : x.rank.val ≠ 0) (short : ShortestOf x.rank d) : StandsFor x d

section ShortestOf

variable {rank : Nat} {d other : Decimal}

/-- Between two even digits there is an odd one, which is nearer. -/
theorem not_equally_near {exponent : Int} {few many : Nat} (fewer : few < many)
    (even : few % 2 = 0) (even' : many % 2 = 0)
    (rounds : RoundsTo (multiple exponent few) (rank + 1))
    (rounds' : RoundsTo (multiple exponent many) (rank + 1))
    (nearest : ∀ digits, RoundsTo (multiple exponent digits) (rank + 1) →
      |magnitude (rank + 1) - multiple exponent few| ≤
        |magnitude (rank + 1) - multiple exponent digits|) :
    |magnitude (rank + 1) - multiple exponent many| ≠
      |magnitude (rank + 1) - multiple exponent few| := by
  intro tie
  have below : multiple exponent few < multiple exponent (few + 1) :=
    multiple_strictMono exponent (Nat.lt_succ_self few)
  have above : multiple exponent (few + 1) < multiple exponent many :=
    multiple_strictMono exponent (by omega)
  have between := nearest _ (rounds.inside.between rounds'.inside below.le above.le).roundsTo
  have left := (abs_sub_le_iff_le_middle below).mp between
  have right := (abs_sub_le_iff_middle_le above).mp (tie.trans_le between)
  linarith

theorem ShortestOf.unique (first : ShortestOf (rank + 1) d)
    (second : ShortestOf (rank + 1) other) : d = other := by
  obtain ⟨digits, exponent⟩ := d
  obtain ⟨digits', exponent'⟩ := other
  obtain rfl : exponent = exponent' :=
    le_antisymm (second.coarsest _ _ first.rounds) (first.coarsest _ _ second.rounds)
  have tie := le_antisymm (first.nearest digits' second.rounds) (second.nearest digits first.rounds)
  by_cases same : digits = digits'
  · rw [same]
  · have even := first.even digits' (Ne.symm same) second.rounds tie
    have even' := second.even digits same first.rounds tie.symm
    rcases Nat.lt_or_gt_of_ne same with fewer | fewer
    · exact absurd tie.symm
        (not_equally_near fewer even even' first.rounds second.rounds first.nearest)
    · exact absurd tie
        (not_equally_near fewer even' even second.rounds first.rounds second.nearest)

end ShortestOf

section roundEven

variable {num den : Nat}

theorem roundEven_eq_or (num den : Nat) :
    roundEven num den = num / den ∨ roundEven num den = num / den + 1 := by
  dsimp only [roundEven]
  split <;> simp

/-- The bounds of what is rounded to an integer, and its parity at them. -/
theorem roundEven_bounds (num : Nat) (positive : 0 < den) :
    (∀ previous, roundEven num den = previous + 1 → (2 * previous + 1) * den ≤ 2 * num) ∧
    2 * num ≤ (2 * roundEven num den + 1) * den ∧
    ((∃ previous, roundEven num den = previous + 1 ∧ 2 * num = (2 * previous + 1) * den) ∨
      2 * num = (2 * roundEven num den + 1) * den → roundEven num den % 2 = 0) := by
  have divided := Nat.div_add_mod num den
  have left := Nat.mod_lt num positive
  dsimp only [roundEven]
  generalize num / den = quotient at *
  generalize num % den = rest at *
  have distribute (n : Nat) : (2 * n + 1) * den = 2 * (den * n) + den := by ring
  simp only [distribute]
  split
  · next down =>
    refine ⟨?_, by omega, ?_⟩
    · rintro previous rfl
      rw [Nat.mul_succ] at divided
      omega
    · rintro (⟨previous, rfl, tie⟩ | tie)
      · rw [Nat.mul_succ] at divided
        omega
      · omega
  · next up =>
    refine ⟨?_, ?_, ?_⟩
    · rintro previous ⟨⟩
      omega
    · rw [Nat.mul_succ]
      omega
    · rintro (⟨previous, ⟨⟩, tie⟩ | tie)
      · omega
      · rw [Nat.mul_succ] at tie
        omega

/-- Whatever the scale, rounding finds the nearest one of points at equal distances. -/
theorem nearest_roundEven {point : Nat → ℚ} {q scale : ℚ} (rising : StrictMono point)
    (positive : 0 < den) (positive' : 0 < scale) (total : (num : ℚ) = q * scale)
    (each : ∀ i, ((i * den : Nat) : ℚ) = point i * scale) :
    Nearest point q (roundEven num den) := by
  have twice (i : Nat) : (((2 * i + 1) * den : Nat) : ℚ) = 2 * halfway point i * scale := by
    have here := each i
    have next := each (i + 1)
    rw [halfway]
    push_cast at here next ⊢
    linarith
  have total' : ((2 * num : Nat) : ℚ) = 2 * q * scale := by
    push_cast
    linarith
  have below (i : Nat) : halfway point i ≤ q ↔ (2 * i + 1) * den ≤ 2 * num := by
    rw [← @Nat.cast_le ℚ, twice, total', mul_le_mul_iff_left₀ positive',
      mul_le_mul_iff_right₀ two_pos]
  have above (i : Nat) : q ≤ halfway point i ↔ 2 * num ≤ (2 * i + 1) * den := by
    rw [← @Nat.cast_le ℚ, twice, total', mul_le_mul_iff_left₀ positive',
      mul_le_mul_iff_right₀ two_pos]
  have reached (i : Nat) : q = halfway point i ↔ 2 * num = (2 * i + 1) * den := by
    rw [le_antisymm_iff, below, above, le_antisymm_iff]
  obtain ⟨lower, upper, even⟩ := roundEven_bounds num positive
  refine .of_halfway rising ?_ ((above _).mpr upper) ?_
  · intro previous next
    exact (below previous).mpr (lower previous next)
  · simpa only [reached] using even

end roundEven

section multiple?

variable {x : Binary64} {rank digits : Nat} {exponent : Int} {d : Decimal}

theorem multiple?_eq (i : Interval) (exponent : Int) : i.multiple? exponent =
    let floor := i.centre * factor exponent / unit exponent
    let nearest := roundEven (i.centre * factor exponent) (unit exponent)
    if i.holds ⟨nearest, exponent⟩ then some ⟨nearest, exponent⟩
    else if i.holds ⟨floor, exponent⟩ then some ⟨floor, exponent⟩
    else if i.holds ⟨floor + 1, exponent⟩ then some ⟨floor + 1, exponent⟩ else none := by
  simp only [Interval.multiple?, List.findSome?_cons, List.findSome?_nil]
  grind

theorem unit_pos (exponent : Int) : 0 < unit exponent := by
  simp only [unit, Nat.pow_eq]
  positivity

/-- The two multiples around the centre. -/
theorem floor_bounds (ranked : x.rank.val = rank + 1) (exponent : Int) :
    let floor := x.interval.centre * factor exponent / unit exponent
    multiple exponent floor ≤ magnitude (rank + 1) ∧
      magnitude (rank + 1) < multiple exponent (floor + 1) := by
  intro floor
  rw [← quarters_centre, ← multiple_le_quarters_iff, ← not_le, ← multiple_le_quarters_iff, not_le]
  have centre : x.interval.centre = 4 * unitsAt (rank + 1) := by rw [interval_eq ranked]
  rw [← centre, Nat.mul_comm floor, Nat.mul_comm (floor + 1)]
  exact ⟨Nat.mul_div_le _ _, Nat.lt_mul_div_succ _ (unit_pos exponent)⟩

theorem nearest_multiple (ranked : x.rank.val = rank + 1) (exponent : Int) :
    Nearest (multiple exponent) (magnitude (rank + 1))
      (roundEven (x.interval.centre * factor exponent) (unit exponent)) := by
  obtain ⟨scale, positive, left, right⟩ := scaled exponent
  refine nearest_roundEven (multiple_strictMono exponent) (unit_pos exponent) positive ?_ right
  rw [left, interval_eq ranked, quarters_centre]

/-- What is nearer than all others is the best, without a question of parity. -/
theorem bestOf_of_nearer (rounds : RoundsTo (multiple d.exponent d.digits) rank)
    (nearer : ∀ digits, digits ≠ d.digits → RoundsTo (multiple d.exponent digits) rank →
      |magnitude rank - multiple d.exponent d.digits| <
        |magnitude rank - multiple d.exponent digits|) : BestOf rank d where
  rounds := rounds
  nearest digits rounds' := by
    by_cases same : digits = d.digits
    · rw [same]
    · exact (nearer digits same rounds').le
  even digits other rounds' tie := absurd tie (nearer digits other rounds').ne

theorem bestOf_below (rounds : RoundsTo (multiple exponent digits) (rank + 1))
    (under : multiple exponent digits ≤ magnitude (rank + 1))
    (next : ¬RoundsTo (multiple exponent (digits + 1)) (rank + 1)) :
    BestOf (rank + 1) ⟨digits, exponent⟩ := by
  refine bestOf_of_nearer rounds fun other apart rounds' => ?_
  have fewer : other < digits := by
    by_contra many
    refine next (rounds.inside.between rounds'.inside ?_ ?_).roundsTo
    · exact multiple_le_iff.mpr (by omega)
    · exact multiple_le_iff.mpr (by dsimp only at apart; omega)
  have further := multiple_strictMono exponent fewer
  rw [abs_of_nonneg (by linarith), abs_of_nonneg (by linarith)]
  linarith

theorem bestOf_above (rounds : RoundsTo (multiple exponent (digits + 1)) (rank + 1))
    (beyond : magnitude (rank + 1) < multiple exponent (digits + 1))
    (previous : ¬RoundsTo (multiple exponent digits) (rank + 1)) :
    BestOf (rank + 1) ⟨digits + 1, exponent⟩ := by
  refine bestOf_of_nearer rounds fun other apart rounds' => ?_
  have more : digits + 1 < other := by
    by_contra few
    refine previous (rounds'.inside.between rounds.inside ?_ ?_).roundsTo
    · exact multiple_le_iff.mpr (by dsimp only at apart; omega)
    · exact multiple_le_iff.mpr (by omega)
  have further := multiple_strictMono exponent more
  rw [abs_of_neg (by linarith), abs_of_neg (by linarith)]
  linarith

theorem bestOf_of_multiple? (ranked : x.rank.val = rank + 1)
    (found : x.interval.multiple? exponent = some d) :
    d.exponent = exponent ∧ BestOf (rank + 1) d := by
  obtain ⟨under, beyond⟩ := floor_bounds ranked exponent
  have nearest := nearest_multiple ranked exponent
  have either := roundEven_eq_or (x.interval.centre * factor exponent) (unit exponent)
  rw [multiple?_eq] at found
  dsimp only at found
  generalize x.interval.centre * factor exponent / unit exponent = floor at *
  generalize roundEven (x.interval.centre * factor exponent) (unit exponent) = near at *
  split at found
  · next rounds =>
    obtain rfl := Option.some.inj found
    exact ⟨rfl, (holds_iff ranked).mp rounds, fun digits _ => nearest.nearest digits,
      fun digits other _ tie => nearest.even digits other tie⟩
  · next far =>
    -- The nearest multiple rounds to another magnitude, and so does one of the two.
    split at found
    · next rounds =>
      obtain rfl := Option.some.inj found
      have next : near = floor + 1 := either.resolve_left (by rintro rfl; exact far rounds)
      rw [next, holds_iff ranked] at far
      exact ⟨rfl, bestOf_below ((holds_iff ranked).mp rounds) under far⟩
    · next below =>
      split at found
      · next rounds =>
        obtain rfl := Option.some.inj found
        rw [holds_iff ranked] at below
        exact ⟨rfl, bestOf_above ((holds_iff ranked).mp rounds) beyond below⟩
      · cases found

theorem not_holds_of_multiple? {i : Interval} (none : i.multiple? exponent = none) :
    let floor := i.centre * factor exponent / unit exponent
    ¬i.holds ⟨floor, exponent⟩ ∧ ¬i.holds ⟨floor + 1, exponent⟩ := by
  rw [multiple?_eq] at none
  dsimp only at none
  split at none
  · cases none
  · split at none
    · cases none
    · split at none
      · cases none
      · next below above => exact ⟨below, above⟩

/-- Between the magnitude and a multiple that rounds to it stands one of the two around it. -/
theorem not_rounds_of_multiple? (ranked : x.rank.val = rank + 1)
    (none : x.interval.multiple? exponent = none) (digits : Nat) :
    ¬RoundsTo (multiple exponent digits) (rank + 1) := by
  obtain ⟨under, beyond⟩ := floor_bounds ranked exponent
  obtain ⟨below, above⟩ := not_holds_of_multiple? none
  have centre := inside_magnitude rank
  rw [holds_iff ranked, roundsTo_iff] at below above
  rw [roundsTo_iff]
  intro rounds
  rcases Nat.lt_or_ge (x.interval.centre * factor exponent / unit exponent) digits with more | few
  · exact above (centre.between rounds beyond.le (multiple_le_iff.mpr more))
  · exact below (rounds.between centre (multiple_le_iff.mpr few) under)

end multiple?

section coarsest

variable {i : Interval} {exponent : Int} {steps : Nat}

/-- The search ends at the first power of ten with a multiple in the interval. -/
theorem exists_coarsest
    (within : ∃ down, down < steps ∧ (i.multiple? (exponent - down)).isSome) :
    ∃ reached ≤ exponent, i.multiple? reached = some (i.coarsest exponent steps) ∧
      ∀ above, reached < above → above ≤ exponent → i.multiple? above = none := by
  induction steps generalizing exponent with
  | zero => simp at within
  | succ steps ih =>
    rw [Interval.coarsest]
    cases found : i.multiple? exponent with
    | some d => exact ⟨exponent, le_rfl, found, fun above _ _ => by omega⟩
    | none =>
      obtain ⟨down, few, some⟩ := within
      have further : ∃ down, down < steps ∧ (i.multiple? (exponent - 1 - down)).isSome := by
        cases down with
        | zero => simp [found] at some
        | succ down =>
          refine ⟨down, by omega, ?_⟩
          rwa [Int.sub_sub, Int.add_comm]
      obtain ⟨reached, below, last, others⟩ := ih further
      refine ⟨reached, by omega, last, fun above behind upTo => ?_⟩
      by_cases first : above = exponent
      · rw [first, found]
      · exact others above behind (by omega)

end coarsest

section bounds

variable {x : Binary64} {rank digits : Nat} {exponent : Int}

/-- The logarithm of two to the base ten lies between 59 / 196 and 28 / 93. -/
theorem two_zpow_le_ten_zpow {twos tens : Int} (rising : 28 * twos ≤ 93 * tens)
    (falling : 59 * twos ≤ 196 * tens) : (2 : ℚ) ^ twos ≤ 10 ^ tens := by
  have root (power : Nat) (nonzero : power ≠ 0) {beyond : Int} (within : beyond ≤ power * tens)
      (raised : ((2 : ℚ) ^ twos) ^ power ≤ 10 ^ beyond) : (2 : ℚ) ^ twos ≤ 10 ^ tens := by
    refine le_of_pow_le_pow_left₀ nonzero (by positivity) (raised.trans ?_)
    rw [← zpow_natCast, ← zpow_mul, mul_comm tens]
    exact zpow_le_zpow_right₀ (by norm_num) within
  rcases Int.eq_nat_or_neg twos with ⟨n, rfl | rfl⟩
  · refine root 93 (by decide) rising ?_
    rw [zpow_natCast, pow_right_comm, zpow_mul, zpow_natCast]
    exact pow_le_pow_left₀ (by norm_num) (by norm_num) n
  · refine root 196 (by decide) falling ?_
    rw [zpow_neg, zpow_natCast, inv_pow, pow_right_comm, mul_neg, zpow_neg, zpow_mul,
      zpow_natCast]
    refine inv_anti₀ (by positivity) ?_
    exact pow_le_pow_left₀ (by norm_num) (by norm_num) n

theorem ten_zpow_le_two_zpow {twos tens : Int} (rising : 196 * tens ≤ 59 * twos)
    (falling : 93 * tens ≤ 28 * twos) : (10 : ℚ) ^ tens ≤ 2 ^ twos := by
  have inverse : (2 : ℚ) ^ (-twos) ≤ 10 ^ (-tens) :=
    two_zpow_le_ten_zpow (by omega) (by omega)
  rw [zpow_neg, zpow_neg] at inverse
  exact (inv_le_inv₀ (by positivity) (by positivity)).mp inverse

/-- A step is no greater than the magnitude it starts at, and no smaller than its 2^53rd part. -/
theorem unitsAt_bounds (rank : Nat) :
    gap (rank + 1) ≤ unitsAt (rank + 1) ∧ unitsAt (rank + 1) < 2 ^ 53 * gap (rank + 1) := by
  rw [gap, unitsAt, fractionCount_eq]
  split
  · next small =>
    rw [Nat.div_eq_of_lt small]
    omega
  · have fraction := Nat.mod_lt (rank + 1) (show 4503599627370496 > 0 by decide)
    generalize (rank + 1) % 4503599627370496 = part at *
    constructor
    · exact Nat.le_mul_of_pos_left _ (by omega)
    · exact Nat.mul_lt_mul_of_pos_right (by omega) (Nat.two_pow_pos _)

theorem ceiling_eq (ranked : x.rank.val = rank + 1) : x.interval.ceiling =
    ((Nat.log2 (4 * unitsAt (rank + 1)) : Int) + 1 - 1076) * 30103 / 100000 + 1 := by
  rw [Interval.ceiling, interval_eq ranked, Nat.cast_add, Nat.cast_one]

theorem exists_scale (ranked : x.rank.val = rank + 1) : ∃ scale, scale < 2046 ∧
    gap (rank + 1) = 2 ^ scale ∧ Nat.log2 (4 * unitsAt (rank + 1)) < 55 + scale := by
  have finite := x.rank.isLt
  rw [ranked, exponentCount, fractionCount_eq] at finite
  obtain ⟨small, great⟩ := unitsAt_bounds rank
  refine ⟨_, ?_, rfl, ?_⟩
  · rw [fractionCount_eq]
    omega
  · have nonzero : 4 * unitsAt (rank + 1) ≠ 0 := by
      have := gap_pos (rank + 1)
      omega
    rw [Nat.log2_lt nonzero, Nat.pow_add, ← gap]
    omega

/-- Whatever rounds to a magnitude is less than twice as great. -/
theorem exponent_le_ceiling (ranked : x.rank.val = rank + 1)
    (rounds : RoundsTo (multiple exponent digits) (rank + 1)) :
    exponent ≤ x.interval.ceiling := by
  obtain ⟨scale, finite, _, few⟩ := exists_scale ranked
  obtain ⟨small, _⟩ := unitsAt_bounds rank
  obtain ⟨lower, upper⟩ := rounds.inside.halves
  have logged := Nat.lt_log2_self (n := 4 * unitsAt (rank + 1))
  rw [ceiling_eq ranked]
  generalize Nat.log2 (4 * unitsAt (rank + 1)) = log at *
  by_contra above
  have under : halfway magnitude (rank + 1) < 2 ^ ((log + 2 : Nat) - 1076 : Int) := by
    rw [← quarters_halfway, ← quarters_two_pow, unitsAt_succ (rank + 1), Nat.pow_succ]
    apply quarters_strictMono
    omega
  have beyond : (2 : ℚ) ^ ((log + 2 : Nat) - 1076 : Int) ≤ 10 ^ exponent :=
    two_zpow_le_ten_zpow (by omega) (by omega)
  have some : 0 < digits := by
    have positive : 0 < multiple exponent digits := by
      have nonnegative : 0 ≤ magnitude rank := div_nonneg (Nat.cast_nonneg _) (by positivity)
      have behind := magnitude_lt_halfway rank
      linarith
    by_contra none
    rw [Nat.eq_zero_of_not_pos none, multiple, Nat.cast_zero, zero_mul] at positive
    exact lt_irrefl _ positive
  have once : multiple exponent 1 ≤ multiple exponent digits := multiple_le_iff.mpr some
  rw [multiple, Nat.cast_one, one_mul] at once
  linarith

/-- The multiples of this power of ten are nearer to each other than the ends of the interval. -/
theorem exists_rounds (ranked : x.rank.val = rank + 1) :
    ∃ digits, RoundsTo (multiple (x.interval.ceiling - 19) digits) (rank + 1) := by
  obtain ⟨scale, finite, step, few⟩ := exists_scale ranked
  obtain ⟨under, beyond⟩ := floor_bounds ranked (x.interval.ceiling - 19)
  refine ⟨_, (Inside.of_lt ((halfway_lt_magnitude rank).trans beyond) ?_).roundsTo⟩
  have fine : (10 : ℚ) ^ (x.interval.ceiling - 19) ≤ quarters (gap (rank + 1)) := by
    rw [step, quarters_two_pow, ceiling_eq ranked]
    exact ten_zpow_le_two_zpow (by omega) (by omega)
  have next (digits : Nat) : multiple (x.interval.ceiling - 19) (digits + 1) =
      multiple (x.interval.ceiling - 19) digits + 10 ^ (x.interval.ceiling - 19) := by
    rw [multiple, multiple, Nat.cast_add, Nat.cast_one, add_one_mul]
  have inside : quarters (4 * unitsAt (rank + 1) + gap (rank + 1)) <
      halfway magnitude (rank + 1) := by
    have positive := gap_pos (rank + 1)
    rw [← quarters_halfway, unitsAt_succ (rank + 1)]
    apply quarters_strictMono
    omega
  rw [quarters_add, quarters_centre] at inside
  rw [next]
  linarith

end bounds

section shortest

variable {x : Binary64} {rank : Nat} {d : Decimal}

theorem shortestOf_shortest (ranked : x.rank.val = rank + 1) :
    ShortestOf (rank + 1) x.shortest := by
  have within : ∃ down : Nat, down < 20 ∧
      (x.interval.multiple? (x.interval.ceiling - down)).isSome := by
    refine ⟨19, by decide, ?_⟩
    obtain ⟨digits, rounds⟩ := exists_rounds ranked
    by_contra none
    rw [Option.not_isSome_iff_eq_none] at none
    exact not_rounds_of_multiple? ranked none digits rounds
  obtain ⟨reached, _, found, others⟩ := exists_coarsest within
  have searched : x.shortest = x.interval.coarsest x.interval.ceiling 20 := by
    rw [shortest, if_neg (by omega)]
  rw [← searched] at found
  obtain ⟨rfl, best⟩ := bestOf_of_multiple? ranked found
  refine ⟨best, fun exponent digits rounds => ?_⟩
  by_contra above
  have none := others exponent (by omega) (exponent_le_ceiling ranked rounds)
  exact not_rounds_of_multiple? ranked none digits rounds

theorem standsFor_iff : x.StandsFor d ↔ d = x.shortest := by
  cases ranked : x.rank.val with
  | zero =>
    have zero : x.shortest = ⟨0, 0⟩ := by rw [shortest, if_pos ranked]
    rw [zero]
    constructor
    · rintro (_ | ⟨some, _⟩)
      · rfl
      · exact absurd ranked some
    · rintro rfl
      exact .zero ranked
  | succ rank =>
    have short : ShortestOf x.rank x.shortest := ranked ▸ shortestOf_shortest ranked
    constructor
    · rintro (⟨none⟩ | ⟨_, short'⟩)
      · omega
      · rw [ranked] at short short'
        exact short'.unique short
    · rintro rfl
      exact .shortest (by omega) short

end shortest

end AggFlatten.Binary64
