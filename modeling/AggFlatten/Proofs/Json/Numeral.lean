import AggFlatten.Json.Number
import AggFlatten.Proofs.Json.Shortest

/-! The text of a number. An integer is written as its numeral. A double is written as the decimal
that stands for it: positional while the point is within reach of the digits, and else with the
point behind the first digit and the power of ten that this leaves out. -/
namespace AggFlatten

namespace Decimal

def numeral (d : Decimal) : List Char :=
  (toString d.digits).toList

/-- The sign of a power is written whether or not it is negative. -/
def powerText (power : Int) : List Char :=
  'e' :: (if power < 0 then '-' else '+') :: (toString power.natAbs).toList

/-- The layouts of a decimal. Zeros fill the places up to the point or behind it, and a point has a
digit on either side; a digit alone takes none before a power. -/
inductive LaidOut (d : Decimal) : List Char → Prop where
  | whole {zeros : Nat} (scaled : d.exponent = zeros) (short : d.numeral.length + zeros ≤ 16) :
      LaidOut d (d.numeral ++ List.replicate zeros '0' ++ ['.', '0'])
  | split {front back : List Char} (cut : d.numeral = front ++ back)
      (scaled : d.exponent = -back.length) (before : front ≠ []) (behind : back ≠ [])
      (short : front.length ≤ 16) : LaidOut d (front ++ '.' :: back)
  | fraction {zeros : Nat} (scaled : d.exponent = -(zeros + d.numeral.length : Nat))
      (short : zeros < 5) : LaidOut d ('0' :: '.' :: List.replicate zeros '0' ++ d.numeral)
  | digit {digit : Char} (cut : d.numeral = [digit]) (far : d.exponent < -5 ∨ 16 ≤ d.exponent) :
      LaidOut d (digit :: powerText d.exponent)
  | scientific {first : Char} {rest : List Char} {power : Int} (cut : d.numeral = first :: rest)
      (more : rest ≠ []) (scaled : d.exponent = power - rest.length)
      (far : power < -5 ∨ 16 ≤ power) : LaidOut d (first :: '.' :: rest ++ powerText power)

section LaidOut

variable {d : Decimal} {text : List Char}

theorem numeral_eq (d : Decimal) : d.numeral = Nat.toDigits 10 d.digits := by
  rw [numeral, Nat.toString_eq_repr, Nat.toList_repr]

theorem numeral_pos (d : Decimal) : 0 < d.numeral.length := by
  rw [numeral_eq]
  exact List.length_pos_of_ne_nil Nat.toDigits_ne_nil

theorem powerText_eq (power : Int) : powerText power = Number.exponentChars power := by
  rw [powerText, Number.exponentChars]
  cases power with
  | ofNat n =>
    have positive : ¬(Int.ofNat n < 0) := by simp
    rw [if_neg positive, if_neg positive, Nat.toString_eq_repr, Nat.toList_repr]
    rfl
  | negSucc n =>
    rw [if_pos (Int.negSucc_lt_zero n), if_pos (Int.negSucc_lt_zero n), Nat.toString_eq_repr,
      Nat.toList_repr]
    rfl

theorem LaidOut.text_eq (laid : d.LaidOut text) : text = Number.decimalChars d := by
  have some := d.numeral_pos
  rw [Number.decimalChars, ← numeral_eq]
  cases laid with
  | whole scaled short =>
    rw [if_pos (by omega), if_pos (by omega), scaled, Int.toNat_natCast]
  | @split front back cut scaled before behind short =>
    have size := congrArg List.length cut
    have first := List.length_pos_of_ne_nil before
    have last := List.length_pos_of_ne_nil behind
    rw [List.length_append] at size
    have point : (d.numeral.length + d.exponent : Int).toNat = front.length := by omega
    rw [if_pos (by omega), if_neg (by omega), point, cut, List.take_left, List.drop_left]
  | @fraction zeros scaled short =>
    have point : (-(d.numeral.length + d.exponent : Int)).toNat = zeros := by omega
    rw [if_neg (by omega), if_pos (by omega), point]
  | digit cut far =>
    rw [cut, List.length_singleton, if_neg (by omega), if_neg (by omega), powerText_eq]
    simp
  | @scientific first rest power cut more scaled far =>
    obtain ⟨next, rest, rfl⟩ := List.exists_cons_of_ne_nil more
    simp only [List.length_cons] at scaled
    have power_eq : ((first :: next :: rest).length + d.exponent : Int) - 1 = power := by
      simp only [List.length_cons]
      omega
    rw [cut, if_neg (by omega), if_neg (by omega), powerText_eq]
    simp only [power_eq]

theorem laidOut_decimalChars (d : Decimal) : d.LaidOut (Number.decimalChars d) := by
  have some := d.numeral_pos
  rw [Number.decimalChars, ← numeral_eq]
  split
  · next near =>
    split
    · exact .whole (by omega) (by omega)
    · refine .split (List.take_append_drop _ _).symm ?_ ?_ ?_ ?_
      · simp only [List.length_drop]
        omega
      · apply List.ne_nil_of_length_pos
        simp only [List.length_take]
        omega
      · apply List.ne_nil_of_length_pos
        simp only [List.length_drop]
        omega
      · simp only [List.length_take]
        omega
  · split
    · exact .fraction (by omega) (by omega)
    · rw [← powerText_eq]
      split
      · next digit cut =>
        have alone : d.numeral.length = 1 := by rw [cut, List.length_singleton]
        have power : (d.numeral.length + d.exponent : Int) - 1 = d.exponent := by omega
        rw [power]
        exact .digit cut (by omega)
      · next first rest more cut =>
        have length : d.numeral.length = rest.length + 1 := by rw [cut, List.length_cons]
        exact .scientific cut more (by omega) (by omega)
      · next none =>
        rw [none] at some
        cases some

theorem laidOut_iff : d.LaidOut text ↔ text = Number.decimalChars d := by
  constructor
  · exact LaidOut.text_eq
  · rintro rfl
    exact laidOut_decimalChars d

end LaidOut

end Decimal

/-- The text of a number, told without the way it is found. -/
inductive Number.Spelled : Number → List Char → Prop where
  | int {n : Int} : Spelled (.int n) (toString n).toList
  | positive {x : Binary64} {d : Decimal} {text : List Char} (unsigned : x.negative = false)
      (stands : x.StandsFor d) (laid : d.LaidOut text) : Spelled (.float x) text
  | negative {x : Binary64} {d : Decimal} {text : List Char} (signed : x.negative = true)
      (stands : x.StandsFor d) (laid : d.LaidOut text) : Spelled (.float x) ('-' :: text)

namespace Number

theorem toList_toString (n : Int) : (toString n).toList = intChars n := by
  cases n with
  | ofNat n => exact Nat.toList_repr
  | negSucc n =>
    have text : toString (Int.negSucc n) = "-" ++ Nat.repr (n + 1) := rfl
    rw [text, String.toList_append, Nat.toList_repr]
    rfl

theorem spelled_iff {n : Number} {text : List Char} : n.Spelled text ↔ text = n.chars := by
  cases n with
  | int n =>
    rw [chars, ← toList_toString]
    constructor
    · rintro ⟨⟩
      rfl
    · rintro rfl
      exact .int
  | float x =>
    rw [chars]
    constructor
    · intro spelled
      cases spelled with
      | positive unsigned stands laid =>
        obtain rfl := Binary64.standsFor_iff.mp stands
        rw [unsigned, Decimal.laidOut_iff.mp laid]
        rfl
      | negative signed stands laid =>
        obtain rfl := Binary64.standsFor_iff.mp stands
        rw [signed, Decimal.laidOut_iff.mp laid]
        rfl
    · rintro rfl
      have stands : x.StandsFor x.shortest := Binary64.standsFor_iff.mpr rfl
      have laid : x.shortest.LaidOut (decimalChars x.shortest) := Decimal.laidOut_iff.mpr rfl
      split
      · next signed => exact .negative signed stands laid
      · next unsigned => exact .positive (Bool.eq_false_of_not_eq_true unsigned) stands laid

example : Spelled (.float ⟨true, 4602678819172646912, by decide⟩) "-0.5".toList :=
  spelled_iff.mpr (by decide +kernel)

end Number

end AggFlatten
