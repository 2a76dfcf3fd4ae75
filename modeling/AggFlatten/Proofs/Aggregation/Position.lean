import AggFlatten.Proofs.Aggregation.Lookup
import Mathlib.Data.List.Induction
import Mathlib.Data.Nat.Digits.Defs

/-! Positions in a list, as a segment of a path writes them. A position is a decimal numeral of
any length, so its value may not fit into a machine word. A reader that keeps the value in such a
word, and gives up as soon as it does not fit, finds the same elements: it never takes a value
that is too great for a smaller one. -/
namespace AggFlatten.Json

/-- The digits in writing, the first one for the highest power of ten. -/
def numeral (digits : List (Fin 10)) : String :=
  String.ofList (digits.map fun digit => digit.val.digitChar)

def numeralValue (digits : List (Fin 10)) : Nat :=
  Nat.ofDigits 10 (digits.reverse.map Fin.val)

/-- What a position is written as: a numeral of at least one digit, after a plus sign or not. -/
inductive SpellsPosition : (segment : String) → (place : Nat) → Prop where
  | plain {digits : List (Fin 10)} (nonempty : digits ≠ []) :
      SpellsPosition (numeral digits) (numeralValue digits)
  | signed {digits : List (Fin 10)} (nonempty : digits ≠ []) :
      SpellsPosition ("+" ++ numeral digits) (numeralValue digits)

section numeral

variable {digits : List (Fin 10)} {c : Char}

theorem numeralValue_concat (digits : List (Fin 10)) (last : Fin 10) :
    numeralValue (digits ++ [last]) = 10 * numeralValue digits + last := by
  simp [numeralValue, Nat.ofDigits_cons, Nat.add_comm]

/-- Zeros in front of a numeral do not count. -/
theorem numeralValue_zeros (zeros : Nat) (digits : List (Fin 10)) :
    numeralValue (List.replicate zeros 0 ++ digits) = numeralValue digits := by
  simp [numeralValue, Nat.ofDigits_append]

theorem isDigit_digitChar (digit : Fin 10) : digit.val.digitChar.isDigit = true := by
  decide +revert

theorem toNat_digitChar (digit : Fin 10) :
    digit.val.digitChar.toNat - '0'.toNat = digit := by
  decide +revert

theorem exists_digitChar (isDigit : c.isDigit = true) :
    ∃ digit : Fin 10, digit.val.digitChar = c := by
  rw [Char.isDigit, Bool.and_eq_true, decide_eq_true_eq, decide_eq_true_eq] at isDigit
  have bounds : 48 ≤ c.toNat ∧ c.toNat ≤ 57 := isDigit
  have code : ∀ digit : Fin 10, digit.val.digitChar = Char.ofNat (48 + digit) := by decide
  refine ⟨⟨c.toNat - 48, by omega⟩, ?_⟩
  rw [code, Nat.add_sub_cancel' bounds.1, Char.ofNat_toNat]

theorem exists_numeral {chars : List Char} (all : ∀ c ∈ chars, c.isDigit = true) :
    ∃ digits, (numeral digits).toList = chars := by
  induction chars with
  | nil => exact ⟨[], rfl⟩
  | cons c rest ih =>
    obtain ⟨first, later⟩ := List.forall_mem_cons.mp all
    obtain ⟨digit, rfl⟩ := exists_digitChar first
    obtain ⟨digits, rfl⟩ := ih later
    exact ⟨digit :: digits, by simp [numeral]⟩

theorem isDigit_of_mem_numeral (member : c ∈ (numeral digits).toList) : c.isDigit = true := by
  rw [numeral, String.toList_ofList] at member
  obtain ⟨digit, _, rfl⟩ := List.mem_map.mp member
  exact isDigit_digitChar digit

theorem toList_numeral_eq_nil_iff : (numeral digits).toList = [] ↔ digits = [] := by
  simp [numeral]

theorem digitsValue_numeral (digits : List (Fin 10)) :
    NumberLiteral.digitsValue (numeral digits).toList = numeralValue digits := by
  induction digits using List.reverseRecOn with
  | nil => rfl
  | append_singleton digits last ih =>
    have chars : (numeral (digits ++ [last])).toList =
        (numeral digits).toList ++ [last.val.digitChar] := by simp [numeral]
    rw [chars, NumberLiteral.digitsValue, List.foldl_concat, toNat_digitChar,
      numeralValue_concat, ← ih, NumberLiteral.digitsValue]

end numeral

section index

variable {segment : String} {place : Nat}

/-- A segment without the plus sign in front. -/
def unsigned : List Char → List Char
  | '+' :: rest => rest
  | chars => chars

theorem unsigned_cases (chars : List Char) :
    unsigned chars = chars ∨ chars = '+' :: unsigned chars := by
  rw [unsigned.eq_def]
  split
  · exact .inr rfl
  · exact .inl rfl

theorem unsigned_numeral (digits : List (Fin 10)) :
    unsigned (numeral digits).toList = (numeral digits).toList := by
  rcases unsigned_cases (numeral digits).toList with same | signed
  · exact same
  · have plus : '+' ∈ (numeral digits).toList := by
      rw [signed]
      exact List.mem_cons_self
    exact absurd (isDigit_of_mem_numeral plus) (by decide)

theorem spellsPosition_iff : SpellsPosition segment place ↔
    ∃ digits ≠ [], unsigned segment.toList = (numeral digits).toList ∧
      place = numeralValue digits := by
  constructor
  · intro spells
    cases spells with
    | plain nonempty => exact ⟨_, nonempty, unsigned_numeral _, rfl⟩
    | signed nonempty => exact ⟨_, nonempty, by simp [unsigned], rfl⟩
  · rintro ⟨digits, nonempty, chars, rfl⟩
    rcases unsigned_cases segment.toList with same | plus
    · obtain rfl : segment = numeral digits := String.toList_inj.mp (same.symm.trans chars)
      exact .plain nonempty
    · obtain rfl : segment = "+" ++ numeral digits := by
        refine String.toList_inj.mp ?_
        rw [plus, chars]
        simp
      exact .signed nonempty

theorem index?_eq (segment : String) : index? segment =
    if unsigned segment.toList ≠ [] ∧ (unsigned segment.toList).all Char.isDigit then
      some (NumberLiteral.digitsValue (unsigned segment.toList))
    else none := rfl

theorem index?_eq_some_iff : index? segment = some place ↔ SpellsPosition segment place := by
  rw [index?_eq, spellsPosition_iff]
  constructor
  · intro read
    split at read
    · next digits =>
      obtain ⟨nonempty, all⟩ := digits
      obtain ⟨digits, chars⟩ := exists_numeral (List.all_eq_true.mp all)
      rw [← chars, digitsValue_numeral] at read
      rw [← chars, Ne, toList_numeral_eq_nil_iff] at nonempty
      exact ⟨digits, nonempty, chars.symm, (Option.some.inj read).symm⟩
    · cases read
  · rintro ⟨digits, nonempty, chars, rfl⟩
    have all : (numeral digits).toList.all Char.isDigit = true :=
      List.all_eq_true.mpr fun _ => isDigit_of_mem_numeral
    rw [chars, if_pos ⟨mt toList_numeral_eq_nil_iff.mp nonempty, all⟩, digitsValue_numeral]

instance (segment : String) (place : Nat) : Decidable (SpellsPosition segment place) :=
  decidable_of_iff _ index?_eq_some_iff

end index

section word

variable {word next last : UInt64} {c : Char} {digits : List Char} {segment : String}

/-- The product of two words, if it is a word. -/
def mul? (a b : UInt64) : Option UInt64 :=
  if a.toNat * b.toNat < UInt64.size then some (a * b) else none

def add? (a b : UInt64) : Option UInt64 :=
  if a.toNat + b.toNat < UInt64.size then some (a + b) else none

/-- A value with one more digit behind it. -/
def pushDigit (value : Nat) (c : Char) : Nat :=
  10 * value + (c.toNat - '0'.toNat)

/-- The same in a word, unless there is no room for the digit. -/
def pushDigit? (word : UInt64) (c : Char) : Option UInt64 :=
  if c.isDigit then (mul? word 10).bind (add? · (.ofNat (c.toNat - '0'.toNat))) else none

def wordIndex? (segment : String) : Option UInt64 :=
  let digits := unsigned segment.toList
  if digits = [] then none else digits.foldlM pushDigit? 0

theorem mul?_eq_some_iff {a b : UInt64} :
    mul? a b = some word ↔ word.toNat = a.toNat * b.toNat := by
  have bound := word.toNat_lt_size
  rw [mul?]
  split
  · next fits =>
    rw [Option.some.injEq, ← UInt64.toNat_inj, UInt64.toNat_mul, Nat.mod_eq_of_lt fits]
    exact eq_comm
  · simp only [reduceCtorEq, false_iff]
    omega

theorem add?_eq_some_iff {a b : UInt64} :
    add? a b = some word ↔ word.toNat = a.toNat + b.toNat := by
  have bound := word.toNat_lt_size
  rw [add?]
  split
  · next fits =>
    rw [Option.some.injEq, ← UInt64.toNat_inj, UInt64.toNat_add, Nat.mod_eq_of_lt fits]
    exact eq_comm
  · simp only [reduceCtorEq, false_iff]
    omega

theorem pushDigit?_eq_some_iff : pushDigit? word c = some next ↔
    c.isDigit = true ∧ next.toNat = pushDigit word.toNat c := by
  rw [pushDigit?, pushDigit]
  split
  · next isDigit =>
    obtain ⟨digit, rfl⟩ := exists_digitChar isDigit
    have small : (UInt64.ofNat digit).toNat = digit := by decide +revert
    have ten : (10 : UInt64).toNat = 10 := rfl
    rw [toNat_digitChar, Option.bind_eq_some_iff]
    simp only [mul?_eq_some_iff, add?_eq_some_iff, small, ten, isDigit, true_and]
    constructor
    · rintro ⟨tens, shifted, sum⟩
      omega
    · intro sum
      have bound := next.toNat_lt_size
      have shifted : (UInt64.ofNat (word.toNat * 10)).toNat = word.toNat * 10 :=
        UInt64.toNat_ofNat_of_lt' (by omega)
      exact ⟨_, shifted, by omega⟩
  · next other => simp [other]

theorem le_foldl_pushDigit (value : Nat) (digits : List Char) :
    value ≤ digits.foldl pushDigit value := by
  induction digits generalizing value with
  | nil => exact Nat.le_refl value
  | cons c rest ih =>
    have first : value ≤ pushDigit value c := by
      rw [pushDigit]
      omega
    exact first.trans (ih (pushDigit value c))

theorem foldlM_pushDigit?_eq_some_iff : digits.foldlM pushDigit? word = some last ↔
    (∀ c ∈ digits, c.isDigit = true) ∧ last.toNat = digits.foldl pushDigit word.toNat := by
  induction digits generalizing word with
  | nil =>
    rw [List.foldlM_nil, List.foldl_nil, Option.pure_def, Option.some.injEq, ← UInt64.toNat_inj]
    exact ⟨fun same => ⟨List.forall_mem_nil _, same.symm⟩, fun read => read.2.symm⟩
  | cons c rest ih =>
    rw [List.foldlM_cons, List.foldl_cons, List.forall_mem_cons, Option.bind_eq_bind,
      Option.bind_eq_some_iff]
    simp only [pushDigit?_eq_some_iff, ih]
    constructor
    · rintro ⟨next, ⟨first, value⟩, later, total⟩
      exact ⟨⟨first, later⟩, by rw [← value]; exact total⟩
    · rintro ⟨⟨first, later⟩, total⟩
      -- A value that does not fit stays too great, whatever digits follow.
      have grows := le_foldl_pushDigit (pushDigit word.toNat c) rest
      have bound := last.toNat_lt_size
      have value : (UInt64.ofNat (pushDigit word.toNat c)).toNat = pushDigit word.toNat c :=
        UInt64.toNat_ofNat_of_lt' (by omega)
      exact ⟨_, ⟨first, value⟩, later, by rw [value]; exact total⟩

theorem wordIndex?_eq_some_iff : wordIndex? segment = some word ↔
    SpellsPosition segment word.toNat := by
  rw [← index?_eq_some_iff, index?_eq, wordIndex?]
  by_cases empty : unsigned segment.toList = []
  · simp [empty]
  · rw [if_neg empty, foldlM_pushDigit?_eq_some_iff, Option.ite_none_right_eq_some,
      Option.some.injEq, List.all_eq_true]
    exact ⟨fun ⟨all, value⟩ => ⟨⟨empty, all⟩, value.symm⟩,
      fun ⟨⟨_, all⟩, value⟩ => ⟨all, value.symm⟩⟩

/-- Read into a word, a segment leads to the same element of a list that has no more positions
than there are words. -/
theorem wordIndex?_bind {items : List Json} (fits : items.length ≤ UInt64.size) :
    ((wordIndex? segment).bind fun word => items[word.toNat]?) = (arr items).child? segment := by
  ext found
  rw [child?, Option.bind_eq_some_iff, Option.bind_eq_some_iff]
  simp only [wordIndex?_eq_some_iff, index?_eq_some_iff]
  constructor
  · rintro ⟨word, spells, there⟩
    exact ⟨word.toNat, spells, there⟩
  · rintro ⟨place, spells, there⟩
    have small : place < items.length := (List.getElem?_eq_some_iff.mp there).1
    have word : (UInt64.ofNat place).toNat = place := UInt64.toNat_ofNat_of_lt' (by omega)
    exact ⟨.ofNat place, by rwa [word], by rwa [word]⟩

end word

section get

variable {items : List Json} {segment : String} {place : Nat} {found : Json}

theorem SpellsPosition.no_dot (spells : SpellsPosition segment place) : '.' ∉ segment.toList := by
  have free (digits : List (Fin 10)) : '.' ∉ (numeral digits).toList :=
    fun dot => absurd (isDigit_of_mem_numeral dot) (by decide)
  cases spells with
  | plain => exact free _
  | @signed digits => simpa using free digits

theorem SpellsPosition.of_sign {sign : String} {digits : List (Fin 10)} (known : sign ∈ ["", "+"])
    (nonempty : digits ≠ []) : SpellsPosition (sign ++ numeral digits) (numeralValue digits) := by
  rcases List.mem_cons.mp known with rfl | signed
  · rw [String.empty_append]
    exact .plain nonempty
  · rw [List.mem_singleton.mp signed]
    exact .signed nonempty

theorem SpellsPosition.unique {place' : Nat} (spells : SpellsPosition segment place)
    (again : SpellsPosition segment place') : place = place' :=
  Option.some.inj ((index?_eq_some_iff.mpr spells).symm.trans (index?_eq_some_iff.mpr again))

theorem get_segment_of_arr_eq_ok_iff (plain : '.' ∉ segment.toList) :
    (arr items).get segment = .ok found ↔
      ∃ place, SpellsPosition segment place ∧ items[place]? = some found := by
  rw [get_segment_eq_ok_iff plain, child?, Option.bind_eq_some_iff]
  simp only [index?_eq_some_iff]

theorem exists_get_segment_of_arr_iff (plain : '.' ∉ segment.toList) :
    (∃ found, (arr items).get segment = .ok found) ↔
      ∃ place < items.length, SpellsPosition segment place := by
  simp only [get_segment_of_arr_eq_ok_iff plain]
  constructor
  · rintro ⟨found, place, spells, there⟩
    exact ⟨place, (List.getElem?_eq_some_iff.mp there).1, spells⟩
  · rintro ⟨place, inside, spells⟩
    exact ⟨items[place], place, spells, List.getElem?_eq_getElem inside⟩

theorem get_segment_of_arr_eq_error_iff (plain : '.' ∉ segment.toList) :
    (arr items).get segment = .error ⟨segment, arr items⟩ ↔
      ∀ place, SpellsPosition segment place → items.length ≤ place := by
  rw [get_eq_error_iff]
  constructor
  · rintro ⟨_, nowhere⟩ place spells
    by_contra inside
    obtain ⟨found, read⟩ :=
      (exists_get_segment_of_arr_iff plain).mpr ⟨place, Nat.lt_of_not_le inside, spells⟩
    exact nowhere found read
  · intro behind
    refine ⟨rfl, ?_⟩
    intro found read
    obtain ⟨place, inside, spells⟩ := (exists_get_segment_of_arr_iff plain).mp ⟨found, read⟩
    exact absurd (behind place spells) (Nat.not_le_of_lt inside)

/-- Two ways to write one position lead to the same element. -/
theorem SpellsPosition.get_eq_ok_iff (spells : SpellsPosition segment place) :
    (arr items).get segment = .ok found ↔ items[place]? = some found := by
  rw [get_segment_eq_ok_iff spells.no_dot, child?, index?_eq_some_iff.mpr spells, Option.bind_some]

theorem SpellsPosition.wordIndex?_eq_none_iff (spells : SpellsPosition segment place) :
    wordIndex? segment = none ↔ UInt64.size ≤ place := by
  constructor
  · intro refused
    by_contra fits
    have word : (UInt64.ofNat place).toNat = place :=
      UInt64.toNat_ofNat_of_lt' (Nat.lt_of_not_le fits)
    have read : wordIndex? segment = some (.ofNat place) :=
      wordIndex?_eq_some_iff.mpr (by rwa [word])
    rw [refused] at read
    cases read
  · intro great
    cases read : wordIndex? segment with
    | none => rfl
    | some word =>
      have same := spells.unique (wordIndex?_eq_some_iff.mp read)
      have bound := word.toNat_lt_size
      omega

end get

/-- In a list a segment without a dot leads to the element whose position it writes out, a
natural number of any size, with any number of zeros in front; every other segment, and every
position behind the end, leads nowhere. A reader that keeps positions in machine words reads
those that fit and no others, so that it finds the same elements. -/
theorem positions_are_read_exactly :
    (∀ (items : List Json) (segment : String) (found : Json), '.' ∉ segment.toList →
      ((arr items).get segment = .ok found ↔
        ∃ place, SpellsPosition segment place ∧ items[place]? = some found)) ∧
    (∀ (items : List Json) (segment : String), '.' ∉ segment.toList →
      ((∃ found, (arr items).get segment = .ok found) ↔
        ∃ place < items.length, SpellsPosition segment place)) ∧
    (∀ (items : List Json) (segment : String), '.' ∉ segment.toList →
      ((arr items).get segment = .error ⟨segment, arr items⟩ ↔
        ∀ place, SpellsPosition segment place → items.length ≤ place)) ∧
    (∀ (items : List Json) (sign : String) (zeros : Nat) (digits : List (Fin 10)) (found : Json),
      sign ∈ ["", "+"] → digits ≠ [] →
        ((arr items).get (sign ++ numeral (List.replicate zeros 0 ++ digits)) = .ok found ↔
          (arr items).get (numeral digits) = .ok found)) ∧
    (∀ (segment : String) (word : UInt64),
      wordIndex? segment = some word ↔ SpellsPosition segment word.toNat) ∧
    (∀ (segment : String) (place : Nat), SpellsPosition segment place →
      (wordIndex? segment = none ↔ UInt64.size ≤ place)) ∧
    ∀ (items : List Json) (segment : String), items.length ≤ UInt64.size →
      ((wordIndex? segment).bind fun word => items[word.toNat]?) = (arr items).child? segment := by
  refine ⟨fun _ _ _ => get_segment_of_arr_eq_ok_iff, fun _ _ => exists_get_segment_of_arr_iff,
    fun _ _ => get_segment_of_arr_eq_error_iff, ?_, fun _ _ => wordIndex?_eq_some_iff,
    fun _ _ spells => spells.wordIndex?_eq_none_iff, fun _ _ => wordIndex?_bind⟩
  intro items sign zeros digits found known nonempty
  have longer : List.replicate zeros 0 ++ digits ≠ [] := by simp [nonempty]
  rw [(SpellsPosition.of_sign known longer).get_eq_ok_iff, numeralValue_zeros,
    (SpellsPosition.plain nonempty).get_eq_ok_iff]

/-- The greatest position that fits into a word, and one that would be that of the load if it
wrapped round. -/
theorem load_is_found_at_one :
    let load : Json := .num (.int 5)
    let loads : Json := .arr [.null, load]
    loads.get "+001" = .ok load ∧
      loads.get "18446744073709551617" = .error ⟨"18446744073709551617", loads⟩ ∧
      wordIndex? "18446744073709551615" = some 18446744073709551615 ∧
      wordIndex? "18446744073709551617" = none := by
  intro load loads
  obtain ⟨reads, _, fails, zeros, words, great, _⟩ := positions_are_read_exactly
  have wide : SpellsPosition "18446744073709551617" 18446744073709551617 := by decide +kernel
  refine ⟨?_, ?_, ?_, ?_⟩
  · exact (zeros _ "+" 2 [1] load (by decide) (by decide)).mpr
      ((reads _ "1" load (by decide)).mpr ⟨1, by decide +kernel, rfl⟩)
  · refine (fails _ _ (by decide +kernel)).mpr ?_
    intro place spells
    rw [spells.unique wide]
    decide
  · exact (words _ _).mpr (by decide +kernel)
  · exact (great _ _ wide).mpr (by decide)

end AggFlatten.Json
