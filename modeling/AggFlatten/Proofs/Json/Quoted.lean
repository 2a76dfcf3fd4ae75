import AggFlatten.Json.Printer
import AggFlatten.Json.StringLiteral
import Mathlib.Data.List.Forall2

/-! The texts of strings. The quotation mark, the backslash and the control characters are
escaped, by a letter where there is one for them, and no other character is. Such a text is read
back as the string, whatever the string holds. -/
namespace AggFlatten.Json

/-- The characters that a letter stands for, and these letters. -/
def letterEscapes : List (Char × Char) :=
  [('"', '"'), ('\\', '\\'), ('\x08', 'b'), ('\x0c', 'f'), ('\n', 'n'), ('\r', 'r'), ('\t', 't')]

def hexDigits : List Char :=
  ['0', '1', '2', '3', '4', '5', '6', '7', '8', '9', 'a', 'b', 'c', 'd', 'e', 'f']

/-- How a character stands in the text of a string. -/
inductive Escaped (c : Char) : List Char → Prop where
  | itself (printable : 0x20 ≤ c.toNat) (quote : c ≠ '"') (backslash : c ≠ '\\') : Escaped c [c]
  | letter {letter : Char} (known : (c, letter) ∈ letterEscapes) : Escaped c ['\\', letter]
  | code {high low : Char} (control : c.toNat < 0x20) (unknown : c ∉ letterEscapes.map Prod.fst)
      (first : hexDigits[c.toNat / 16]? = some high) (last : hexDigits[c.toNat % 16]? = some low) :
      Escaped c ['\\', 'u', '0', '0', high, low]

/-- The text of a string: quotation marks around its characters. -/
def Quoted (s : String) (text : List Char) : Prop :=
  ∃ pieces, List.Forall₂ Escaped s.toList pieces ∧ text = '"' :: pieces.flatten ++ ['"']

section escape

variable {c : Char} {text : List Char}

theorem hexDigits_getElem? {n : Nat} (small : n < 16) : hexDigits[n]? = some n.digitChar := by
  have each : ∀ n : Fin 16, hexDigits[n.val]? = some n.val.digitChar := by decide
  exact each ⟨n, small⟩

theorem escape_of_letter {letter : Char} (known : (c, letter) ∈ letterEscapes) :
    escape c = ['\\', letter] := by
  have each : ∀ entry ∈ letterEscapes, escape entry.1 = ['\\', entry.2] := by decide
  exact each _ known

theorem escape_of_unknown (unknown : c ∉ letterEscapes.map Prod.fst) :
    escape c = if c.toNat < 0x20 then
      ['\\', 'u', '0', '0', Nat.digitChar (c.toNat / 16), Nat.digitChar (c.toNat % 16)]
    else [c] := by
  unfold escape
  split
  case h_8 => rfl
  all_goals exact absurd (by decide) unknown

theorem unknown_of_printable (printable : 0x20 ≤ c.toNat) (quote : c ≠ '"')
    (backslash : c ≠ '\\') : c ∉ letterEscapes.map Prod.fst := by
  have each : ∀ entry ∈ letterEscapes, entry.1 = '"' ∨ entry.1 = '\\' ∨ entry.1.toNat < 0x20 := by
    decide
  intro known
  obtain ⟨entry, member, rfl⟩ := List.mem_map.mp known
  rcases each entry member with same | same | control
  · exact quote same
  · exact backslash same
  · exact Nat.not_lt.mpr printable control

theorem escaped_escape (c : Char) : Escaped c (escape c) := by
  by_cases known : c ∈ letterEscapes.map Prod.fst
  · obtain ⟨⟨_, letter⟩, member, rfl⟩ := List.mem_map.mp known
    rw [escape_of_letter member]
    exact .letter member
  · rw [escape_of_unknown known]
    split
    · next control =>
      exact .code control known (hexDigits_getElem? (by omega)) (hexDigits_getElem? (by omega))
    · next printable =>
      refine .itself (Nat.le_of_not_lt printable) ?_ ?_
      · rintro rfl
        exact known (by decide)
      · rintro rfl
        exact known (by decide)

theorem escaped_iff : Escaped c text ↔ text = escape c := by
  constructor
  · intro escaped
    cases escaped with
    | itself printable quote backslash =>
      rw [escape_of_unknown (unknown_of_printable printable quote backslash),
        if_neg (Nat.not_lt.mpr printable)]
    | letter known => rw [escape_of_letter known]
    | code control unknown first last =>
      rw [hexDigits_getElem? (by omega)] at first last
      rw [escape_of_unknown unknown, if_pos control, Option.some.inj first, Option.some.inj last]
  · rintro rfl
    exact escaped_escape c

theorem forall₂_escaped_iff {chars : List Char} {pieces : List (List Char)} :
    List.Forall₂ Escaped chars pieces ↔ pieces = chars.map escape := by
  induction chars generalizing pieces with
  | nil => simp
  | cons c chars ih =>
    rw [List.forall₂_cons_left_iff, List.map_cons]
    simp only [escaped_iff, ih]
    constructor
    · rintro ⟨_, _, rfl, rfl, rfl⟩
      rfl
    · rintro rfl
      exact ⟨_, _, rfl, rfl, rfl⟩

theorem quoted_iff {s : String} : Quoted s text ↔ text = quoted s := by
  simp only [Quoted, forall₂_escaped_iff, exists_eq_left, quoted, List.flatMap_def]

theorem Escaped.no_newline (escaped : Escaped c text) : '\n' ∉ text := by
  cases escaped with
  | itself printable =>
    rw [List.mem_singleton]
    rintro rfl
    exact absurd printable (by decide)
  | @letter letter known =>
    have each : ∀ entry ∈ letterEscapes, '\n' ∉ ['\\', entry.2] := by decide
    exact each _ known
  | @code high low _ _ first last =>
    have digit {n : Nat} {d : Char} (found : hexDigits[n]? = some d) : '\n' ≠ d := by
      rintro rfl
      exact absurd (List.mem_of_getElem? found) (by decide)
    simp [digit first, digit last]

theorem newline_not_mem_quoted (s : String) : '\n' ∉ quoted s := by
  have inside : '\n' ∉ s.toList.flatMap escape := by
    intro member
    obtain ⟨c, _, found⟩ := List.mem_flatMap.mp member
    exact (escaped_escape c).no_newline found
  simp [quoted, inside]

end escape

namespace StringLiteral

/-- The value is read, and what is left of the text. -/
def ReadsAs {α : Type} {text : List Char} (result : Result α text) (value : α)
    (rest : List Char) : Prop :=
  ∃ reading, result = .ok reading ∧ reading.value = value ∧ reading.rest = rest

section read

variable {c : Char} {chars rest after : List Char}

theorem letterEscape?_of_known {letter : Char} (known : (c, letter) ∈ letterEscapes) :
    letter ≠ 'u' ∧ letterEscape? letter = some c := by
  have each : ∀ entry ∈ letterEscapes, entry.2 ≠ 'u' ∧ letterEscape? entry.2 = some entry.1 := by
    decide
  exact each _ known

theorem hexValue?_of_digit {n : Nat} {d : Char} (found : hexDigits[n]? = some d) :
    hexValue? d = some n := by
  have each : ∀ n : Fin hexDigits.length, hexValue? hexDigits[n] = some n.val := by decide
  obtain ⟨small, rfl⟩ := List.getElem?_eq_some_iff.mp found
  exact each ⟨n, small⟩

theorem readsAs_escaped_letter {letter : Char} (known : (c, letter) ∈ letterEscapes)
    (rest : List Char) : ReadsAs (escaped (letter :: rest)) c rest := by
  obtain ⟨other, known⟩ := letterEscape?_of_known known
  rw [escaped]
  · simp only [known]
    exact ⟨_, rfl, rfl, rfl⟩
  · exact other

theorem readsAs_hexUnit {high low : Char} {m n : Nat} (first : hexDigits[m]? = some high)
    (last : hexDigits[n]? = some low) (rest : List Char) :
    ReadsAs (hexUnit ('0' :: '0' :: high :: low :: rest)) (m * 16 + n) rest := by
  have zero : hexValue? '0' = some 0 := by decide
  rw [hexUnit]
  simp only [zero, hexValue?_of_digit first, hexValue?_of_digit last]
  exact ⟨_, rfl, by simp, rfl⟩

theorem readsAs_escaped_code {high low : Char} (control : c.toNat < 0x20)
    (first : hexDigits[c.toNat / 16]? = some high) (last : hexDigits[c.toNat % 16]? = some low)
    (rest : List Char) : ReadsAs (escaped ('u' :: '0' :: '0' :: high :: low :: rest)) c rest := by
  obtain ⟨unit, read, value, left⟩ := readsAs_hexUnit first last rest
  have whole : unit.value = c.toNat := by omega
  have alone : hexEscape ('0' :: '0' :: high :: low :: rest) = .ok (unit.map Char.ofNat) := by
    rw [hexEscape, read]
    simp only [bind, Except.bind]
    rw [if_neg (by omega), if_neg (by omega)]
    rfl
  rw [escaped, alone]
  refine ⟨_, rfl, ?_, left⟩
  calc Char.ofNat unit.value
    _ = Char.ofNat c.toNat := by rw [whole]
    _ = c := Char.ofNat_toNat c

/-- A character in front of what is read is read with it. -/
theorem readsAs_append {piece : List Char} (escape : Escaped c piece)
    (read : ReadsAs (stringChars rest) chars after) :
    ReadsAs (stringChars (piece ++ rest)) (c :: chars) after := by
  obtain ⟨later, read, rfl, rfl⟩ := read
  have behind (tail : List Char) (escaped : ReadsAs (escaped (tail ++ rest)) c rest) :
      ReadsAs (stringChars ('\\' :: tail ++ rest)) (c :: later.value) later.rest := by
    obtain ⟨⟨value, left, _⟩, found, same, ends⟩ := escaped
    obtain rfl : value = c := same
    obtain rfl : left = rest := ends
    rw [List.cons_append, stringChars, found]
    simp only [bind, Except.bind, read]
    exact ⟨_, rfl, rfl, rfl⟩
  cases escape with
  | itself printable quote backslash =>
    rw [List.singleton_append, stringChars]
    · rw [if_neg (Nat.not_lt.mpr printable)]
      simp only [bind, Except.bind, read]
      exact ⟨_, rfl, rfl, rfl⟩
    · exact quote
    · exact backslash
  | letter known => exact behind [_] (readsAs_escaped_letter known rest)
  | code control _ first last =>
    exact behind ['u', '0', '0', _, _] (readsAs_escaped_code control first last rest)

theorem readsAs_quoted (s : String) (rest : List Char) :
    ∃ text, quoted s ++ rest = '"' :: text ∧ ReadsAs (stringChars text) s.toList rest := by
  refine ⟨s.toList.flatMap Json.escape ++ '"' :: rest, by simp [quoted], ?_⟩
  generalize s.toList = chars
  induction chars with
  | nil =>
    rw [List.flatMap_nil, List.nil_append, stringChars]
    exact ⟨_, rfl, rfl, rfl⟩
  | cons c chars ih =>
    rw [List.flatMap_cons, List.append_assoc]
    exact readsAs_append (escaped_escape c) ih

end read

end StringLiteral

end AggFlatten.Json
