import AggFlatten.Text.Space
import Mathlib.Data.List.Basic

/-! Longest stretches. A stretch of characters of one kind in front of something of another
kind is found again, whatever text the two stand in. -/
namespace AggFlatten.Text

variable {p : Char → Bool} {front rest : List Char}

theorem takeWhile_append_stop (inside : ∀ c ∈ front, p c = true)
    (stops : ∀ c ∈ rest.head?, p c = false) : (front ++ rest).takeWhile p = front := by
  rw [List.takeWhile_append_of_pos inside]
  cases rest with
  | nil => simp
  | cons c rest => simp [stops c rfl]

theorem dropWhile_append_stop (inside : ∀ c ∈ front, p c = true)
    (stops : ∀ c ∈ rest.head?, p c = false) : (front ++ rest).dropWhile p = rest := by
  rw [List.dropWhile_append_of_pos inside]
  cases rest with
  | nil => rfl
  | cons c rest => simp [stops c rfl]

theorem append_eq_append_of_stop {front' rest' : List Char}
    (inside : ∀ c ∈ front, p c = true) (stops : ∀ c ∈ rest.head?, p c = false)
    (inside' : ∀ c ∈ front', p c = true) (stops' : ∀ c ∈ rest'.head?, p c = false)
    (same : front ++ rest = front' ++ rest') : front = front' ∧ rest = rest' := by
  have fronts := congrArg (List.takeWhile p) same
  have rests := congrArg (List.dropWhile p) same
  rw [takeWhile_append_stop inside stops, takeWhile_append_stop inside' stops'] at fronts
  rw [dropWhile_append_stop inside stops, dropWhile_append_stop inside' stops'] at rests
  exact ⟨fronts, rests⟩

theorem exists_stretch (p : Char → Bool) (text : List Char) :
    ∃ front, text = front ++ text.dropWhile p ∧ (∀ c ∈ front, p c = true) ∧
      ∀ c ∈ (text.dropWhile p).head?, p c = false := by
  refine ⟨text.takeWhile p, List.takeWhile_append_dropWhile.symm,
    List.all_eq_true.mp List.all_takeWhile, ?_⟩
  intro c first
  have stopped := List.head?_dropWhile_not p text
  rw [first] at stopped
  simpa using stopped

theorem exists_gap (text : List Char) :
    ∃ gap, text = gap ++ trimStart text ∧ (∀ c ∈ gap, isSpace c = true) ∧
      ∀ c ∈ (trimStart text).head?, isSpace c = false :=
  exists_stretch isSpace text

theorem trimStart_eq_self {text : List Char} (starts : ∀ c ∈ text.head?, isSpace c = false) :
    trimStart text = text := by
  have stops : trimStart ([] ++ text) = text := dropWhile_append_stop (by simp) starts
  exact stops

theorem trimEnd_append {core after : List Char} (ends : ∀ c ∈ core.getLast?, isSpace c = false)
    (behind : ∀ c ∈ after, isSpace c = true) : trimEnd (core ++ after) = core := by
  have back : (after.reverse ++ core.reverse).dropWhile isSpace = core.reverse := by
    apply dropWhile_append_stop
    · simpa using behind
    · rw [List.head?_reverse]
      exact ends
  rw [trimEnd, List.reverse_append, back, List.reverse_reverse]

/-- Trimming keeps what neither begins nor ends with white space. -/
theorem trim_append {gap core after : List Char} (nonempty : core ≠ [])
    (before : ∀ c ∈ gap, isSpace c = true) (starts : ∀ c ∈ core.head?, isSpace c = false)
    (ends : ∀ c ∈ core.getLast?, isSpace c = false) (behind : ∀ c ∈ after, isSpace c = true) :
    trim (gap ++ (core ++ after)) = core := by
  have front : trimStart (gap ++ (core ++ after)) = core ++ after := by
    apply dropWhile_append_stop before
    rw [List.head?_append_of_ne_nil core nonempty]
    exact starts
  rw [trim, front, trimEnd_append ends behind]

end AggFlatten.Text
