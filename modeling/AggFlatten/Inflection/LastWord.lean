import AggFlatten.Text.Uppercase

/-! The last word of a name. A word starts after an underscore or a hyphen, and at a
capital letter that follows none. -/
namespace AggFlatten.Inflection

def isBoundary (before c : Char) : Bool :=
  before = '_' || before = '-' || (Text.isCapital c && !Text.isCapital before)

/-- Cuts `letters`, which stand after `before`, where the last word in them starts. -/
def cutAfter? (before : Char) : (letters : List Char) → Option (List Char × List Char)
  | [] => none
  | c :: rest =>
    match cutAfter? c rest with
    | some (front, last) => some (c :: front, last)
    | none => if isBoundary before c then some ([], c :: rest) else none

/-- What stands before the last word of a name, and the last word. -/
def cutLastWord : (name : List Char) → List Char × List Char
  | [] => ([], [])
  | c :: rest =>
    match cutAfter? c rest with
    | some (front, last) => (c :: front, last)
    | none => ([], c :: rest)

theorem eq_append_of_cutAfter? {before : Char} {letters front last : List Char}
    (h : cutAfter? before letters = some (front, last)) : letters = front ++ last := by
  induction letters generalizing before front with
  | nil => cases h
  | cons c rest ih =>
    rw [cutAfter?] at h
    split at h
    · next front' last' cut => cases h; rw [ih cut, List.cons_append]
    · split at h
      · cases h; rfl
      · cases h

theorem cutLastWord_append (name : List Char) :
    (cutLastWord name).1 ++ (cutLastWord name).2 = name := by
  cases name with
  | nil => rfl
  | cons c rest =>
    rw [cutLastWord]
    split
    · next front last cut => rw [eq_append_of_cutAfter? cut, List.cons_append]
    · rfl

end AggFlatten.Inflection
