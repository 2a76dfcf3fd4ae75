import Mathlib.Data.List.SplitBy

/-! Texts made of lines. A line ends with its only newline, so that a text of lines falls into
just these when it is cut behind every newline. -/
namespace AggFlatten.Text

def cutLines (text : List Char) : List (List Char) :=
  text.splitBy fun c _ => c ≠ '\n'

def IsLine (line : List Char) : Prop :=
  ∃ body, '\n' ∉ body ∧ line = body ++ ['\n']

namespace IsLine

variable {line : List Char}

theorem nonempty (whole : IsLine line) : line ≠ [] := by
  obtain ⟨body, _, rfl⟩ := whole
  simp

theorem count_newline (whole : IsLine line) : line.count '\n' = 1 := by
  obtain ⟨body, inside, rfl⟩ := whole
  rw [List.count_append, List.count_eq_zero_of_not_mem inside, List.count_singleton_self]

/-- No character but the last one is followed by a cut. -/
theorem isChain (whole : IsLine line) : line.IsChain fun c _ => decide (c ≠ '\n') = true := by
  obtain ⟨body, inside, rfl⟩ := whole
  induction body with
  | nil => exact .singleton _
  | cons c body ih =>
    have other : c ≠ '\n' := fun e => inside (e ▸ List.mem_cons_self)
    have rest := ih fun m => inside (List.mem_cons_of_mem _ m)
    exact List.isChain_cons.mpr ⟨fun _ _ => decide_eq_true other, rest⟩

theorem last (whole : IsLine line) : ∀ c ∈ line.getLast?, c = '\n' := by
  obtain ⟨body, _, rfl⟩ := whole
  intro c found
  rw [List.getLast?_concat] at found
  exact (Option.some.inj found).symm

theorem cutLines_append (whole : IsLine line) (rest : List Char) :
    cutLines (line ++ rest) = line :: cutLines rest := by
  have cut : ∀ c ∈ line.getLast?, ∀ d ∈ rest.head?, decide (c ≠ '\n') = false :=
    fun c found _ _ => decide_eq_false fun other => other (whole.last c found)
  rw [cutLines, List.splitBy_append cut, List.splitBy_of_isChain whole.nonempty whole.isChain]
  rfl

end IsLine

section

variable {lines : List (List Char)}

theorem cutLines_flatten (each : ∀ line ∈ lines, IsLine line) : cutLines lines.flatten = lines := by
  induction lines with
  | nil => rfl
  | cons line lines ih =>
    obtain ⟨first, rest⟩ := List.forall_mem_cons.mp each
    rw [List.flatten_cons, first.cutLines_append, ih rest]

theorem count_newline_flatten (each : ∀ line ∈ lines, IsLine line) :
    lines.flatten.count '\n' = lines.length := by
  induction lines with
  | nil => rfl
  | cons line lines ih =>
    obtain ⟨first, rest⟩ := List.forall_mem_cons.mp each
    rw [List.flatten_cons, List.count_append, first.count_newline, ih rest, List.length_cons,
      Nat.add_comm]

end

end AggFlatten.Text
