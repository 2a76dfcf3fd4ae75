import AggFlatten.Inflection.Number
import Mathlib.Data.List.Chain

/-! The last word of a name, and that it alone is inflected. A word is told by its letters:
no other word starts inside it. Where the last word starts is told by the letters on both
sides, so that whatever word takes its place is again the last one if it starts alike. -/
namespace AggFlatten.Inflection

variable {before c d : Char} {letters front last rest : List Char}

/-- Letters of one word. -/
structure IsWord (letters : List Char) : Prop where
  nonempty : letters ≠ []
  unbroken : letters.IsChain fun a b => isBoundary a b = false

/-- A word starts where `last` follows `front`. -/
def StartsBehind (front last : List Char) : Prop :=
  ∃ b ∈ front.getLast?, ∃ c ∈ last.head?, isBoundary b c = true

theorem cutAfter?_eq_none_iff :
    cutAfter? before letters = none ↔
      (before :: letters).IsChain fun a b => isBoundary a b = false := by
  induction letters generalizing before with
  | nil => simp [cutAfter?]
  | cons c rest ih =>
    rw [List.isChain_cons_cons, ← ih, cutAfter?]
    cases cutAfter? c rest <;> simp

theorem isWord_cons_iff : IsWord (c :: rest) ↔ cutAfter? c rest = none := by
  rw [cutAfter?_eq_none_iff]
  exact ⟨fun word => word.unbroken, fun chain => ⟨List.cons_ne_nil c rest, chain⟩⟩

theorem startsBehind_cons_cons :
    StartsBehind (before :: d :: front) last ↔ StartsBehind (d :: front) last := by
  rw [StartsBehind, StartsBehind, List.getLast?_cons_cons]

theorem startsBehind_singleton :
    StartsBehind [before] (c :: rest) ↔ isBoundary before c = true := by
  simp [StartsBehind]

theorem startsBehind_of_cutAfter? (cut : cutAfter? before letters = some (front, last)) :
    IsWord last ∧ StartsBehind (before :: front) last := by
  induction letters generalizing before front with
  | nil => cases cut
  | cons c rest ih =>
    rw [cutAfter?] at cut
    split at cut
    · next found =>
      cases cut
      obtain ⟨word, starts⟩ := ih found
      exact ⟨word, startsBehind_cons_cons.mpr starts⟩
    · next unbroken =>
      split at cut
      · next boundary =>
        cases cut
        exact ⟨isWord_cons_iff.mpr unbroken, startsBehind_singleton.mpr boundary⟩
      · cases cut

theorem cutAfter?_append (word : IsWord last) (starts : StartsBehind (before :: front) last) :
    cutAfter? before (front ++ last) = some (front, last) := by
  induction front generalizing before with
  | nil =>
    obtain ⟨c, rest, rfl⟩ := List.exists_cons_of_ne_nil word.nonempty
    have unbroken := isWord_cons_iff.mp word
    have boundary := startsBehind_singleton.mp starts
    simp only [List.nil_append, cutAfter?, unbroken, boundary, if_true]
  | cons d front ih =>
    have found := ih (startsBehind_cons_cons.mp starts)
    simp only [List.cons_append, cutAfter?, found]

theorem startsBehind_cutLastWord (nonempty : letters ≠ []) :
    IsWord (cutLastWord letters).2 ∧
      ((cutLastWord letters).1 = [] ∨
        StartsBehind (cutLastWord letters).1 (cutLastWord letters).2) := by
  obtain ⟨c, rest, rfl⟩ := List.exists_cons_of_ne_nil nonempty
  rw [cutLastWord]
  split
  · next cut =>
    obtain ⟨word, starts⟩ := startsBehind_of_cutAfter? cut
    exact ⟨word, .inr starts⟩
  · next unbroken => exact ⟨isWord_cons_iff.mpr unbroken, .inl rfl⟩

/-- A word is the last one wherever it starts. -/
theorem cutLastWord_of_startsBehind (word : IsWord last)
    (starts : front = [] ∨ StartsBehind front last) :
    cutLastWord (front ++ last) = (front, last) := by
  cases front with
  | nil =>
    obtain ⟨c, rest, rfl⟩ := List.exists_cons_of_ne_nil word.nonempty
    have unbroken := isWord_cons_iff.mp word
    simp only [List.nil_append, cutLastWord, unbroken]
  | cons d front =>
    have found := cutAfter?_append word (starts.resolve_left (List.cons_ne_nil d front))
    simp only [List.cons_append, cutLastWord, found]

/-- Behind the start of a word, the last word is found without what stands before. -/
theorem cutLastWord_append_of_startsBehind (nonempty : letters ≠ [])
    (starts : front = [] ∨ StartsBehind front letters) :
    cutLastWord (front ++ letters) =
      (front ++ (cutLastWord letters).1, (cutLastWord letters).2) := by
  obtain ⟨word, inside⟩ := startsBehind_cutLastWord nonempty
  conv_lhs => rw [← cutLastWord_append letters, ← List.append_assoc]
  refine cutLastWord_of_startsBehind word ?_
  rcases inside with whole | ⟨b, back, first⟩
  · have same := cutLastWord_append letters
    rw [whole, List.nil_append] at same
    rw [whole, List.append_nil, same]
    exact starts
  · exact .inr ⟨b, List.mem_getLast?_append_of_mem_getLast? back, first⟩

variable (form : WordPair → String) (rules : List Rule)

/-- The words in front of the last one are left as they are. -/
theorem inflect_append (word : IsWord last) (starts : front = [] ∨ StartsBehind front last) :
    inflect form rules (front ++ last) = front ++ inflectWord form rules last := by
  obtain ⟨c, rest, rfl⟩ := List.exists_cons_of_ne_nil word.nonempty
  rw [inflect, cutLastWord_of_startsBehind word starts]

theorem inflect_word (word : IsWord last) :
    inflect form rules last = inflectWord form rules last :=
  inflect_append form rules word (.inl rfl)

theorem inflect_eq (nonempty : letters ≠ []) :
    inflect form rules letters =
      (cutLastWord letters).1 ++ inflectWord form rules (cutLastWord letters).2 := by
  obtain ⟨word, starts⟩ := startsBehind_cutLastWord nonempty
  have behind := inflect_append form rules word starts
  rw [cutLastWord_append] at behind
  exact behind

/-- The letters of the last word of a name. -/
def lastWord (name : String) : List Char :=
  (cutLastWord name.toList).2

theorem lastWord_suffix (name : String) : lastWord name <:+ name.toList :=
  ⟨_, cutLastWord_append name.toList⟩

theorem isWord_lastWord {name : String} (nonempty : name ≠ "") : IsWord (lastWord name) :=
  (startsBehind_cutLastWord (by simpa using nonempty)).1

theorem startsBehind_lastWord {name : String} (nonempty : name ≠ "") :
    (cutLastWord name.toList).1 = [] ∨ StartsBehind (cutLastWord name.toList).1 (lastWord name) :=
  (startsBehind_cutLastWord (by simpa using nonempty)).2

theorem getLast?_lastWord {name : String} (nonempty : name ≠ "") :
    (lastWord name).getLast? = name.toList.getLast? := by
  conv_rhs => rw [← cutLastWord_append name.toList]
  exact (List.getLast?_append_of_ne_nil _ (isWord_lastWord nonempty).nonempty).symm

theorem ofList_append_lastWord (name : String) :
    String.ofList ((cutLastWord name.toList).1 ++ lastWord name) = name := by
  rw [lastWord, cutLastWord_append, String.ofList_toList]

end AggFlatten.Inflection
