import AggFlatten.Proofs.Text.Brackets

/-! Where the brackets of a text are at fault. A closing bracket is at fault if nothing is
open for it, and an opening one if nothing behind closes it; what is balanced before the
fault does not move it. -/
namespace AggFlatten.Text

/-- A closing bracket with nothing open before it. -/
def StrayAt (text : List Char) (position : Nat) : Prop :=
  ∃ front back, text = front ++ ']' :: back ∧ front.length = position ∧ Balanced front

/-- An opening bracket that is never closed: what closes it would be a stray bracket in the
text behind it. -/
def OpenAt (text : List Char) (position : Nat) : Prop :=
  ∃ front back, text = front ++ '[' :: back ∧ front.length = position ∧ ∀ q, ¬StrayAt back q

/-- The stray bracket, or in a text without one the leftmost bracket that stays open. -/
inductive UnbalancedAt (text : List Char) (position : Nat) : Prop where
  | stray (found : StrayAt text position)
  | unclosed (clean : ∀ q, ¬StrayAt text q) (found : OpenAt text position)
      (leftmost : ∀ q < position, ¬OpenAt text q)

/-- A text that begins with the bracket at fault. -/
inductive FaultAtHead : List Char → Prop where
  | stray (back : List Char) : FaultAtHead (']' :: back)
  | unclosed {back : List Char} (never : ∀ q, ¬StrayAt back q) : FaultAtHead ('[' :: back)

variable {depth position position' : Nat} {text front rest back : List Char}

theorem depthAfter_append_stray (closed : depthAfter depth front = some 0) :
    depthAfter depth (front ++ ']' :: back) = none := by
  rw [depthAfter_append, closed]
  exact depthAfter_stray

/-- The count fails at a closing bracket to which it comes with nothing open. -/
theorem depthAfter_eq_none_iff : depthAfter depth text = none ↔
    ∃ front back, text = front ++ ']' :: back ∧ depthAfter depth front = some 0 := by
  constructor
  · intro failed
    induction text generalizing depth with
    | nil => simp [depthAfter] at failed
    | cons c rest ih =>
      have step {next : Nat} (counted : depthAfter depth [c] = some next)
          (later : depthAfter next rest = none) :
          ∃ front back, c :: rest = front ++ ']' :: back ∧ depthAfter depth front = some 0 := by
        obtain ⟨front, back, rfl, closed⟩ := ih later
        refine ⟨c :: front, back, rfl, ?_⟩
        rw [depthAfter_cons counted]
        exact closed
      by_cases opens : c = '['
      · subst opens
        rw [depthAfter_open] at failed
        exact step depthAfter_open failed
      · by_cases closes : c = ']'
        · subst closes
          cases depth with
          | zero => exact ⟨[], rest, rfl, rfl⟩
          | succ depth =>
            rw [depthAfter_close] at failed
            exact step depthAfter_close failed
        · rw [depthAfter_cons_plain ⟨opens, closes⟩] at failed
          exact step (depthAfter_cons_plain ⟨opens, closes⟩) failed
  · rintro ⟨front, back, rfl, closed⟩
    exact depthAfter_append_stray closed

theorem depthAfter_eq_none_iff_strayAt : depthAfter 0 text = none ↔ ∃ q, StrayAt text q := by
  rw [depthAfter_eq_none_iff]
  constructor
  · rintro ⟨front, back, same, balanced⟩
    exact ⟨_, front, back, same, rfl, balanced⟩
  · rintro ⟨_, front, back, same, _, balanced⟩
    exact ⟨front, back, same, balanced⟩

/-- Without a stray bracket the count comes to an end. -/
theorem exists_depthAfter_iff :
    (∃ after, depthAfter 0 text = some after) ↔ ∀ q, ¬StrayAt text q := by
  rw [← Option.isSome_iff_exists, Option.isSome_iff_ne_none, Ne, depthAfter_eq_none_iff_strayAt,
    not_exists]

theorem Balanced.no_stray (balanced : Balanced text) : ∀ q, ¬StrayAt text q :=
  exists_depthAfter_iff.mp ⟨0, balanced⟩

theorem StrayAt.append (stray : StrayAt text position) (rest : List Char) :
    StrayAt (text ++ rest) position := by
  obtain ⟨front, back, rfl, place, balanced⟩ := stray
  exact ⟨front, back ++ rest, by simp, place, balanced⟩

/-- A bracket that opens inside a balanced text is closed inside it. -/
theorem Balanced.closes (balanced : Balanced (front ++ '[' :: back)) : ∃ q, StrayAt back q := by
  cases counted : depthAfter 0 back with
  | none => exact depthAfter_eq_none_iff_strayAt.mp counted
  | some after =>
    rw [Balanced, depthAfter_append] at balanced
    obtain ⟨depth, _, closed⟩ := Option.bind_eq_some_iff.mp balanced
    have raised := depthAfter_raise counted (depth + 1)
    rw [Nat.zero_add] at raised
    rw [depthAfter_open, raised] at closed
    simp at closed

theorem StrayAt.le (stray : StrayAt text position) (stray' : StrayAt text position') :
    position ≤ position' := by
  obtain ⟨front, back, rfl, rfl, balanced⟩ := stray
  obtain ⟨front', back', same, rfl, balanced'⟩ := stray'
  apply Nat.le_of_not_lt
  intro shorter
  obtain ⟨middle, rfl⟩ := List.prefix_of_prefix_length_le ⟨_, same.symm⟩ ⟨_, rfl⟩
    (Nat.le_of_lt shorter)
  cases middle with
  | nil => simp at shorter
  | cons c middle =>
    simp only [List.append_assoc, List.append_cancel_left_eq, List.cons_append,
      List.cons.injEq] at same
    obtain ⟨rfl, _⟩ := same
    exact balanced.no_stray _ ⟨front', middle, rfl, rfl, balanced'⟩

theorem UnbalancedAt.unique (fault : UnbalancedAt text position)
    (fault' : UnbalancedAt text position') : position = position' := by
  cases fault with
  | stray found =>
    cases fault' with
    | stray found' => exact Nat.le_antisymm (found.le found') (found'.le found)
    | unclosed clean _ _ => exact absurd found (clean _)
  | unclosed clean found leftmost =>
    cases fault' with
    | stray found' => exact absurd found' (clean _)
    | unclosed _ found' leftmost' =>
      rcases Nat.lt_trichotomy position position' with before | same | behind
      · exact absurd found (leftmost' _ before)
      · exact same
      · exact absurd found' (leftmost _ behind)

theorem UnbalancedAt.not_balanced (fault : UnbalancedAt text position) : ¬Balanced text := by
  intro balanced
  cases fault with
  | stray found => exact balanced.no_stray _ found
  | unclosed _ found _ =>
    obtain ⟨front, back, rfl, _, never⟩ := found
    obtain ⟨q, stray⟩ := balanced.closes
    exact never q stray

/-- A bracket that stays open hides no stray one. -/
theorem no_stray_of_unclosed (balanced : Balanced front) (never : ∀ q, ¬StrayAt back q) :
    ∀ q, ¬StrayAt (front ++ '[' :: back) q := by
  obtain ⟨after, counted⟩ := exists_depthAfter_iff.mpr never
  have whole : depthAfter 0 (front ++ '[' :: back) = some (after + 1) := by
    rw [depthAfter_append, balanced, Option.bind_some, depthAfter_open]
    exact depthAfter_raise counted 1
  exact exists_depthAfter_iff.mp ⟨_, whole⟩

/-- Everything in front of the fault is balanced. -/
theorem unbalancedAt_append (balanced : Balanced front) (fault : FaultAtHead rest) :
    UnbalancedAt (front ++ rest) front.length := by
  cases fault with
  | stray back => exact .stray ⟨front, back, rfl, rfl, balanced⟩
  | @unclosed back never =>
    refine .unclosed (no_stray_of_unclosed balanced never) ⟨front, back, rfl, rfl, never⟩ ?_
    rintro _ before ⟨earlier, behind, same, rfl, never'⟩
    obtain ⟨middle, rfl⟩ := List.prefix_of_prefix_length_le ⟨_, same.symm⟩ ⟨_, rfl⟩
      (Nat.le_of_lt before)
    cases middle with
    | nil => simp at before
    | cons c middle =>
      simp only [List.append_assoc, List.append_cancel_left_eq, List.cons_append,
        List.cons.injEq] at same
      obtain ⟨rfl, rfl⟩ := same
      obtain ⟨q, stray⟩ := balanced.closes
      exact never' q (stray.append _)

end AggFlatten.Text
