import AggFlatten.Text.Space

/-! Brackets in a text, by one count of the open ones from left to right. The count is the
specification that the scanner of tokens and the search for a closing bracket are compared
with; it looks at brackets alone, so white space plays no part in it. -/
namespace AggFlatten.Text

/-- The open brackets behind a text that stands inside `depth` of them, unless a bracket
in it closes nothing. -/
def depthAfter (depth : Nat) : List Char → Option Nat
  | [] => some depth
  | c :: rest =>
    if c = '[' then depthAfter (depth + 1) rest
    else if c = ']' then if depth = 0 then none else depthAfter (depth - 1) rest
    else depthAfter depth rest

def Balanced (text : List Char) : Prop := depthAfter 0 text = some 0

/-- No white space stands outside the brackets. -/
def Unbroken (depth : Nat) (text : List Char) : Prop :=
  ∀ front c back, text = front ++ c :: back → depthAfter depth front = some 0 → isSpace c = false

/-- A character that neither opens nor closes a bracket. -/
def IsPlain (c : Char) : Prop := c ≠ '[' ∧ c ≠ ']'

theorem isPlain_of_isSpace {c : Char} (space : isSpace c = true) : IsPlain c := by
  refine ⟨?_, ?_⟩ <;> rintro rfl <;> exact absurd space (by decide)

section depthAfter

variable {depth after : Nat} {text rest : List Char}

theorem depthAfter_open : depthAfter depth ('[' :: rest) = depthAfter (depth + 1) rest := by
  simp [depthAfter]

theorem depthAfter_close : depthAfter (depth + 1) (']' :: rest) = depthAfter depth rest := by
  simp [depthAfter]

theorem depthAfter_stray : depthAfter 0 (']' :: rest) = none := by
  simp [depthAfter]

theorem depthAfter_cons_plain {c : Char} (plain : IsPlain c) :
    depthAfter depth (c :: rest) = depthAfter depth rest := by
  rw [depthAfter, if_neg plain.1, if_neg plain.2]

theorem depthAfter_append (depth : Nat) (text rest : List Char) :
    depthAfter depth (text ++ rest) = (depthAfter depth text).bind (depthAfter · rest) := by
  induction text generalizing depth with
  | nil => rfl
  | cons c text ih =>
    rw [List.cons_append, depthAfter, depthAfter, ih, ih, ih]
    split
    · rfl
    · split
      · split <;> rfl
      · rfl

theorem depthAfter_cons {c : Char} (counted : depthAfter depth [c] = some after) :
    depthAfter depth (c :: rest) = depthAfter after rest := by
  rw [← List.singleton_append, depthAfter_append, counted, Option.bind_some]

theorem depthAfter_plain (plain : ∀ c ∈ text, IsPlain c) :
    depthAfter depth text = some depth := by
  induction text with
  | nil => rfl
  | cons c rest ih =>
    rw [depthAfter_cons_plain (plain c List.mem_cons_self)]
    exact ih fun d member => plain d (List.mem_cons_of_mem _ member)

/-- The count of a text depends on the brackets around it only by their number. -/
theorem depthAfter_raise (counted : depthAfter depth text = some after) (more : Nat) :
    depthAfter (depth + more) text = some (after + more) := by
  induction text generalizing depth with
  | nil =>
    obtain rfl := Option.some.inj counted
    rfl
  | cons c rest ih =>
    rw [depthAfter] at counted ⊢
    split at counted
    · next opens =>
      rw [if_pos opens]
      have deeper := ih counted
      rwa [Nat.add_right_comm] at deeper
    · next other =>
      rw [if_neg other]
      split at counted
      · next closes =>
        rw [if_pos closes]
        split at counted
        · contradiction
        · next inside =>
          have outer := ih counted
          have same : depth - 1 + more = depth + more - 1 := by omega
          rw [if_neg (by omega), ← same]
          exact outer
      · next plain =>
        rw [if_neg plain]
        exact ih counted

end depthAfter

namespace Balanced

variable {text rest : List Char}

theorem append (first : Balanced text) (last : Balanced rest) : Balanced (text ++ rest) := by
  rw [Balanced, depthAfter_append, first]
  exact last

theorem of_plain (plain : ∀ c ∈ text, IsPlain c) : Balanced text :=
  depthAfter_plain plain

theorem of_spaces (spaces : ∀ c ∈ text, isSpace c = true) : Balanced text :=
  of_plain fun c member => isPlain_of_isSpace (spaces c member)

/-- Between brackets of its own a text leaves the count around it as it is. -/
theorem inBrackets (inside : Balanced text) (depth : Nat) :
    depthAfter depth ('[' :: text ++ [']']) = some depth := by
  have raised := depthAfter_raise inside (depth + 1)
  rw [Nat.zero_add] at raised
  rw [List.cons_append, depthAfter_open, depthAfter_append, raised]
  exact depthAfter_close

end Balanced

namespace Unbroken

variable {depth : Nat} {text rest : List Char}

theorem cons_iff {c : Char} : Unbroken depth (c :: rest) ↔
    (depth = 0 → isSpace c = false) ∧
      ∀ next, depthAfter depth [c] = some next → Unbroken next rest := by
  constructor
  · intro unbroken
    refine ⟨?_, ?_⟩
    · rintro rfl
      exact unbroken [] c rest rfl rfl
    · rintro next counted front d back rfl outside
      refine unbroken (c :: front) d back rfl ?_
      rw [depthAfter_cons counted]
      exact outside
  · rintro ⟨first, later⟩ front d back same outside
    cases front with
    | nil =>
      obtain ⟨rfl, rfl⟩ := List.cons.inj same
      exact first (Option.some.inj outside)
    | cons e front =>
      obtain ⟨rfl, rfl⟩ := List.cons.inj same
      rw [← List.singleton_append, depthAfter_append] at outside
      obtain ⟨next, counted, outside⟩ := Option.bind_eq_some_iff.mp outside
      exact later next counted front d back rfl outside

theorem nil : Unbroken depth [] := by
  intro front c back same
  exact absurd same.symm (by simp)

theorem of_nonspaces (solid : ∀ c ∈ text, isSpace c = false) : Unbroken depth text := by
  rintro front c back rfl _
  exact solid c (by simp)

theorem append {after : Nat} (counted : depthAfter depth text = some after)
    (first : Unbroken depth text) (last : Unbroken after rest) :
    Unbroken depth (text ++ rest) := by
  induction text generalizing depth with
  | nil =>
    obtain rfl := Option.some.inj counted
    exact last
  | cons c text ih =>
    obtain ⟨head, tail⟩ := cons_iff.mp first
    refine cons_iff.mpr ⟨head, ?_⟩
    intro next step
    rw [depthAfter_cons step] at counted
    exact ih counted (tail next step)

/-- White space inside brackets does no harm. -/
theorem inside {after : Nat} (counted : depthAfter depth text = some after) (more : Nat) :
    Unbroken (depth + more + 1) text := by
  rintro front c back rfl outside
  rw [depthAfter_append] at counted
  obtain ⟨middle, reached, _⟩ := Option.bind_eq_some_iff.mp counted
  have raised := depthAfter_raise reached (more + 1)
  rw [← Nat.add_assoc] at raised
  rw [raised] at outside
  cases outside

theorem inBrackets (balanced : Balanced text) : Unbroken depth ('[' :: text ++ [']']) := by
  have inner : Unbroken (depth + 1) (text ++ [']']) := by
    have raised := depthAfter_raise balanced (depth + 1)
    rw [Nat.zero_add] at raised
    have closing : ∀ c ∈ [']'], isSpace c = false := by
      intro c member
      rw [List.mem_singleton.mp member]
      decide
    refine append raised ?_ (of_nonspaces closing)
    simpa using inside balanced depth
  refine cons_iff.mpr ⟨fun _ => by decide, ?_⟩
  intro next counted
  obtain rfl : depth + 1 = next := by simpa [depthAfter] using counted
  exact inner

end Unbroken

end AggFlatten.Text
