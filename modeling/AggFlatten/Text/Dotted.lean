/-! Dotted text. A dot separates two segments, so a text with n dots has n + 1
segments, some of them possibly empty, and the empty text is one empty segment. -/
namespace AggFlatten.Text

def splitDots : List Char → List (List Char)
  | [] => [[]]
  | c :: rest => if c = '.' then [] :: splitDots rest else (splitDots rest).modifyHead (c :: ·)

def joinDots (segments : List (List Char)) : List Char :=
  List.intercalate ['.'] segments

def segments (text : String) : List String :=
  (splitDots text.toList).map String.ofList

def dotted (segments : List String) : String :=
  String.ofList (joinDots (segments.map String.toList))

def lastSegment (text : String) : String :=
  (segments text).getLastD text

theorem splitDots_ne_nil (text : List Char) : splitDots text ≠ [] := by
  induction text with
  | nil => simp [splitDots]
  | cons c rest ih =>
    rw [splitDots]
    split
    · simp
    · cases h : splitDots rest with
      | nil => exact absurd h ih
      | cons s more => simp [List.modifyHead]

theorem splitDots_append_dot (p q : List Char) :
    splitDots (p ++ '.' :: q) = splitDots p ++ splitDots q := by
  induction p with
  | nil => simp [splitDots]
  | cons c rest ih =>
    rw [List.cons_append, splitDots, splitDots, ih]
    split
    · rfl
    · cases h : splitDots rest with
      | nil => exact absurd h (splitDots_ne_nil rest)
      | cons s more => rfl

theorem splitDots_eq_singleton {s : List Char} (h : '.' ∉ s) : splitDots s = [s] := by
  induction s with
  | nil => rfl
  | cons c rest ih =>
    rw [splitDots, if_neg (fun e => h (by simp [e])), ih (fun m => h (List.mem_cons_of_mem _ m))]
    rfl

theorem joinDots_cons_cons (s t : List Char) (more : List (List Char)) :
    joinDots (s :: t :: more) = s ++ '.' :: joinDots (t :: more) := by
  simp [joinDots, List.intercalate_cons_cons]

theorem joinDots_splitDots (text : List Char) : joinDots (splitDots text) = text := by
  induction text with
  | nil => rfl
  | cons c rest ih =>
    cases h : splitDots rest with
    | nil => exact absurd h (splitDots_ne_nil rest)
    | cons s more =>
      rw [h] at ih
      rw [splitDots]
      split
      · next dot => rw [h, joinDots_cons_cons, ih, dot]; rfl
      · rw [h]
        cases more with
        | nil =>
          rw [joinDots, List.intercalate_singleton] at ih
          rw [List.modifyHead_cons, joinDots, List.intercalate_singleton, ih]
        | cons t more =>
          rw [joinDots_cons_cons] at ih
          simp only [List.modifyHead_cons, joinDots_cons_cons, List.cons_append, ih]

theorem splitDots_joinDots {segments : List (List Char)} (nonempty : segments ≠ [])
    (plain : ∀ s ∈ segments, '.' ∉ s) : splitDots (joinDots segments) = segments := by
  induction segments with
  | nil => exact absurd rfl nonempty
  | cons s more ih =>
    have head := plain s List.mem_cons_self
    cases more with
    | nil => rw [joinDots, List.intercalate_singleton, splitDots_eq_singleton head]
    | cons t more =>
      rw [joinDots_cons_cons, splitDots_append_dot, splitDots_eq_singleton head,
        ih (List.cons_ne_nil _ _) fun u m => plain u (List.mem_cons_of_mem _ m)]
      rfl

end AggFlatten.Text
