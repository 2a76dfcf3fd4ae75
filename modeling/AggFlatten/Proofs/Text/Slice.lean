import AggFlatten.Proofs.Text.Brackets

/-! Slices of a text. Places are counted in bytes, so a place can lie inside a character or
behind the end; a slice is cut only between places that do neither, and it is then what stands
between them. -/
namespace AggFlatten.Text

/-- The text from one place to another, if both lie between characters and in order. -/
def slice? (text : String) (start stop : Nat) : Option String :=
  if between : (⟨start⟩ : String.Pos.Raw).IsValid text ∧ (⟨stop⟩ : String.Pos.Raw).IsValid text ∧
      start ≤ stop then
    some (text.extract (text.pos ⟨start⟩ between.1) (text.pos ⟨stop⟩ between.2.1))
  else none

variable {text front piece back : String} {start stop : Nat}

theorem isValid_of_append (whole : text = front ++ back) (place : front.utf8ByteSize = start) :
    (⟨start⟩ : String.Pos.Raw).IsValid text := by
  subst place
  exact String.Pos.Raw.isValid_iff_exists_append.mpr ⟨front, back, whole, rfl⟩

theorem slice?_append (whole : text = front ++ piece ++ back)
    (first : front.utf8ByteSize = start) (last : start + piece.utf8ByteSize = stop) :
    slice? text start stop = some piece := by
  subst first
  have apart : text = front ++ (piece ++ back) := whole.trans (String.append_assoc ..)
  have reached : (front ++ piece).utf8ByteSize = stop := by rw [String.utf8ByteSize_append, last]
  have begins := isValid_of_append apart rfl
  have ends := isValid_of_append whole reached
  have ordered : front.utf8ByteSize ≤ stop := by omega
  have cut : ∃ h, (text.slice (text.pos _ begins) (text.pos _ ends) h).copy = piece := by
    refine String.copy_slice_eq_iff_splits.mpr ⟨front, back, ⟨apart, rfl⟩, whole, ?_⟩
    rw [String.offset_pos, ← reached]
    rfl
  rw [slice?, dif_pos ⟨begins, ends, ordered⟩, String.extract_eq_copy_slice _ _ ordered]
  exact congrArg some cut.choose_spec

theorem exists_append_of_slice? (cut : slice? text start stop = some piece) :
    ∃ front back, text = front ++ piece ++ back ∧ front.utf8ByteSize = start ∧
      start + piece.utf8ByteSize = stop := by
  rw [slice?] at cut
  split at cut
  · next between =>
    obtain ⟨begins, ends, ordered⟩ := between
    rw [String.extract_eq_copy_slice _ _ ordered] at cut
    obtain ⟨front, back, opens, closes⟩ :=
      String.copy_slice_eq_iff_splits.mp ⟨_, Option.some.inj cut⟩
    have first : start = front.utf8ByteSize :=
      congrArg String.Pos.Raw.byteIdx opens.offset_eq_rawEndPos
    have last : stop = (front ++ piece).utf8ByteSize :=
      congrArg String.Pos.Raw.byteIdx closes.offset_eq_rawEndPos
    rw [String.utf8ByteSize_append, ← first] at last
    exact ⟨front, back, closes.eq_append, first.symm, last.symm⟩
  · cases cut

/-- A slice is cut exactly where the text is put together of it and of what is around it. -/
theorem slice?_eq_some_iff : slice? text start stop = some piece ↔
    ∃ front back, text = front ++ piece ++ back ∧ front.utf8ByteSize = start ∧
      start + piece.utf8ByteSize = stop := by
  constructor
  · exact exists_append_of_slice?
  · rintro ⟨front, back, whole, first, last⟩
    exact slice?_append whole first last

example : slice? "größe[tid]" 8 11 = some "tid" ∧ slice? "größe[tid]" 3 11 = none := by
  decide +kernel

end AggFlatten.Text
