import AggFlatten.Json.Lines
import AggFlatten.Proofs.Json.Compact
import AggFlatten.Proofs.Text.Lines
import AggFlatten.Proofs.Text.Span

/-! Documents written one record a line. The text of a record is a single line whatever its
strings hold, and it has no white space at its end, so that neither a cut behind every newline
nor the removal of the last one can touch a record. -/
namespace AggFlatten.Json

open Text (IsLine cutLines isSpace)

/-- The records of a document: the items of a list, the items of the list that is the only member
of an object, or the document itself. -/
inductive RecordsOf : Json → List Json → Prop where
  | list (items : List Json) : RecordsOf (.arr items) items
  | onlyMember (key : String) (items : List Json) : RecordsOf (.obj [(key, .arr items)]) items
  | itself {value : Json} (noList : ∀ items, value ≠ .arr items)
      (noOnlyMember : ∀ key items, value ≠ .obj [(key, .arr items)]) : RecordsOf value [value]

theorem recordsOf_iff {value : Json} {found : List Json} :
    RecordsOf value found ↔ found = value.records := by
  constructor
  · intro held
    cases held with
    | list | onlyMember => rfl
    | itself noList noOnlyMember =>
      rw [records]
      · exact noList
      · exact noOnlyMember
  · rintro rfl
    unfold records
    split
    · exact .list _
    · exact .onlyMember _ _
    · next noList noOnlyMember => exact .itself noList noOnlyMember

/-- The compact text of a record and the newline that ends it. -/
def recordLine (record : Json) : List Char :=
  record.compact.toList ++ ['\n']

theorem recordLine_eq (record : Json) : record.recordLine = record.compactChars ++ ['\n'] := by
  rw [recordLine, compact, String.toList_ofList]

theorem isLine_recordLine (record : Json) : IsLine record.recordLine :=
  ⟨record.compactChars, newline_not_mem_compactChars record, recordLine_eq record⟩

section lines

variable (value : Json)

theorem lineChars_eq_flatten : value.lineChars = (value.records.map recordLine).flatten := by
  rw [lineChars, List.flatMap_def, funext recordLine_eq]

theorem isLine_of_mem : ∀ line ∈ value.records.map recordLine, IsLine line :=
  List.forall_mem_map.mpr fun record _ => isLine_recordLine record

theorem cutLines_lines : cutLines value.lines.toList = value.records.map recordLine := by
  rw [lines, String.toList_ofList, lineChars_eq_flatten]
  exact Text.cutLines_flatten (isLine_of_mem value)

theorem count_newline_lines : value.lines.toList.count '\n' = value.records.length := by
  rw [lines, String.toList_ofList, lineChars_eq_flatten, ← List.length_map recordLine]
  exact Text.count_newline_flatten (isLine_of_mem value)

end lines

/-- No character of a record is lost with the newline at the end: its text does not end in white
space. -/
theorem trimEnd_lineChars {value : Json} (nonempty : value.records ≠ []) :
    Text.trimEnd value.lineChars ++ ['\n'] = value.lineChars := by
  obtain ⟨front, last, split⟩ := (List.eq_nil_or_concat' value.records).resolve_left nonempty
  obtain ⟨filled, solid⟩ := last.compactChars_ends
  have layout : value.lineChars =
      (front.map recordLine).flatten ++ last.compactChars ++ ['\n'] := by
    simp [lineChars_eq_flatten, split, recordLine_eq]
  have ends : ∀ c ∈ ((front.map recordLine).flatten ++ last.compactChars).getLast?,
      isSpace c = false := by
    rw [List.getLast?_append_of_ne_nil _ filled]
    exact solid
  rw [layout, Text.trimEnd_append ends (List.forall_mem_singleton.mpr (by decide))]

end AggFlatten.Json
