import AggFlatten.CommandLine.Run
import AggFlatten.Proofs.Json.Lines

/-! Results printed one record a line. The format leaves the last line open and printing closes
it, which restores the lines of the document if it has a record; printing closes a line also
where there is none. -/
namespace AggFlatten

open Json (RecordsOf Written)
open Json.StringLiteral (ReadsAs stringChars)
open Text (cutLines)

namespace Format

variable {value : Json}

theorem render_lines_append (nonempty : value.records ≠ []) :
    lines.render value ++ "\n" = value.lines := by
  have joined : String.ofList (Text.trimEnd value.lineChars) ++ String.ofList ['\n'] =
      value.lines := by
    rw [← String.ofList_append, Json.trimEnd_lineChars nonempty, Json.lines]
  exact joined

theorem lines_of_no_record (empty : value.records = []) : value.lines = "" := by
  rw [Json.lines, Json.lineChars, empty]
  rfl

theorem render_lines_of_no_record (empty : value.records = []) : lines.render value = "" := by
  rw [render, Json.lineChars, empty]
  rfl

end Format

/-- A document is written with one line a record, which holds the compact text of the record and
nothing else, whatever newlines and other control characters the record has in its strings. The
format takes away the newline of the last record. -/
theorem one_line_holds_one_record (value : Json) :
    (∀ records, RecordsOf value records ↔ records = value.records) ∧
    (value.lines.toList.count '\n' = value.records.length ∧
      cutLines value.lines.toList = value.records.map Json.recordLine) ∧
    ((value.records ≠ [] → Format.lines.render value ++ "\n" = value.lines) ∧
      (value.records = [] → Format.lines.render value = "")) ∧
    (∀ record text, Written record text ↔ text = record.compact.toList) ∧
    ∀ s rest, ∃ text, Json.quoted s ++ rest = '"' :: text ∧
      ReadsAs (stringChars text) s.toList rest := by
  refine ⟨fun _ => Json.recordsOf_iff, ⟨Json.count_newline_lines value, Json.cutLines_lines value⟩,
    ⟨Format.render_lines_append, Format.render_lines_of_no_record⟩, ?_,
    Json.StringLiteral.readsAs_quoted⟩
  intro record text
  rw [Json.compact, String.toList_ofList]
  exact Json.written_iff record

/-- A line feed is escaped, and a line separator is not, so that it ends no line. -/
example :
    let value : Json := .obj [("names", .arr [.str "a\nb", .str "\u2028 \x85"])]
    Format.lines.render value = "\"a\\nb\"\n\"\u2028 \x85\"" := by
  decide +kernel

namespace CommandLine

theorem run_of_result {arguments : List String} {stdin : ByteArray}
    {request given : FlattenRequest} {format : Format} {value : Json}
    (read : readInvocation arguments = .ok (.command (.flatten request format)))
    (filled : request.withInput stdin = .ok given) (yields : given.run = .ok (.result value)) :
    run arguments stdin = ⟨0, format.render value ++ "\n", ""⟩ := by
  have printed : Command.print stdin (.flatten request format) =
      .ok (format.render value ++ "\n") := by
    rw [Command.print, filled]
    simp only [bind, Except.bind, yields]
    rfl
  rw [run, read]
  simp only [printed]

end CommandLine

open CommandLine (run readInvocation)

/-- A document that yields records is printed as just these lines. Where a document yields none,
there is no line to write, and an empty one is printed. -/
theorem printed_lines_are_the_records {arguments : List String} {stdin : ByteArray}
    {request given : FlattenRequest} {value : Json} {records : List Json}
    (read : readInvocation arguments = .ok (.command (.flatten request .lines)))
    (filled : request.withInput stdin = .ok given) (yields : given.run = .ok (.result value))
    (held : RecordsOf value records) :
    (records ≠ [] → run arguments stdin = ⟨0, value.lines, ""⟩ ∧
      cutLines (run arguments stdin).stdout.toList = records.map Json.recordLine) ∧
    (records = [] → value.lines = "" ∧ run arguments stdin = ⟨0, "\n", ""⟩) := by
  obtain rfl := Json.recordsOf_iff.mp held
  have printed := CommandLine.run_of_result read filled yields
  constructor
  · intro nonempty
    rw [Format.render_lines_append nonempty] at printed
    refine ⟨printed, ?_⟩
    rw [printed]
    exact Json.cutLines_lines value
  · intro empty
    rw [Format.render_lines_of_no_record empty] at printed
    exact ⟨Format.lines_of_no_record empty, printed⟩

/-- The hours of a tree on the standard input, one of them with a line feed in its name. -/
theorem hours_are_printed_as_lines :
    let arguments := ["flatten", "terms:hours", "--raw", "--ndjson"]
    let input := "\x7b\"hours\":\x7b\"buckets\":[\x7b\"key\":\"a\\nb\",\"doc_count\":2\x7d," ++
      "\x7b\"key\":\"c\",\"doc_count\":0\x7d]\x7d\x7d"
    let request : FlattenRequest := ⟨"terms:hours", none, true, false, {}⟩
    let given : FlattenRequest := { request with input := some input }
    let hours : List Json :=
      [.obj [("hour", .str "a\nb"), ("count", .nat 2)], .obj [("hour", .str "c"), ("count", .nat 0)]]
    let value : Json := .obj [("hours", .arr hours)]
    (readInvocation arguments = .ok (.command (.flatten request .lines)) ∧
      request.withInput input.toUTF8 = .ok given ∧ given.run = .ok (.result value) ∧
      RecordsOf value hours ∧ hours ≠ []) ∧
    (run arguments input.toUTF8 = ⟨0, value.lines, ""⟩ ∧
      cutLines (run arguments input.toUTF8).stdout.toList = hours.map Json.recordLine) := by
  intro arguments input request given hours value
  have read : readInvocation arguments = .ok (.command (.flatten request .lines)) := by
    decide +kernel
  have filled : request.withInput input.toUTF8 = .ok given := by decide +kernel
  have yields : given.run = .ok (.result value) := by decide +kernel
  have held : RecordsOf value hours := .onlyMember "hours" hours
  have nonempty : hours ≠ [] := List.cons_ne_nil _ _
  exact ⟨⟨read, filled, yields, held, nonempty⟩,
    (printed_lines_are_the_records read filled yields held).1 nonempty⟩

/-- A tree without an hour has no line, and is printed as an empty one. -/
theorem no_hours_leave_an_empty_line :
    let arguments := ["flatten", "terms:hours", "--raw", "--ndjson", "-i",
      "\x7b\"hours\":\x7b\"buckets\":[]\x7d\x7d"]
    let request : FlattenRequest :=
      ⟨"terms:hours", some "\x7b\"hours\":\x7b\"buckets\":[]\x7d\x7d", true, false, {}⟩
    let value : Json := .obj [("hours", .arr [])]
    (readInvocation arguments = .ok (.command (.flatten request .lines)) ∧
      request.withInput .empty = .ok request ∧ request.run = .ok (.result value)) ∧
    value.lines = "" ∧ run arguments .empty = ⟨0, "\n", ""⟩ ∧
    (run arguments .empty).stdout ≠ value.lines := by
  decide +kernel

end AggFlatten
