import AggFlatten.Proofs.Aggregation.Absence

/-! Paths of two halves. A path leads where its second half leads from the end of its first, so
single segments decide about all paths; where it leads nowhere, the fault is that of the whole
path. -/
namespace AggFlatten

open Json (Within)

theorem Text.segments_append_dot (first second : String) :
    segments (first ++ "." ++ second) = segments first ++ segments second := by
  have chars : (first ++ "." ++ second).toList = first.toList ++ '.' :: second.toList := by simp
  rw [segments, segments, segments, chars, splitDots_append_dot, List.map_append]

theorem Text.segments_of_no_dot {segment : String} (plain : '.' ∉ segment.toList) :
    segments segment = [segment] := by
  rw [segments, splitDots_eq_singleton plain, List.map_singleton, String.ofList_toList]

namespace Json

variable {node found : Json} {first second path segment : String} {cause : LookupError}

theorem get_append_dot_eq_ok_iff : node.get (first ++ "." ++ second) = .ok found ↔
    ∃ between, node.get first = .ok between ∧ between.get second = .ok found := by
  simp only [get_eq_ok_iff, Text.segments_append_dot, follow?_append, Option.bind_eq_some_iff]

theorem get_segment_eq_ok_iff (plain : '.' ∉ segment.toList) :
    node.get segment = .ok found ↔ node.child? segment = some found := by
  simp only [get_eq_ok_iff, Text.segments_of_no_dot plain, follow?, Option.bind_fun_some]

theorem get_eq_error_iff :
    node.get path = .error cause ↔ cause = ⟨path, node⟩ ∧ ∀ found, node.get path ≠ .ok found := by
  constructor
  · intro failed
    refine ⟨eq_of_get_eq_error failed, ?_⟩
    intro found read
    rw [read] at failed
    cases failed
  · rintro ⟨rfl, nowhere⟩
    cases read : node.get path with
    | ok found => exact absurd read (nowhere found)
    | error e => rw [eq_of_get_eq_error read]

end Json

/-- A path that is put together of two leads where they lead one after the other, and a single
segment to a child, so that whatever is found is held in the node where the path starts. A path
that leads nowhere is reported whole, with that node. -/
theorem paths_are_followed_in_halves (node : Json) :
    (∀ (first second : String) (found : Json), node.get (first ++ "." ++ second) = .ok found ↔
      ∃ between, node.get first = .ok between ∧ between.get second = .ok found) ∧
    (∀ (segment : String) (found : Json), '.' ∉ segment.toList →
      (node.get segment = .ok found ↔ node.child? segment = some found)) ∧
    (∀ (path : String) (cause : LookupError), node.get path = .error cause ↔
      cause = ⟨path, node⟩ ∧ ∀ found, node.get path ≠ .ok found) ∧
    ∀ (path : String) (found : Json), node.get path = .ok found → Within found node :=
  ⟨fun _ _ _ => Json.get_append_dot_eq_ok_iff, fun _ _ => Json.get_segment_eq_ok_iff,
    fun _ _ => Json.get_eq_error_iff, fun _ _ => Json.within_of_get⟩

/-- A member without a name, the position in a list that it holds, and a path that goes on too
far. -/
theorem load_has_nothing_below :
    let load : Json := .num (.int 5)
    let day : Json := .obj [("", .arr [.null, load])]
    let days : Json := .obj [("days", day)]
    (days.get "days." = .ok (.arr [.null, load]) ∧ days.get ("days." ++ "." ++ "+01") = .ok load) ∧
      ('.' ∉ "days".toList ∧ days.get "days" = .ok day) ∧
      (days.get "days..1.load" = .error ⟨"days..1.load", days⟩ ∧
        ∀ found, days.get "days..1.load" ≠ .ok found) ∧
      Within load days := by
  intro load day days
  obtain ⟨halves, alone, faults, held⟩ := paths_are_followed_in_halves days
  have listed : days.get "days." = .ok (.arr [.null, load]) := by decide +kernel
  have found : days.get ("days." ++ "." ++ "+01") = .ok load :=
    (halves _ _ _).mpr ⟨_, listed, by decide +kernel⟩
  have plain : '.' ∉ "days".toList := by decide
  have failed : days.get "days..1.load" = .error ⟨"days..1.load", days⟩ := by decide +kernel
  exact ⟨⟨listed, found⟩, ⟨plain, (alone _ _ plain).mpr (by decide +kernel)⟩,
    ⟨failed, ((faults _ _).mp failed).2⟩, held _ _ found⟩

end AggFlatten
