import AggFlatten.Proofs.Aggregation.Absence
import AggFlatten.Response

/-! What a failure reports. Inside an evaluation every failure is a lookup, and the request
around it reports any of them in the same way; a malformed text is found before that. -/
namespace AggFlatten

/-- Nothing but a lookup makes this fail. -/
def FailsByLookup {α : Type} (outcome : Except AggError α) : Prop :=
  ∀ e, outcome = .error e → ∃ cause, e = .lookup cause

theorem FailsByLookup.ok {α : Type} (a : α) : FailsByLookup (.ok a) := nofun

theorem Evaluation.ofShape_fails {options : OutputOptions} {inside : Inside}
    (within : ∀ node, FailsByLookup (inside node)) (shape : Shape) (node : Json)
    (path : String) : FailsByLookup (ofShape options shape inside node path) :=
  ofShape_failsWith (fun cause _ _ _ => ⟨cause, rfl⟩) (fun held _ => within held) shape

theorem SubAgg.evaluateAll_fails (options : OutputOptions) (subs : List SubAgg) (node : Json) :
    FailsByLookup (evaluateAll options subs node) :=
  (evaluateAll_tells options subs node).mono fun _ ⟨cause, same, _⟩ => ⟨cause, same⟩

namespace Aggregations

variable {aggs : Aggregations} {request text path : String} {options : OutputOptions}
  {e : Expression}

theorem guarded_of_failed {found : Except AggError Json} (fails : FailsByLookup found)
    (failed : ∀ result, found ≠ .ok result) :
    aggs.guarded request found = .error (.missing request aggs.root) := by
  cases read : found with
  | ok result => exact absurd read (failed result)
  | error e =>
    obtain ⟨cause, rfl⟩ := fails e read
    rfl

theorem flatten_of_malformed {cause : SyntaxError} (malformed : Expression.parse text = .error cause) :
    aggs.flatten text options = .error (.badExpression cause) := by
  rw [flatten, parse, malformed]
  rfl

theorem access_of_malformed (type : AggType) {cause : SyntaxError}
    (malformed : Expression.parse text = .error cause) :
    aggs.access type path options (some text) = .error (.badExpression cause) := by
  rw [access, parse, malformed]
  rfl

end Aggregations

namespace SearchResponse

/-- The document is an object, and so is its member for the aggregations. -/
def HasAggregations (response : SearchResponse) (tree : Json) : Prop :=
  ∃ fields members, response.document = .obj fields ∧
    Json.lookup "aggregations" fields = some (.obj members) ∧ tree = .obj members

variable {response : SearchResponse} {tree : Json} {text : String} {options : OutputOptions}

theorem aggregations_eq_ok_iff {aggs : Aggregations} :
    response.aggregations = .ok aggs ↔ response.HasAggregations aggs.root := by
  obtain ⟨root⟩ := aggs
  obtain ⟨document⟩ := response
  rw [aggregations, HasAggregations]
  split
  · next members found =>
    cases document with
    | obj fields =>
      rw [member?] at found
      simp [found, eq_comm]
    | null | bool _ | num _ | str _ | arr _ => cases found
  · next other =>
    constructor
    · intro absent
      cases absent
    · rintro ⟨fields, members, rfl, found, rfl⟩
      exact absurd found (other members)

theorem flatten_of_hasAggregations (has : response.HasAggregations tree) :
    response.flatten text options = (⟨tree⟩ : Aggregations).flatten text options := by
  rw [flatten, @aggregations_eq_ok_iff response ⟨tree⟩ |>.mpr has]
  rfl

theorem aggregations_of_lacks (lacks : ∀ tree, ¬response.HasAggregations tree) :
    response.aggregations = .error (.noSection "aggregations") := by
  cases found : response.aggregations with
  | ok aggs => exact absurd (aggregations_eq_ok_iff.mp found) (lacks aggs.root)
  | error e =>
    rw [aggregations] at found
    split at found
    · cases found
    · exact found.symm

theorem flatten_of_no_aggregations (lacks : ∀ tree, ¬response.HasAggregations tree) :
    response.flatten text options = .error (.noSection "aggregations") := by
  rw [flatten, aggregations_of_lacks lacks]
  rfl

end SearchResponse

end AggFlatten
