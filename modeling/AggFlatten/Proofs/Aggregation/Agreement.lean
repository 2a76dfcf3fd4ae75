import AggFlatten.Proofs.Aggregation.Failures
import AggFlatten.Proofs.Expression.Request

/-! Reading one aggregation and flattening the text that asks for it. The one follows the
whole dotted name, the other goes to the scope of the name first, or stays where it is when
the scope leads nowhere. -/
namespace AggFlatten

open Grammar (Part Derivation)

/-- Names that have no inside are read as buckets when there is something to evaluate in it. -/
def AggType.readAs (type : AggType) (within : Option String) : AggType :=
  match type.shape, within with
  | .value, some _ | .multiValue, some _ => .terms
  | _, _ => type

/-- Two requests succeed together, the second with what `shown` makes of the first, or fail
together, each reported as itself with the whole tree. -/
inductive Together (tree : Json) (shown : Json → Json) (first second : String)
    (outcome outcome' : Except AggError Json) : Prop where
  | succeed {found} (read : outcome = .ok found) (read' : outcome' = .ok (shown found)) :
      Together tree shown first second outcome outcome'
  | fail (failed : outcome = .error (.missing first tree))
      (failed' : outcome' = .error (.missing second tree)) :
      Together tree shown first second outcome outcome'

namespace Aggregations

variable {aggs : Aggregations} {request request' : String} {found found' : Except AggError Json}

theorem together_guarded {shown : Json → Json} (fails : FailsByLookup found)
    (fails' : FailsByLookup found')
    (same : ∀ result, found' = .ok result ↔ ∃ inner, found = .ok inner ∧ shown inner = result) :
    Together aggs.root shown request request' (aggs.guarded request found)
      (aggs.guarded request' found') := by
  by_cases succeeds : ∃ inner, found = .ok inner
  · obtain ⟨inner, read⟩ := succeeds
    have read' := (same (shown inner)).mpr ⟨inner, read, rfl⟩
    exact .succeed (guarded_eq_ok_iff.mpr read) (guarded_eq_ok_iff.mpr read')
  · have failed : ∀ result, found ≠ .ok result := fun result read => succeeds ⟨result, read⟩
    have failed' : ∀ result, found' ≠ .ok result := by
      intro result read'
      obtain ⟨inner, read, _⟩ := (same result).mp read'
      exact failed inner read
    exact .fail (guarded_of_failed fails failed) (guarded_of_failed fails' failed')

end Aggregations

section Request

variable {type : AggType} {path : Grammar.Path} {inner : Option Derivation}

/-- The text in the brackets of a request. -/
def insideText (inner : Option Derivation) : Option String :=
  inner.map fun d => String.ofList d.text

theorem shape_request :
    (Part.request type path inner).sub.shape = (type.readAs (insideText inner)).shape := by
  cases inner <;> cases type <;> rfl

theorem inside_fails (sub : SubAgg) (options : OutputOptions) (node : Json) :
    FailsByLookup (sub.inside options node) := by
  cases sub with
  | bare _ _ => exact .ok _
  | bracketed _ _ _ body => exact SubAgg.evaluateAll_fails options body node

theorem access_request (aggs : Aggregations) (as : AggType) (name : String)
    (options : OutputOptions) :
    aggs.access as name options (insideText inner) =
      aggs.guarded name (Evaluation.ofShape options as.shape
        ((Part.request type path inner).sub.inside options) aggs.root name) := by
  cases inner with
  | none => exact Aggregations.access_none as
  | some d => exact Aggregations.access_of_parse as (Grammar.parse_text d)

theorem flatten_request (aggs : Aggregations) (options : OutputOptions) :
    aggs.flatten (requestText type (String.ofList path.text) (insideText inner)) options =
      aggs.guarded (requestText type (String.ofList path.text) (insideText inner))
        (SubAgg.evaluateAll options [(Part.request type path inner).sub] aggs.root) := by
  rw [insideText, Grammar.requestText_eq,
    Aggregations.flatten_of_parse (Grammar.parse_part (Part.request type path inner))]
  rfl

/-- A request yields what is read below its scope, under the name of the request. -/
theorem evaluateAll_request {options : OutputOptions} {tree result : Json} :
    SubAgg.evaluateAll options [(Part.request type path inner).sub] tree = .ok result ↔
      ∃ found, Evaluation.ofShape options (type.readAs (insideText inner)).shape
          ((Part.request type path inner).sub.inside options) (path.namePath.scopeIn tree)
          path.namePath.name = .ok found ∧
        (type.readAs (insideText inner)).shape.present path.namePath.name found = result := by
  rw [SubAgg.evaluateAll_singleton_eq_ok_iff, SubAgg.evaluate_eq_ok_iff, Grammar.path_request,
    shape_request]

end Request

section Scope

variable {path : Grammar.Path} {tree : Json}

theorem get_text_eq_ok_iff {child : Json} :
    tree.get (String.ofList path.text) = .ok child ↔
      ∃ node, tree.follow? path.namePath.scope = some node ∧
        node.get path.namePath.name = .ok child := by
  simp only [Json.get_eq_ok_iff, path.segments_text, path.segments_name, Json.follow?_append,
    Option.bind_eq_some_iff]

theorem get_scope_eq_ok_iff (given : path.scope ≠ []) {node : Json} :
    tree.get (Text.dotted path.namePath.scope) = .ok node ↔
      tree.follow? path.namePath.scope = some node := by
  rw [Json.get_eq_ok_iff, path.segments_scope given]

theorem scopeIn_of_follow {node : Json} (follow : tree.follow? path.namePath.scope = some node) :
    path.namePath.scopeIn tree = node := by
  rw [NamePath.scopeIn, follow, Option.getD_some]

theorem scopeIn_of_none (follow : tree.follow? path.namePath.scope = none) :
    path.namePath.scopeIn tree = tree := by
  rw [NamePath.scopeIn, follow, Option.getD_none]

theorem exists_scope
    (reached : path.scope = [] ∨ ∃ node, tree.get (Text.dotted path.namePath.scope) = .ok node) :
    ∃ node, tree.follow? path.namePath.scope = some node := by
  by_cases empty : path.scope = []
  · refine ⟨tree, ?_⟩
    simp [Grammar.Path.namePath, empty, Json.follow?]
  · obtain none | ⟨node, found⟩ := reached
    · exact absurd none empty
    · exact ⟨node, (get_scope_eq_ok_iff empty).mp found⟩

end Scope

section Agreement

variable {tree : Json} {type : AggType} {path : Grammar.Path} {options : OutputOptions}
  {inner : Option Derivation}

theorem agree_of_follow {node : Json} (follow : tree.follow? path.namePath.scope = some node) :
    Together tree
      ((type.readAs (insideText inner)).shape.present path.namePath.name)
      (String.ofList path.text)
      (requestText type (String.ofList path.text) (insideText inner))
      ((⟨tree⟩ : Aggregations).access (type.readAs (insideText inner)) (String.ofList path.text)
        options (insideText inner))
      ((⟨tree⟩ : Aggregations).flatten
        (requestText type (String.ofList path.text) (insideText inner)) options) := by
  have below : ∀ child, tree.get (String.ofList path.text) = .ok child ↔
      node.get path.namePath.name = .ok child := by
    intro child
    simp [get_text_eq_ok_iff, follow]
  have named : Text.lastSegment (String.ofList path.text) =
      Text.lastSegment path.namePath.name := by
    rw [path.lastSegment_text, path.lastSegment_name]
  rw [@access_request type path, flatten_request]
  refine @Aggregations.together_guarded ⟨tree⟩ _ _ _ _ _
    (Evaluation.ofShape_fails (inside_fails _ options) _ _ _)
    (SubAgg.evaluateAll_fails options _ tree) ?_
  intro result
  simp only [evaluateAll_request, scopeIn_of_follow follow, Evaluation.ofShape_congr below named]

theorem access_of_no_scope (as : AggType)
    (lost : tree.follow? path.namePath.scope = none) :
    (⟨tree⟩ : Aggregations).access as (String.ofList path.text) options (insideText inner) =
      .error (.missing (String.ofList path.text) tree) := by
  rw [@access_request as path]
  refine @Aggregations.guarded_of_failed ⟨tree⟩ _ _
    (Evaluation.ofShape_fails (inside_fails _ options) _ _ _) ?_
  intro result read
  obtain ⟨child, found⟩ := Evaluation.get_of_ofShape_eq_ok read
  obtain ⟨node, follow, _⟩ := get_text_eq_ok_iff.mp found
  rw [lost] at follow
  cases follow

/-- A scope that leads nowhere is as good as none. -/
theorem together_unscoped (lost : tree.follow? path.namePath.scope = none) :
    Together tree id
      (requestText type (String.ofList path.text) (insideText inner))
      (requestText type path.namePath.name (insideText inner))
      ((⟨tree⟩ : Aggregations).flatten
        (requestText type (String.ofList path.text) (insideText inner)) options)
      ((⟨tree⟩ : Aggregations).flatten
        (requestText type path.namePath.name (insideText inner)) options) := by
  have here : path.unscoped.namePath.scopeIn tree = tree := rfl
  rw [← path.text_unscoped, flatten_request, flatten_request]
  refine @Aggregations.together_guarded ⟨tree⟩ _ _ _ _ _
    (SubAgg.evaluateAll_fails options _ tree) (SubAgg.evaluateAll_fails options _ tree) ?_
  intro result
  simp only [id, exists_eq_right, evaluateAll_request, scopeIn_of_none lost, here]
  cases inner <;> rfl

end Agreement

/-- Where the scope of a name leads somewhere, or there is none, both ways to ask for it
agree; where it leads nowhere, the reading fails and the request goes on without it. -/
theorem access_agrees_with_request (tree : Json) (type : AggType) (path : Grammar.Path)
    (options : OutputOptions) (within : Option String)
    (parsed : ∀ text ∈ within, ∃ e, Expression.parse text = .ok e) :
    (path.scope = [] ∨ (∃ node, tree.get (Text.dotted path.namePath.scope) = .ok node) →
      Together tree ((type.readAs within).shape.present path.namePath.name)
        (String.ofList path.text) (requestText type (String.ofList path.text) within)
        ((⟨tree⟩ : Aggregations).access (type.readAs within) (String.ofList path.text) options
          within)
        ((⟨tree⟩ : Aggregations).flatten (requestText type (String.ofList path.text) within)
          options)) ∧
    (path.scope ≠ [] → (∀ node, tree.get (Text.dotted path.namePath.scope) ≠ .ok node) →
      (⟨tree⟩ : Aggregations).access type (String.ofList path.text) options within =
          .error (.missing (String.ofList path.text) tree) ∧
        Together tree id (requestText type (String.ofList path.text) within)
          (requestText type path.namePath.name within)
          ((⟨tree⟩ : Aggregations).flatten (requestText type (String.ofList path.text) within)
            options)
          ((⟨tree⟩ : Aggregations).flatten (requestText type path.namePath.name within)
            options)) := by
  obtain ⟨inner, rfl⟩ := Grammar.exists_inner parsed
  constructor
  · intro reached
    obtain ⟨node, follow⟩ := exists_scope reached
    exact agree_of_follow follow
  · intro given nowhere
    have lost : tree.follow? path.namePath.scope = none := by
      refine Option.eq_none_iff_forall_ne_some.mpr ?_
      intro node follow
      exact nowhere node ((get_scope_eq_ok_iff given).mpr follow)
    exact ⟨access_of_no_scope type lost, together_unscoped lost⟩

/-- The hours of a day. -/
def dayHours : Grammar.Path :=
  ⟨[⟨"day".toList, by decide, Grammar.nameChar_of_all (by decide)⟩],
    ⟨"hours".toList, by decide, Grammar.nameChar_of_all (by decide)⟩⟩

theorem agreement_on_day_hours :
    (∀ text ∈ some "load", ∃ e, Expression.parse text = .ok e) ∧
    (let hours : Json := .single "hours" (.single "buckets" (.arr [.single "doc_count" (.nat 4)]))
      let day : Json := .single "day" hours
      Together day (Shape.present .buckets "hours") (String.ofList dayHours.text)
          (requestText .value (String.ofList dayHours.text) (some "load"))
          ((⟨day⟩ : Aggregations).access .terms (String.ofList dayHours.text) {} (some "load"))
          ((⟨day⟩ : Aggregations).flatten
            (requestText .value (String.ofList dayHours.text) (some "load")) {}) ∧
        (⟨hours⟩ : Aggregations).access .value (String.ofList dayHours.text) {} (some "load") =
          .error (.missing (String.ofList dayHours.text) hours)) := by
  have parsed : ∀ text ∈ some "load", ∃ e, Expression.parse text = .ok e := by
    rintro text ⟨⟩
    exact ⟨⟨"load", [.bare .value ⟨[], "load"⟩]⟩, by decide +kernel⟩
  refine ⟨parsed, ?_, ?_⟩
  · exact (access_agrees_with_request _ .value dayHours {} (some "load") parsed).1
      (.inr ⟨_, rfl⟩)
  · refine ((access_agrees_with_request _ .value dayHours {} (some "load") parsed).2
      (List.cons_ne_nil _ _) ?_).1
    intro node found
    cases Json.get_eq_ok_iff.mp found

end AggFlatten
