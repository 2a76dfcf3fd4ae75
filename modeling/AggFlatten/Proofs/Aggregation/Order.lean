import AggFlatten.Proofs.Aggregation.Failures
import AggFlatten.Proofs.Aggregation.Keys

/-! The order of the parts of an expression. What stands under a key is made of the parts
that are shown there, in their order; where these stand among the others only shows in the
order of the keys. -/
namespace AggFlatten

/-- The same parts, those of one key in the same order. -/
structure SubAgg.Reordered (key : SubAgg → String) (subs subs' : List SubAgg) : Prop where
  perm : subs.Perm subs'
  kept : ∀ name, subs.filter (key · = name) = subs'.filter (key · = name)

/-- Two objects with the same keys, and with the same document under each of them. -/
structure Json.SameByKey (members members' : Json.Members) : Prop where
  distinct : (members.map Prod.fst).Nodup
  keys : (members.map Prod.fst).Perm (members'.map Prod.fst)
  values : ∀ key, Json.lookup key members = Json.lookup key members'

/-- Both outcomes are objects that differ in the order of their keys at most, or both report
their own request and the whole tree. -/
inductive SameInAnyOrder (tree : Json) (request request' : String)
    (outcome outcome' : Except AggError Json) : Prop where
  | succeed {members members' : Json.Members} (read : outcome = .ok (.obj members))
      (read' : outcome' = .ok (.obj members')) (same : Json.SameByKey members members') :
      SameInAnyOrder tree request request' outcome outcome'
  | fail (failed : outcome = .error (.missing request tree))
      (failed' : outcome' = .error (.missing request' tree)) :
      SameInAnyOrder tree request request' outcome outcome'

section

variable {key : SubAgg → String} {subs subs' : List SubAgg} {options : OutputOptions} {tree : Json}

namespace SubAgg

/-- Two neighbours of different keys may change places. -/
theorem Reordered.swap {first second : SubAgg} (apart : key first ≠ key second)
    (front rest : List SubAgg) :
    Reordered key (front ++ first :: second :: rest) (front ++ second :: first :: rest) where
  perm := (List.Perm.swap second first rest).append_left front
  kept := by
    intro name
    rw [List.filter_append, List.filter_append, List.filter_cons, List.filter_cons,
      List.filter_cons, List.filter_cons]
    by_cases named : key first = name
    · have other : key second ≠ name := fun same => apart (named.trans same.symm)
      simp [named, other]
    · simp [named]

theorem Reordered.sameByKey (reordered : Reordered key subs subs') (value : SubAgg → Json) :
    Json.SameByKey (Json.mergeMembers [] (subs.map fun sub => (key sub, value sub)))
      (Json.mergeMembers [] (subs'.map fun sub => (key sub, value sub))) where
  distinct := Json.nodup_keys_mergeMembers List.nodup_nil
  keys := by
    have named : ∀ name, name ∈ subs.map key ↔ name ∈ subs'.map key :=
      fun _ => (reordered.perm.map key).mem_iff
    rw [keys_of_values, keys_of_values]
    apply (List.perm_ext_iff_of_nodup (nodup_eraseDups _) (nodup_eraseDups _)).mpr
    intro name
    rw [List.mem_eraseDups, List.mem_eraseDups, named]
  values := by
    intro name
    rw [lookup_of_values, lookup_of_values, reordered.kept]

theorem Reordered.succeeds_iff (reordered : Reordered key subs subs') :
    (∃ result, evaluateAll options subs tree = .ok result) ↔
      ∃ result, evaluateAll options subs' tree = .ok result := by
  simp only [evaluateAll_succeeds_iff, reordered.perm.mem_iff]

theorem Reordered.of_ok (reordered : Reordered key subs subs')
    (keyed : ∀ sub ∈ subs, key sub = sub.shownKey) {result : Json}
    (read : evaluateAll options subs tree = .ok result) :
    ∃ members members', result = .obj members ∧
      evaluateAll options subs' tree = .ok (.obj members') ∧ Json.SameByKey members members' := by
  obtain ⟨value, each, rfl⟩ := exists_values keyed read
  have each' : ∀ sub ∈ subs', sub.evaluate options tree = .ok (.single (key sub) (value sub)) :=
    fun sub member => each sub (reordered.perm.mem_iff.mpr member)
  exact ⟨_, _, rfl, evaluateAll_of_values each', reordered.sameByKey value⟩

end SubAgg

theorem sameInAnyOrder_evaluate {e e' : Expression}
    (reordered : SubAgg.Reordered key e.subs e'.subs)
    (keyed : ∀ sub ∈ e.subs, key sub = sub.shownKey) :
    SameInAnyOrder tree e.source e'.source ((⟨tree⟩ : Aggregations).evaluate e options)
      ((⟨tree⟩ : Aggregations).evaluate e' options) := by
  by_cases succeeds : ∃ result, SubAgg.evaluateAll options e.subs tree = .ok result
  · obtain ⟨result, read⟩ := succeeds
    obtain ⟨members, members', rfl, read', same⟩ := reordered.of_ok keyed read
    exact .succeed (Aggregations.evaluate_eq_ok_iff.mpr read)
      (Aggregations.evaluate_eq_ok_iff.mpr read') same
  · have failed := not_exists.mp succeeds
    have failed' := not_exists.mp (reordered.succeeds_iff.not.mp succeeds)
    exact .fail (Aggregations.guarded_of_failed (SubAgg.evaluateAll_fails options e.subs tree) failed)
      (Aggregations.guarded_of_failed (SubAgg.evaluateAll_fails options e'.subs tree) failed')

end

/-- Parts may change places as long as those of one key keep their order: this holds of any
two expressions, by the keys that their parts are shown under, and so of any two texts. -/
theorem order_matters_under_one_key_only (tree : Json) (options : OutputOptions) :
    (∀ e e' : Expression, SubAgg.Reordered SubAgg.shownKey e.subs e'.subs →
      SameInAnyOrder tree e.source e'.source ((⟨tree⟩ : Aggregations).evaluate e options)
        ((⟨tree⟩ : Aggregations).evaluate e' options)) ∧
    ∀ (text text' : String) (e e' : Expression), Expression.parse text = .ok e →
      Expression.parse text' = .ok e' → SubAgg.Reordered SubAgg.outputKey e.subs e'.subs →
        SameInAnyOrder tree e.source e'.source ((⟨tree⟩ : Aggregations).flatten text options)
          ((⟨tree⟩ : Aggregations).flatten text' options) := by
  constructor
  · intro e e' reordered
    exact sameInAnyOrder_evaluate reordered fun _ _ => rfl
  · intro text text' e e' parsed parsed' reordered
    rw [Aggregations.flatten_of_parse parsed, Aggregations.flatten_of_parse parsed']
    exact sameInAnyOrder_evaluate reordered (SubAgg.outputKeys_eq (plain_of_parse parsed))

theorem load_changes_places_with_days :
    Expression.parse "load terms:day days[load]" =
        .ok ⟨"load terms:day days[load]", dayAndDaysParts⟩ ∧
      Expression.parse "terms:day load days[load]" =
        .ok ⟨"terms:day load days[load]", [.bare .terms ⟨[], "day"⟩, .bare .value ⟨[], "load"⟩,
          .bracketed .value ⟨[], "days"⟩ "load" [.bare .value ⟨[], "load"⟩]]⟩ ∧
      SameInAnyOrder dayAndDays "load terms:day days[load]" "terms:day load days[load]"
        ((⟨dayAndDays⟩ : Aggregations).flatten "load terms:day days[load]" {})
        ((⟨dayAndDays⟩ : Aggregations).flatten "terms:day load days[load]" {}) := by
  have parsed : Expression.parse "load terms:day days[load]" =
      .ok ⟨"load terms:day days[load]", dayAndDaysParts⟩ := by
    decide +kernel
  have parsed' : Expression.parse "terms:day load days[load]" =
      .ok ⟨"terms:day load days[load]", [.bare .terms ⟨[], "day"⟩, .bare .value ⟨[], "load"⟩,
        .bracketed .value ⟨[], "days"⟩ "load" [.bare .value ⟨[], "load"⟩]]⟩ := by
    decide +kernel
  refine ⟨parsed, parsed', ?_⟩
  exact (order_matters_under_one_key_only dayAndDays {}).2 _ _ _ _ parsed parsed'
    (.swap (by decide +kernel) [] _)

/-- The records of the day and of the days are one list, and their order is that of the parts. -/
example : (⟨dayAndDays⟩ : Aggregations).flatten "days[load] terms:day" {} ≠
    (⟨dayAndDays⟩ : Aggregations).flatten "terms:day days[load]" {} := by
  decide +kernel

end AggFlatten
