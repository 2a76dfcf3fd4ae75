import AggFlatten.Proofs.Aggregation.Failures
import AggFlatten.Proofs.Aggregation.Locality

/-! What the options of a request decide. They shape what is yielded and have no say in whether
anything is: a name for counts shows in records alone, and the choice of a list in tables that
stand without brackets. -/
namespace AggFlatten

open Text (lastSegment)
open Outcome (FailAlike)

namespace Json

/-- The key and the value that a row of a table tells. -/
def entry? : Json → Option (String × Json)
  | .obj members =>
    match lookup "key" members, lookup "value" members with
    | some (.str key), some value => some (key, value)
    | _, _ => none
  | _ => none

/-- The rows tell every member of a table, each a key and a value and in the order of the
members, so that the table can be made of them again. -/
structure Tabulates (rows : List Json) (members : Members) : Prop where
  length : rows.length = members.length
  row : ∀ (i : Nat) (key : String) (value : Json), members[i]? = some (key, value) →
    rows[i]? = some (.obj [("key", .str key), ("value", value)])
  rebuilds : rows.mapM entry? = some members

theorem tabulates_map_pair (members : Members) : Tabulates (members.map Evaluation.pair) members where
  length := List.length_map _
  row := by
    intro i key value found
    rw [List.getElem?_map, found]
    rfl
  rebuilds := by
    induction members with
    | nil => rfl
    | cons member members ih =>
      rw [List.map_cons, List.mapM_cons, ih]
      rfl

end Json

/-- A part with a record per bucket: of a type for buckets, or of any that is not counted if
there are brackets. -/
def SubAgg.Listed (sub : SubAgg) : Prop :=
  sub.type.shape = .buckets ∨ sub.type.shape ≠ .count ∧ sub.nested? ≠ none

/-- A table of numbers, without brackets. -/
def SubAgg.Tabled (sub : SubAgg) : Prop :=
  sub.type.shape = .multiValue ∧ sub.nested? = none

instance (sub : SubAgg) : Decidable sub.Listed :=
  inferInstanceAs (Decidable (_ ∨ _))

instance (sub : SubAgg) : Decidable sub.Tabled :=
  inferInstanceAs (Decidable (_ ∧ _))

/-- The options agree on whatever shows in a part of this shape. -/
def OutputOptions.AgreeOn (options options' : OutputOptions) : Shape → Prop
  | .buckets => options.countField = options'.countField
  | .multiValue => options.asArray = options'.asArray
  | .count | .value => True

section Failures

variable {options options' : OutputOptions} {inside inside' : Inside}

namespace Evaluation

theorem record_failAlike (within : ∀ node, FailAlike (inside node) (inside' node))
    (keyField : String) (bucket : Bucket) :
    FailAlike (record options inside keyField bucket) (record options' inside' keyField bucket) := by
  apply FailAlike.bind_same
  intro count
  apply (within bucket.node).bind
  -- The name of the count enters here, when nothing is left that could fail.
  intro nested nested'
  exact .ok _ _

theorem ofShape_failAlike (within : ∀ node, FailAlike (inside node) (inside' node)) (shape : Shape)
    (node : Json) (path : String) :
    FailAlike (ofShape options shape inside node path) (ofShape options' shape inside' node path) := by
  cases shape with
  | count =>
    apply FailAlike.bind_same
    intro child
    apply FailAlike.bind_same
    intro count
    apply (within child).bind
    intro nested nested'
    exact .ok _ _
  | value => exact .refl _
  | buckets =>
    apply FailAlike.bind_same
    intro child
    apply FailAlike.bind_same
    intro buckets
    apply (FailAlike.mapM (record_failAlike within _) buckets).bind
    intro rows rows'
    exact .ok _ _
  | multiValue =>
    apply FailAlike.bind_same
    intro child
    apply FailAlike.bind_same
    intro values
    exact .ok _ _

end Evaluation

namespace SubAgg

theorem evaluate_failAlike_of_inside (sub : SubAgg)
    (within : ∀ node, FailAlike (sub.inside options node) (sub.inside options' node)) (node : Json) :
    FailAlike (sub.evaluate options node) (sub.evaluate options' node) := by
  rw [evaluate_eq, evaluate_eq, Evaluation.ofPart_eq_map, Evaluation.ofPart_eq_map]
  exact (Evaluation.ofShape_failAlike within _ _ _).map _ _

mutual

theorem evaluate_failAlike (options options' : OutputOptions) : (sub : SubAgg) → (node : Json) →
    FailAlike (sub.evaluate options node) (sub.evaluate options' node)
  | .bare type path, node => by
    apply evaluate_failAlike_of_inside (.bare type path)
    intro inner
    exact .refl _
  | .bracketed type path source body, node => by
    apply evaluate_failAlike_of_inside (.bracketed type path source body)
    intro inner
    exact (evaluateEach_failAlike options options' body inner).map _ _

theorem evaluateEach_failAlike (options options' : OutputOptions) : (subs : List SubAgg) →
    (node : Json) → FailAlike (evaluateEach options node subs) (evaluateEach options' node subs)
  | [], _ => .refl _
  | sub :: subs, node => by
    apply (evaluate_failAlike options options' sub node).bind
    intro first first'
    apply (evaluateEach_failAlike options options' subs node).bind
    intro rest rest'
    exact .ok _ _

end

theorem evaluateAll_failAlike (options options' : OutputOptions) (subs : List SubAgg)
    (node : Json) : FailAlike (evaluateAll options subs node) (evaluateAll options' subs node) :=
  (evaluateEach_failAlike options options' subs node).map _ _

end SubAgg

namespace Aggregations

variable (aggs : Aggregations) (options options' : OutputOptions)

theorem flatten_failAlike (text : String) :
    FailAlike (aggs.flatten text options) (aggs.flatten text options') := by
  apply FailAlike.bind_same
  intro e
  exact (SubAgg.evaluateAll_failAlike options options' e.subs aggs.root).mapError _

theorem access_failAlike (type : AggType) (path : String) (within : Option String) :
    FailAlike (aggs.access type path options within) (aggs.access type path options' within) := by
  cases within with
  | none => exact (Evaluation.ofShape_failAlike (fun _ => .refl _) _ _ _).mapError _
  | some text =>
    cases read : Expression.parse text with
    | error cause =>
      rw [access_of_malformed type read, access_of_malformed type read]
      exact .refl _
    | ok e =>
      rw [access_of_parse type read, access_of_parse type read]
      have within := SubAgg.evaluateAll_failAlike options options' e.subs
      exact (Evaluation.ofShape_failAlike within _ _ _).mapError _

end Aggregations

end Failures

namespace SubAgg

variable {subs : List SubAgg} {options options' : OutputOptions}

theorem listed_iff {sub : SubAgg} : sub.Listed ↔ sub.shape = .buckets := by
  cases sub with
  | bare kind path => simp [Listed, SubAgg.type, nested?, shape]
  | bracketed kind path source body =>
    simp only [Listed, SubAgg.type, shape]
    cases kind.shape <;> simp [Shape.inBrackets, nested?]

theorem tabled_iff {sub : SubAgg} : sub.Tabled ↔ sub.shape = .multiValue := by
  cases sub with
  | bare kind path => simp [Tabled, SubAgg.type, nested?, shape]
  | bracketed kind path source body =>
    simp only [Tabled, SubAgg.type, shape]
    cases kind.shape <;> simp [Shape.inBrackets, nested?]

theorem agreeOn_of_not_listed {sub : SubAgg} (unlisted : ¬sub.Listed)
    (countField countField' : String) (asArray : Bool) :
    OutputOptions.AgreeOn ⟨countField, asArray⟩ ⟨countField', asArray⟩ sub.shape := by
  cases shape : sub.shape with
  | buckets => exact absurd (listed_iff.mpr shape) unlisted
  | multiValue => rfl
  | count | value => trivial

theorem agreeOn_of_not_tabled {sub : SubAgg} (untabled : ¬sub.Tabled) (countField : String)
    (asArray asArray' : Bool) :
    OutputOptions.AgreeOn ⟨countField, asArray⟩ ⟨countField, asArray'⟩ sub.shape := by
  cases shape : sub.shape with
  | multiValue => exact absurd (tabled_iff.mpr shape) untabled
  | buckets => rfl
  | count | value => trivial

theorem ofShape_of_agreeOn {shape : Shape} (agree : options.AgreeOn options' shape)
    (inside : Inside) (node : Json) (path : String) :
    Evaluation.ofShape options shape inside node path =
      Evaluation.ofShape options' shape inside node path := by
  obtain ⟨countField, asArray⟩ := options
  obtain ⟨countField', asArray'⟩ := options'
  cases shape with
  | count | value => rfl
  | buckets =>
    obtain rfl : countField = countField' := agree
    rfl
  | multiValue =>
    obtain rfl : asArray = asArray' := agree
    rfl

theorem evaluate_of_agreeOn_of_inside {sub : SubAgg} (agree : options.AgreeOn options' sub.shape)
    (inner : sub.inside options = sub.inside options') (node : Json) :
    sub.evaluate options node = sub.evaluate options' node := by
  rw [evaluate_eq, evaluate_eq, Evaluation.ofPart_eq_map, Evaluation.ofPart_eq_map, inner,
    ofShape_of_agreeOn agree]

mutual

/-- Options that differ in nothing that any part shows, however deep, cannot be told apart. -/
theorem evaluate_of_agreeOn (agree : ∀ sub, Occurs sub subs → options.AgreeOn options' sub.shape) :
    (sub : SubAgg) → Occurs sub subs → ∀ node, sub.evaluate options node = sub.evaluate options' node
  | .bare _ _, occurs, node => evaluate_of_agreeOn_of_inside (agree _ occurs) rfl node
  | .bracketed type path source body, occurs, node => by
    apply evaluate_of_agreeOn_of_inside (agree _ occurs)
    funext inner
    simp only [inside, evaluateAll]
    rw [evaluateEach_of_agreeOn agree body (fun _ member => occurs.of_body member)]

theorem evaluateEach_of_agreeOn
    (agree : ∀ sub, Occurs sub subs → options.AgreeOn options' sub.shape) :
    (body : List SubAgg) → (∀ sub ∈ body, Occurs sub subs) →
      ∀ node, evaluateEach options node body = evaluateEach options' node body
  | [], _, _ => rfl
  | sub :: body, occurs, node => by
    obtain ⟨first, rest⟩ := List.forall_mem_cons.mp occurs
    rw [evaluateEach, evaluateEach, evaluate_of_agreeOn agree sub first node,
      evaluateEach_of_agreeOn agree body rest node]

end

end SubAgg

theorem Aggregations.flatten_of_agreeOn {options options' : OutputOptions} (aggs : Aggregations)
    {text : String} (agree : ∀ e, Expression.parse text = .ok e →
      ∀ sub, SubAgg.Occurs sub e.subs → options.AgreeOn options' sub.shape) :
    aggs.flatten text options = aggs.flatten text options' := by
  cases read : Expression.parse text with
  | error cause => rw [flatten_of_malformed read, flatten_of_malformed read]
  | ok e =>
    rw [flatten_of_parse read, flatten_of_parse read, evaluate, evaluate, SubAgg.evaluateAll,
      SubAgg.evaluateAll,
      SubAgg.evaluateEach_of_agreeOn (agree e read) e.subs (fun _ => .here) aggs.root]

/-- The two outcomes of a table that is there: the table as it stands, and its rows if it has
keys. -/
structure ShowsTable (name : String) (values : Json) (plain listed : Except AggError Json) :
    Prop where
  plain_eq : plain = .ok (.single name values)
  as_rows : ∀ members, values = .obj members →
    ∃ rows, listed = .ok (.single name (.arr rows)) ∧ Json.Tabulates rows members
  as_is : (∀ members, values ≠ .obj members) → listed = plain

section Tables

variable {node child values : Json} {path : String}

theorem showsTable_ofShape (found : node.get path = .ok child) (held : child.values = .ok values)
    (countField countField' : String) (inside inside' : Inside) :
    ShowsTable (lastSegment path) values
      (Evaluation.ofShape ⟨countField, false⟩ .multiValue inside node path)
      (Evaluation.ofShape ⟨countField', true⟩ .multiValue inside' node path) := by
  have shown (options : OutputOptions) (inside : Inside) :
      Evaluation.ofShape options .multiValue inside node path =
        .ok (.single (lastSegment path) (Evaluation.shapedTable options values)) :=
    Evaluation.multiValueObject_eq_ok_iff.mpr ⟨child, values, found, held, rfl⟩
  rw [shown, shown]
  cases values with
  | obj members =>
    refine ⟨rfl, ?_, fun other => absurd rfl (other members)⟩
    intro members' same
    obtain rfl := Json.obj.inj same
    exact ⟨_, rfl, Json.tabulates_map_pair members⟩
  | null | bool _ | num _ | str _ | arr _ => exact ⟨rfl, nofun, fun _ => rfl⟩

theorem ShowsTable.guarded {name : String} {plain listed : Except AggError Json}
    (shows : ShowsTable name values plain listed) (aggs : Aggregations) (request : String) :
    ShowsTable name values (aggs.guarded request plain) (aggs.guarded request listed) where
  plain_eq := Aggregations.guarded_eq_ok_iff.mpr shows.plain_eq
  as_rows members same := by
    obtain ⟨rows, listed, tabulates⟩ := shows.as_rows members same
    exact ⟨rows, Aggregations.guarded_eq_ok_iff.mpr listed, tabulates⟩
  as_is other := congrArg _ (shows.as_is other)

theorem Aggregations.showsTable_access (aggs : Aggregations) {type : AggType}
    {within : Option String} (table : type.shape = .multiValue)
    (well_formed : ∀ text, within = some text → ∃ e, Expression.parse text = .ok e)
    (found : aggs.root.get path = .ok child) (held : child.values = .ok values)
    (countField countField' : String) :
    ShowsTable (lastSegment path) values (aggs.access type path ⟨countField, false⟩ within)
      (aggs.access type path ⟨countField', true⟩ within) := by
  cases within with
  | none =>
    rw [access_none, access_none, table]
    exact (showsTable_ofShape found held countField countField' _ _).guarded aggs path
  | some text =>
    obtain ⟨e, parsed⟩ := well_formed text rfl
    rw [access_of_parse type parsed, access_of_parse type parsed, table]
    exact (showsTable_ofShape found held countField countField' _ _).guarded aggs path

theorem SubAgg.showsTable_evaluate (sub : SubAgg) (tabled : sub.Tabled)
    (leads : sub.path.Leads node child) (held : child.values = .ok values)
    (countField countField' : String) :
    ShowsTable (lastSegment sub.path.name) values (sub.evaluate ⟨countField, false⟩ node)
      (sub.evaluate ⟨countField', true⟩ node) := by
  have part (options : OutputOptions) : sub.evaluate options node =
      Evaluation.ofShape options .multiValue (sub.inside options) (sub.path.scopeIn node)
        sub.path.name := by
    rw [evaluate_eq, SubAgg.tabled_iff.mp tabled]
    exact bind_pure _
  rw [part, part]
  exact showsTable_ofShape leads held countField countField' _ _

end Tables

/-- The options shape what is yielded and nothing else: no options make a request fail or save
it from the failure, the name for counts shows in records alone and the choice of a list in
tables alone, and the rows of a table tell all of it. -/
theorem options_shape_results_only (aggs : Aggregations) :
    (∀ (text : String) (options options' : OutputOptions),
      ((∃ result, aggs.flatten text options = .ok result) ↔
        ∃ result, aggs.flatten text options' = .ok result) ∧
      ∀ e, aggs.flatten text options = .error e ↔ aggs.flatten text options' = .error e) ∧
    (∀ (type : AggType) (path : String) (within : Option String) (options options' : OutputOptions),
      ((∃ result, aggs.access type path options within = .ok result) ↔
        ∃ result, aggs.access type path options' within = .ok result) ∧
      ∀ e, aggs.access type path options within = .error e ↔
        aggs.access type path options' within = .error e) ∧
    (∀ (text countField countField' : String) (asArray : Bool),
      (∀ e, Expression.parse text = .ok e → ∀ sub, SubAgg.Occurs sub e.subs → ¬sub.Listed) →
        aggs.flatten text ⟨countField, asArray⟩ = aggs.flatten text ⟨countField', asArray⟩) ∧
    (∀ (text countField : String) (asArray asArray' : Bool),
      (∀ e, Expression.parse text = .ok e → ∀ sub, SubAgg.Occurs sub e.subs → ¬sub.Tabled) →
        aggs.flatten text ⟨countField, asArray⟩ = aggs.flatten text ⟨countField, asArray'⟩) ∧
    (∀ (type : AggType) (path : String) (within : Option String) (child values : Json),
      type.shape = .multiValue →
      (∀ text, within = some text → ∃ e, Expression.parse text = .ok e) →
      aggs.root.get path = .ok child → child.values = .ok values →
        ∀ countField countField' : String, ShowsTable (lastSegment path) values
          (aggs.access type path ⟨countField, false⟩ within)
          (aggs.access type path ⟨countField', true⟩ within)) ∧
    ∀ (sub : SubAgg) (node child values : Json), sub.Tabled → sub.path.Leads node child →
      child.values = .ok values →
        ∀ countField countField' : String, ShowsTable (lastSegment sub.path.name) values
          (sub.evaluate ⟨countField, false⟩ node) (sub.evaluate ⟨countField', true⟩ node) := by
  refine ⟨?_, ?_, ?_, ?_, ?_, ?_⟩
  · intro text options options'
    have alike := aggs.flatten_failAlike options options' text
    exact ⟨alike.succeeds_iff, alike⟩
  · intro type path within options options'
    have alike := aggs.access_failAlike options options' type path within
    exact ⟨alike.succeeds_iff, alike⟩
  · intro text countField countField' asArray unlisted
    apply aggs.flatten_of_agreeOn
    intro e read sub occurs
    exact SubAgg.agreeOn_of_not_listed (unlisted e read sub occurs) _ _ _
  · intro text countField asArray asArray' untabled
    apply aggs.flatten_of_agreeOn
    intro e read sub occurs
    exact SubAgg.agreeOn_of_not_tabled (untabled e read sub occurs) _ _ _
  · intro type path within child values table well_formed found held countField countField'
    exact aggs.showsTable_access table well_formed found held countField countField'
  · intro sub node child values tabled leads held countField countField'
    exact sub.showsTable_evaluate tabled leads held countField countField'

def latencies : Json :=
  .obj [("50", .nat 3), ("95", .nat 9)]

/-- A site with a table of its latencies. -/
def siteLatencies : Json :=
  .single "site" (.obj [("doc_count", .nat 4), ("latency", .single "values" latencies)])

theorem latencies_of_a_site_are_listed :
    (∀ e, (⟨siteLatencies⟩ : Aggregations).flatten "site[latency]" {} = .error e ↔
        (⟨siteLatencies⟩ : Aggregations).flatten "site[latency]" ⟨"docs", true⟩ = .error e) ∧
      Expression.parse "count:site[percentiles:latency]" =
        .ok ⟨"count:site[percentiles:latency]", [.bracketed .count ⟨[], "site"⟩
          "percentiles:latency" [.bare .percentiles ⟨[], "latency"⟩]]⟩ ∧
      (⟨siteLatencies⟩ : Aggregations).flatten "count:site[percentiles:latency]" ⟨"docs", true⟩ =
        (⟨siteLatencies⟩ : Aggregations).flatten "count:site[percentiles:latency]" ⟨"n", true⟩ ∧
      Expression.parse "count:site" = .ok ⟨"count:site", [.bare .count ⟨[], "site"⟩]⟩ ∧
      (⟨siteLatencies⟩ : Aggregations).flatten "count:site" ⟨"docs", false⟩ =
        (⟨siteLatencies⟩ : Aggregations).flatten "count:site" ⟨"docs", true⟩ ∧
      ShowsTable "latency" latencies
        ((⟨siteLatencies⟩ : Aggregations).access .percentiles "site.latency" {} none)
        ((⟨siteLatencies⟩ : Aggregations).access .percentiles "site.latency" ⟨"count", true⟩ none) ∧
      ShowsTable "latency" latencies
        (SubAgg.evaluate {} siteLatencies (.bare .percentiles ⟨["site"], "latency"⟩))
        (SubAgg.evaluate ⟨"count", true⟩ siteLatencies
          (.bare .percentiles ⟨["site"], "latency"⟩)) := by
  obtain ⟨alike, _, unlisted, untabled, accessed, evaluated⟩ :=
    options_shape_results_only ⟨siteLatencies⟩
  have parsed : Expression.parse "count:site[percentiles:latency]" =
      .ok ⟨"count:site[percentiles:latency]", [.bracketed .count ⟨[], "site"⟩
        "percentiles:latency" [.bare .percentiles ⟨[], "latency"⟩]]⟩ := by
    decide +kernel
  have parsed' : Expression.parse "count:site" =
      .ok ⟨"count:site", [.bare .count ⟨[], "site"⟩]⟩ := by
    decide +kernel
  refine ⟨(alike _ _ _).2, parsed, ?_, parsed', ?_, ?_, ?_⟩
  · apply unlisted
    intro e read sub occurs
    obtain rfl := Except.ok.inj (parsed.symm.trans read)
    rcases SubAgg.occurs_bracketed_iff.mp occurs with rfl | occurs
    · decide
    · rw [SubAgg.occurs_bare_iff.mp occurs]
      decide
  · apply untabled
    intro e read sub occurs
    obtain rfl := Except.ok.inj (parsed'.symm.trans read)
    rw [SubAgg.occurs_bare_iff.mp occurs]
    decide
  · exact accessed .percentiles "site.latency" none (.single "values" latencies) latencies rfl
      nofun (by decide +kernel) (by decide +kernel) "count" "count"
  · have leads : NamePath.Leads ⟨["site"], "latency"⟩ siteLatencies (.single "values" latencies) := by
      unfold NamePath.Leads
      decide +kernel
    exact evaluated (.bare .percentiles ⟨["site"], "latency"⟩) siteLatencies _ latencies ⟨rfl, rfl⟩
      leads (by decide +kernel) "count" "count"

/-- Each row of the list tells one latency. -/
example : (⟨siteLatencies⟩ : Aggregations).access .percentiles "site.latency" ⟨"count", true⟩ none =
    .ok (.single "latency" (.arr [.obj [("key", .str "50"), ("value", .nat 3)],
      .obj [("key", .str "95"), ("value", .nat 9)]])) := by
  decide +kernel

end AggFlatten
