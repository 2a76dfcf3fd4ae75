import AggFlatten.Proofs.Aggregation.Outcomes
import AggFlatten.Proofs.Expression.Request
import AggFlatten.Proofs.Json.Merge
import Mathlib.Tactic.Choose

/-! What an expression yields, key by key. Every part stands under one key, the keys come in
the order of the parts, and parts of one key are merged in their order. -/
namespace AggFlatten

open Text (lastSegment)

namespace SubAgg

/-- The key under which a part stands: its name as it is written, or the plural of the name
where the part becomes a list of records. -/
def outputKey (sub : SubAgg) : String :=
  match sub.type.shape, sub.nested? with
  | .count, _ | .value, none | .multiValue, none => sub.path.name
  | _, _ => pluralize sub.path.name

/-- The key of what a part yields, also where its name is not a single segment. -/
def shownKey (sub : SubAgg) : String :=
  sub.shape.keyOf sub.path.name

theorem outputKey_eq {sub : SubAgg} (plain : lastSegment sub.path.name = sub.path.name) :
    sub.outputKey = sub.shownKey := by
  rw [shownKey]
  cases sub with
  | bare kind path =>
    simp only [outputKey, nested?, shape, type] at plain ⊢
    cases kind.shape <;> simp [Shape.keyOf, plain]
  | bracketed kind path source body =>
    simp only [outputKey, nested?, shape, type] at plain ⊢
    cases kind.shape <;> simp [Shape.keyOf, Shape.inBrackets, plain]

theorem outputKeys_eq {subs : List SubAgg}
    (plain : ∀ sub ∈ subs, lastSegment sub.path.name = sub.path.name) :
    ∀ sub ∈ subs, sub.outputKey = sub.shownKey :=
  fun sub member => outputKey_eq (plain sub member)

end SubAgg

/-- The outcome is an object with the keys of the parts, each where it first comes up, and
under each key the values of exactly the parts that stand there, merged in their order; where
all of these are lists of records, the lists are joined. -/
structure KeyByKey (options : OutputOptions) (node : Json) (subs : List SubAgg)
    (outcome : Except AggError Json) : Prop where
  succeeds_iff : (∃ result, outcome = .ok result) ↔
    ∀ sub ∈ subs, ∃ found, sub.evaluate options node = .ok found
  yields : ∀ {result}, outcome = .ok result → ∃ (members : Json.Members) (value : SubAgg → Json),
    result = .obj members ∧ members.map Prod.fst = (subs.map SubAgg.outputKey).eraseDups ∧
      (∀ sub ∈ subs, sub.evaluate options node = .ok (.single sub.outputKey (value sub))) ∧
      ∀ key, Json.lookup key members =
        Json.mergeRun? ((subs.filter (·.outputKey = key)).map value)
  joins : ∀ {members : Json.Members} {key : String}, outcome = .ok (.obj members) →
    key ∈ members.map Prod.fst → (∀ sub ∈ subs, sub.outputKey = key → sub.shape = .buckets) →
      ∃ rows : SubAgg → List Json,
        (∀ sub ∈ subs, sub.outputKey = key →
          sub.evaluate options node = .ok (.single key (.arr (rows sub)))) ∧
        Json.lookup key members = some (.arr ((subs.filter (·.outputKey = key)).flatMap rows))

/-- What is read inside a name has keys of its own first: a record the singular of the name
and the count, an object of a count the count. The keys of the expression inside follow. -/
def Shape.InsideKeys (options : OutputOptions) (name : String) (subs : List SubAgg)
    (found : Json) : Shape → Prop
  | .count => ∃ inner : Json, found = .single name inner ∧
      inner.HasKeys ("count" :: subs.map SubAgg.outputKey).eraseDups
  | .buckets => ∃ rows, found = .arr rows ∧ ∀ row ∈ rows, row.HasKeys
      (singularize name :: options.countField :: subs.map SubAgg.outputKey).eraseDups
  | .value | .multiValue => True

section

variable {options : OutputOptions} {node result : Json} {subs : List SubAgg}

namespace SubAgg

theorem exists_value {sub : SubAgg} (read : sub.evaluate options node = .ok result) :
    ∃ value, result = .single sub.shownKey value := by
  rw [evaluate_eq] at read
  obtain ⟨value, rfl⟩ := Evaluation.exists_single_of_ofPart read
  exact ⟨value, rfl⟩

/-- A part that becomes a list of records yields that list. -/
theorem exists_rows {sub : SubAgg} (buckets : sub.shape = .buckets)
    (read : sub.evaluate options node = .ok result) :
    ∃ rows, result = .single (pluralize sub.path.name) (.arr rows) := by
  obtain ⟨found, inner, rfl⟩ := evaluate_eq_ok_iff.mp read
  rw [buckets] at inner ⊢
  obtain ⟨_, _, rows, _, _, _, rfl⟩ := Evaluation.records_eq_ok_iff.mp inner
  exact ⟨rows, rfl⟩

theorem evaluateAll_succeeds_iff : (∃ result, evaluateAll options subs node = .ok result) ↔
    ∀ sub ∈ subs, ∃ found, sub.evaluate options node = .ok found := by
  rw [← Outcome.exists_forall₂_iff]
  simp only [evaluateAll_eq_ok_iff]
  constructor
  · rintro ⟨_, results, each, rfl⟩
    exact ⟨results, each⟩
  · rintro ⟨results, each⟩
    exact ⟨_, results, each, rfl⟩

/-- The values of the parts, each under its key, are merged into the empty object. -/
theorem evaluateAll_of_values {key : SubAgg → String} {value : SubAgg → Json}
    (each : ∀ sub ∈ subs, sub.evaluate options node = .ok (.single (key sub) (value sub))) :
    evaluateAll options subs node =
      .ok (.obj (Json.mergeMembers [] (subs.map fun sub => (key sub, value sub)))) := by
  refine evaluateAll_eq_ok_iff.mpr
    ⟨subs.map fun sub => .single (key sub) (value sub), ?_, ?_⟩
  · rw [List.forall₂_map_right_iff, List.forall₂_same]
    exact each
  · have merged := Json.foldl_merge_single [] (subs.map fun sub => (key sub, value sub))
    rwa [List.map_map] at merged

theorem exists_values {key : SubAgg → String} (keyed : ∀ sub ∈ subs, key sub = sub.shownKey)
    (read : evaluateAll options subs node = .ok result) :
    ∃ value : SubAgg → Json,
      (∀ sub ∈ subs, sub.evaluate options node = .ok (.single (key sub) (value sub))) ∧
      result = .obj (Json.mergeMembers [] (subs.map fun sub => (key sub, value sub))) := by
  have each : ∀ sub ∈ subs, ∃ value,
      sub.evaluate options node = .ok (.single (key sub) value) := by
    intro sub member
    obtain ⟨found, read⟩ := evaluateAll_succeeds_iff.mp ⟨result, read⟩ sub member
    obtain ⟨value, rfl⟩ := exists_value read
    exact ⟨value, by rw [keyed sub member, read]⟩
  choose! value each using each
  exact ⟨value, each, Except.ok.inj (read.symm.trans (evaluateAll_of_values each))⟩

theorem keys_of_values (key : SubAgg → String) (value : SubAgg → Json) (subs : List SubAgg) :
    (Json.mergeMembers [] (subs.map fun sub => (key sub, value sub))).map Prod.fst =
      (subs.map key).eraseDups := by
  simp [Json.keys_mergeMembers, Function.comp_def]

theorem lookup_of_values (key : SubAgg → String) (value : SubAgg → Json) (subs : List SubAgg)
    (name : String) :
    Json.lookup name (Json.mergeMembers [] (subs.map fun sub => (key sub, value sub))) =
      Json.mergeRun? ((subs.filter (key · = name)).map value) := by
  rw [Json.lookup_mergeMembers, Json.valuesAt_map]
  rfl

theorem keyByKey_evaluateAll (plain : ∀ sub ∈ subs, lastSegment sub.path.name = sub.path.name) :
    KeyByKey options node subs (evaluateAll options subs node) where
  succeeds_iff := evaluateAll_succeeds_iff
  yields := by
    intro result read
    obtain ⟨value, each, rfl⟩ := exists_values (outputKeys_eq plain) read
    exact ⟨_, value, rfl, keys_of_values outputKey value subs, each,
      lookup_of_values outputKey value subs⟩
  joins := by
    intro members key read present lists
    obtain ⟨value, each, same⟩ := exists_values (outputKeys_eq plain) read
    obtain rfl := Json.obj.inj same
    have rows : ∀ sub ∈ subs, sub.outputKey = key → ∃ rows, value sub = .arr rows := by
      intro sub member under
      obtain ⟨rows, shown⟩ := exists_rows (lists sub member under) (each sub member)
      simp only [Json.single, Json.obj.injEq, List.cons.injEq, Prod.mk.injEq] at shown
      exact ⟨rows, shown.1.2⟩
    choose! rows rows_eq using rows
    refine ⟨rows, ?_, ?_⟩
    · intro sub member under
      rw [each sub member, rows_eq sub member under, under]
    · have values : (subs.filter (·.outputKey = key)).map value =
          ((subs.filter (·.outputKey = key)).map rows).map .arr := by
        rw [List.map_map]
        apply List.map_congr_left
        intro sub chosen
        obtain ⟨member, under⟩ := List.mem_filter.mp chosen
        exact rows_eq sub member (of_decide_eq_true under)
      have some' : (subs.filter (·.outputKey = key)).map rows ≠ [] := by
        rw [keys_of_values, List.mem_eraseDups, List.mem_map] at present
        obtain ⟨sub, member, under⟩ := present
        simpa using ⟨sub, member, under⟩
      rw [lookup_of_values, values, Json.mergeRun?_arr some', List.flatMap_def]

theorem evaluateAll_hasKeys (plain : ∀ sub ∈ subs, lastSegment sub.path.name = sub.path.name)
    (read : evaluateAll options subs node = .ok result) :
    result.HasKeys (subs.map outputKey).eraseDups := by
  obtain ⟨value, _, rfl⟩ := exists_values (outputKeys_eq plain) read
  exact ⟨_, rfl, keys_of_values outputKey value subs⟩

end SubAgg

namespace Evaluation

theorem plainRecord_hasKeys (options : OutputOptions) (keyField : String) (bucket : Bucket)
    (count : Json) : (plainRecord options keyField bucket count).HasKeys
      [keyField, options.countField].eraseDups := by
  refine ⟨_, rfl, ?_⟩
  rw [Json.keys_put]
  by_cases same : options.countField = keyField
  · simp [same, List.eraseDups_cons]
  · simp [same, List.eraseDups_cons]

/-- The keys of an expression come behind those of what it is merged into. -/
theorem merge_hasKeys {base : Json} {names : List String}
    (plain : ∀ sub ∈ subs, lastSegment sub.path.name = sub.path.name)
    (shown : base.HasKeys names.eraseDups)
    (read : SubAgg.evaluateAll options subs node = .ok result) :
    (base.merge result).HasKeys (names ++ subs.map SubAgg.outputKey).eraseDups := by
  have merged := shown.merge (nodup_eraseDups names) (SubAgg.evaluateAll_hasKeys plain read)
  rwa [eraseDups_append_eraseDups, eraseDups_eraseDups_append] at merged

theorem insideKeys_ofShape {shape : Shape} {path : String}
    (plain : ∀ sub ∈ subs, lastSegment sub.path.name = sub.path.name)
    (read : ofShape options shape (SubAgg.evaluateAll options subs) node path = .ok result) :
    shape.InsideKeys options (lastSegment path) subs result := by
  cases shape with
  | count =>
    obtain ⟨child, count, nested, _, _, yields, rfl⟩ := countObject_eq_ok_iff.mp read
    have counted : (Json.single "count" count).HasKeys ["count"].eraseDups :=
      ⟨_, rfl, by simp [List.eraseDups_cons]⟩
    have merged := merge_hasKeys plain counted yields
    exact ⟨_, rfl, by simpa only [List.cons_append, List.nil_append] using merged⟩
  | buckets =>
    obtain ⟨child, buckets, rows, _, _, filled, rfl⟩ := records_eq_ok_iff.mp read
    refine ⟨rows, rfl, ?_⟩
    intro row member
    obtain ⟨bucket, _, recorded⟩ := Outcome.exists_of_forall₂_right filled member
    obtain ⟨count, nested, _, yields, rfl⟩ := record_eq_ok_iff.mp recorded
    have shown := plainRecord_hasKeys options (singularize (lastSegment path)) bucket count
    have merged := merge_hasKeys plain shown yields
    simpa only [List.cons_append, List.nil_append] using merged
  | value | multiValue => trivial

end Evaluation

end

section

variable {options : OutputOptions} {text : String} {e : Expression}

theorem plain_of_parse (parsed : Expression.parse text = .ok e) :
    ∀ sub ∈ e.subs, lastSegment sub.path.name = sub.path.name :=
  fun _ member => Expression.lastSegment_of_occurs parsed (.here member)

theorem keyByKey_flatten (parsed : Expression.parse text = .ok e) (tree : Json) :
    KeyByKey options tree e.subs ((⟨tree⟩ : Aggregations).flatten text options) := by
  have each : KeyByKey options tree e.subs (SubAgg.evaluateAll options e.subs tree) :=
    SubAgg.keyByKey_evaluateAll (plain_of_parse parsed)
  constructor
  · simpa only [Aggregations.flatten_eq_ok_iff parsed] using each.succeeds_iff
  · simpa only [Aggregations.flatten_eq_ok_iff parsed] using @each.yields
  · simpa only [Aggregations.flatten_eq_ok_iff parsed] using @each.joins

end

/-- An expression succeeds if each of its parts does, and yields what they yield key by key,
in brackets as well as outside; behind the keys that a record or a count has of its own come
those of the expression that is evaluated inside it. -/
theorem expression_yields_key_by_key {text : String} {e : Expression}
    (parsed : Expression.parse text = .ok e) (options : OutputOptions) :
    (∀ tree : Json,
      KeyByKey options tree e.subs ((⟨tree⟩ : Aggregations).flatten text options)) ∧
    (∀ (tree : Json) (type : AggType) (path : String) (found : Json),
      (⟨tree⟩ : Aggregations).access type path options (some text) = .ok found →
        type.shape.InsideKeys options (lastSegment path) e.subs found) ∧
    ∀ (type : AggType) (path : NamePath) (source : String) (body : List SubAgg),
      SubAgg.Occurs (.bracketed type path source body) e.subs → ∀ node : Json,
        KeyByKey options node body ((⟨node⟩ : Aggregations).flatten source options) ∧
        ∀ result, SubAgg.evaluate options node (.bracketed type path source body) = .ok result →
          ∃ found, type.shape.inBrackets.InsideKeys options path.name body found ∧
            type.shape.inBrackets.present path.name found = result := by
  refine ⟨keyByKey_flatten parsed, ?_, ?_⟩
  · intro tree type path found read
    rw [Aggregations.access_of_parse type parsed, Aggregations.guarded_eq_ok_iff] at read
    exact Evaluation.insideKeys_ofShape (plain_of_parse parsed) read
  · intro type path source body occurs node
    have inner := Expression.parse_nested parsed occurs
    have nested : KeyByKey options node body ((⟨node⟩ : Aggregations).flatten source options) :=
      keyByKey_flatten inner node
    refine ⟨nested, ?_⟩
    intro result read
    rw [SubAgg.evaluate_bracketed, Outcome.map_eq_ok_iff] at read
    obtain ⟨found, read, rfl⟩ := read
    have named := Expression.lastSegment_of_occurs parsed occurs
    rw [SubAgg.path] at named
    refine ⟨found, ?_, rfl⟩
    rw [← named]
    exact Evaluation.insideKeys_ofShape (plain_of_parse inner) read

/-- Two aggregations whose lists have the same plural, and a number. -/
def dayAndDays : Json :=
  .obj [("day", .single "buckets" (.arr [.obj [("key", .str "mon"), ("doc_count", .nat 1)]])),
    ("days", .single "buckets" (.arr [.obj [("doc_count", .nat 2),
      ("load", .single "value" (.nat 7))]])),
    ("load", .single "value" (.nat 3))]

def dayAndDaysParts : List SubAgg :=
  [.bare .value ⟨[], "load"⟩, .bare .terms ⟨[], "day"⟩,
    .bracketed .value ⟨[], "days"⟩ "load" [.bare .value ⟨[], "load"⟩]]

theorem keys_of_day_and_days :
    Expression.parse "load terms:day days[load]" =
        .ok ⟨"load terms:day days[load]", dayAndDaysParts⟩ ∧
      (⟨dayAndDays⟩ : Aggregations).flatten "load terms:day days[load]" {} =
        .ok (.obj [("load", .nat 3), ("days", .arr [.obj [("day", .str "mon"), ("count", .nat 1)],
          .obj [("day", .nat 0), ("count", .nat 2), ("load", .nat 7)]])]) ∧
      KeyByKey {} dayAndDays dayAndDaysParts
        ((⟨dayAndDays⟩ : Aggregations).flatten "load terms:day days[load]" {}) ∧
      ∃ found, Shape.InsideKeys {} "days" [.bare .value ⟨[], "load"⟩] found .buckets ∧
        Shape.present .buckets "days" found =
          .single "days" (.arr [.obj [("day", .nat 0), ("count", .nat 2), ("load", .nat 7)]]) := by
  have parsed : Expression.parse "load terms:day days[load]" =
      .ok ⟨"load terms:day days[load]", dayAndDaysParts⟩ := by
    decide +kernel
  obtain ⟨keys, _, deeper⟩ := expression_yields_key_by_key parsed {}
  refine ⟨parsed, by decide +kernel, keys dayAndDays, ?_⟩
  have bracketed : SubAgg.Occurs (.bracketed .value ⟨[], "days"⟩ "load" [.bare .value ⟨[], "load"⟩])
      dayAndDaysParts :=
    .here (.tail _ (.tail _ (.head _)))
  exact (deeper _ _ _ _ bracketed dayAndDays).2 _ (by decide +kernel)

end AggFlatten
