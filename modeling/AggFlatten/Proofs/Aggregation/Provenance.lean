import AggFlatten.Proofs.Aggregation.Reach
import AggFlatten.Proofs.Expression.Request

/-! Where the outcome of an expression comes from. Nothing is computed: a leaf is held in the
tree, or tells which bucket it is about, and a key is held there too, or is one of the few
that are always written, or comes from a name in the expression. -/
namespace AggFlatten

open Text (lastSegment)
open Json (Within LeafWithin KeyWithin MadeOf)

/-- A leaf of the tree, a key of it, or a position in a list of buckets there. -/
inductive LeafFrom (tree : Json) : Json → Prop where
  | leaf {leaf} (held : LeafWithin leaf tree) : LeafFrom tree leaf
  | key {key} (held : KeyWithin key tree) : LeafFrom tree (.str key)
  | position {members : Json.Members} {items : List Json} {i : Nat}
      (held : Within (.obj members) tree)
      (listed : Json.lookup "buckets" members = some (.arr items)) (below : i < items.length) :
      LeafFrom tree (.nat i)

/-- A key of the tree, one that is always written, or the name of a part, in brackets or
outside, as it stands or in the other number. -/
inductive KeyFrom (tree : Json) (options : OutputOptions) (subs : List SubAgg) : String → Prop where
  | held {key} (held : KeyWithin key tree) : KeyFrom tree options subs key
  | fixed {key} (fixed : key ∈ ["count", options.countField, "key", "value"]) :
      KeyFrom tree options subs key
  | named {sub : SubAgg} {key} (occurs : SubAgg.Occurs sub subs)
      (form : key ∈ [sub.path.name, pluralize sub.path.name, singularize sub.path.name]) :
      KeyFrom tree options subs key

/-- A document with nothing in it that neither the tree nor the request accounts for. -/
def Known (tree : Json) (options : OutputOptions) (subs : List SubAgg) (doc : Json) : Prop :=
  MadeOf (LeafFrom tree) (KeyFrom tree options subs) doc

namespace Known

variable {tree node doc other : Json} {options : OutputOptions} {subs : List SubAgg}

theorem of_within (held : Within doc tree) : Known tree options subs doc where
  leaf _ inner := .leaf ⟨inner.1, inner.2.trans held⟩
  key _ := fun ⟨members, inner, among⟩ => .held ⟨members, inner.trans held, among⟩

theorem of_get {path : String} (held : Within node tree) (found : node.get path = .ok doc) :
    Known tree options subs doc :=
  of_within ((Json.within_of_get found).trans held)

theorem single {key : String} (named : KeyFrom tree options subs key)
    (known : Known tree options subs doc) : Known tree options subs (.single key doc) :=
  Json.madeOf_single named known

theorem merge (target : Known tree options subs doc) (source : Known tree options subs other) :
    Known tree options subs (doc.merge other) :=
  Json.madeOf_merge other target source

theorem fallback {members : Json.Members} {bucket : Bucket} (has : HasBucket members bucket)
    (held : Within (.obj members) tree) : Known tree options subs bucket.fallback := by
  cases has with
  | listed found placed =>
    obtain ⟨below, _⟩ := List.getElem?_eq_some_iff.mp placed
    exact Json.madeOf_of_isScalar rfl (.position held found below)
  | keyed found member =>
    have entries := (Within.under (Json.mem_of_lookup found) .here).trans held
    exact Json.madeOf_of_isScalar rfl (.key ⟨_, entries, List.mem_map_of_mem member⟩)

end Known

/-- Whatever the brackets yield inside a node of the tree is known. -/
def Inside.Known (tree : Json) (options : OutputOptions) (subs : List SubAgg) (inside : Inside) :
    Prop :=
  ∀ node result, Within node tree → inside node = .ok result →
    AggFlatten.Known tree options subs result

theorem Inside.known_nothing {tree : Json} {options : OutputOptions} {subs : List SubAgg} :
    nothing.Known tree options subs := by
  intro node result held yields
  cases yields
  exact Json.madeOf_obj_iff.mpr nofun

namespace Evaluation

variable {tree node result : Json} {options : OutputOptions} {subs : List SubAgg}
  {inside : Inside} {path : String}

theorem known_shapedTable {values : Json} (held : Within values tree) :
    Known tree options subs (shapedTable options values) := by
  unfold shapedTable
  split
  · next members _ =>
    refine Json.madeOf_arr_iff.mpr (List.forall_mem_map.mpr ?_)
    rintro ⟨key, value⟩ member
    have key' : Known tree options subs (.str key) :=
      Json.madeOf_of_isScalar rfl (.key ⟨_, held, List.mem_map_of_mem member⟩)
    have value' : Known tree options subs value :=
      .of_within ((Within.under member .here).trans held)
    rw [pair, Json.madeOf_obj_iff]
    simpa using ⟨⟨.fixed (by simp), key'⟩, .fixed (by simp), value'⟩
  · exact .of_within held

theorem known_plainRecord {keyField : String} {bucket : Bucket} {count : Json}
    (named : KeyFrom tree options subs keyField)
    (shown : Known tree options subs bucket.displayKey) (counted : Known tree options subs count) :
    Known tree options subs (plainRecord options keyField bucket count) :=
  Json.madeOf_put (.fixed (by simp)) counted (Json.madeOf_single named shown)

theorem known_records (within : inside.Known tree options subs) (held : Within node tree)
    (named : KeyFrom tree options subs (singularize (lastSegment path)))
    (read : records options inside node path = .ok result) : Known tree options subs result := by
  obtain ⟨child, buckets, rows, found, listed, filled, rfl⟩ := records_eq_ok_iff.mp read
  have below := (Json.within_of_get found).trans held
  refine Json.madeOf_arr_iff.mpr ?_
  intro row member
  obtain ⟨bucket, among, recorded⟩ := Outcome.exists_of_forall₂_right filled member
  obtain ⟨count, nested, counted, yields, rfl⟩ := record_eq_ok_iff.mp recorded
  obtain ⟨members, rfl, has⟩ := hasBucket_of_buckets listed among
  have bucket_held := has.within.trans below
  have shown : Known tree options subs bucket.displayKey := by
    rcases bucket.displayKey_cases with ⟨name, own⟩ | placed
    · exact .of_within ((Bucket.within_of_field? own).trans bucket_held)
    · rw [placed]
      exact .fallback has below
  exact (known_plainRecord named shown (.of_get bucket_held counted)).merge
    (within _ _ bucket_held yields)

theorem known_ofShape {shape : Shape} (within : inside.Known tree options subs)
    (held : Within node tree) (name : KeyFrom tree options subs (lastSegment path))
    (singular : KeyFrom tree options subs (singularize (lastSegment path)))
    (read : ofShape options shape inside node path = .ok result) :
    Known tree options subs result := by
  cases shape with
  | count =>
    obtain ⟨child, count, nested, found, counted, yields, rfl⟩ := countObject_eq_ok_iff.mp read
    have below := (Json.within_of_get found).trans held
    have own : Known tree options subs (.single "count" count) :=
      .single (.fixed (by simp)) (.of_get below counted)
    exact .single name (own.merge (within _ _ below yields))
  | value =>
    obtain ⟨child, value, found, shown, rfl⟩ := valueObject_eq_ok_iff.mp read
    exact .single name (.of_get ((Json.within_of_get found).trans held) shown)
  | buckets => exact known_records within held singular read
  | multiValue =>
    obtain ⟨child, values, found, shown, rfl⟩ := multiValueObject_eq_ok_iff.mp read
    have below := (Json.within_of_get found).trans held
    exact .single name (known_shapedTable ((Json.within_of_get shown).trans below))

end Evaluation

namespace SubAgg

variable {tree : Json} {options : OutputOptions} {subs : List SubAgg}

theorem known_evaluate_of_inside {sub : SubAgg} {node result : Json} (occurs : Occurs sub subs)
    (plain : lastSegment sub.path.name = sub.path.name)
    (within : (sub.inside options).Known tree options subs)
    (held : Within node tree) (read : sub.evaluate options node = .ok result) :
    Known tree options subs result := by
  obtain ⟨found, inner, rfl⟩ := evaluate_eq_ok_iff.mp read
  have known : Known tree options subs found := by
    refine Evaluation.known_ofShape within ((sub.path.within_scopeIn node).trans held) ?_ ?_ inner
    · exact .named occurs (by simp [plain])
    · exact .named occurs (by simp [plain])
  cases sub.shape with
  | buckets => exact .single (.named occurs (by simp)) known
  | count | value | multiValue => exact known

mutual

theorem known_evaluate
    (plain : ∀ sub, Occurs sub subs → lastSegment sub.path.name = sub.path.name) :
    (sub : SubAgg) → Occurs sub subs → ∀ {node result}, Within node tree →
      sub.evaluate options node = .ok result → Known tree options subs result
  | bare _ _, occurs, _, _, held, read =>
    known_evaluate_of_inside occurs (plain _ occurs) Inside.known_nothing held read
  | bracketed _ _ _ body, occurs, _, _, held, read => by
    refine known_evaluate_of_inside occurs (plain _ occurs) ?_ held read
    -- The node that the brackets are evaluated in is held in the tree as well.
    intro node result held yields
    obtain ⟨results, each, rfl⟩ := Outcome.map_eq_ok_iff.mp yields
    exact Json.madeOf_mergeAll
      (known_evaluateEach plain body (fun _ member => occurs.of_body member) held each)

theorem known_evaluateEach
    (plain : ∀ sub, Occurs sub subs → lastSegment sub.path.name = sub.path.name) :
    (body : List SubAgg) → (∀ sub ∈ body, Occurs sub subs) → ∀ {node results}, Within node tree →
      evaluateEach options node body = .ok results →
        ∀ result ∈ results, Known tree options subs result
  | [], _, _, _, _, read => by
    cases read
    exact nofun
  | sub :: body, occurs, _, _, held, read => by
    obtain ⟨occurs, later⟩ := List.forall_mem_cons.mp occurs
    obtain ⟨first, now, read⟩ := Outcome.bind_eq_ok_iff.mp read
    obtain ⟨results, rest, read⟩ := Outcome.bind_eq_ok_iff.mp read
    cases read
    exact List.forall_mem_cons.mpr
      ⟨known_evaluate plain sub occurs held now, known_evaluateEach plain body later held rest⟩

end

theorem known_evaluateAll
    (plain : ∀ sub, Occurs sub subs → lastSegment sub.path.name = sub.path.name) {result : Json}
    (read : evaluateAll options subs tree = .ok result) : Known tree options subs result := by
  obtain ⟨results, each, rfl⟩ := Outcome.map_eq_ok_iff.mp read
  exact Json.madeOf_mergeAll (known_evaluateEach plain subs (fun _ => .here) .here each)

end SubAgg

/-- Every leaf of the outcome is a leaf of the tree, a key of it or the position of a bucket;
every key is one of the tree, one that is always written, or the name of a part. -/
theorem nothing_is_invented {text : String} {e : Expression}
    (parsed : Expression.parse text = .ok e) {tree result : Json} {options : OutputOptions}
    (read : (⟨tree⟩ : Aggregations).flatten text options = .ok result) :
    (∀ leaf, LeafWithin leaf result → LeafFrom tree leaf) ∧
      ∀ key, KeyWithin key result → KeyFrom tree options e.subs key := by
  have known : Known tree options e.subs result := by
    refine SubAgg.known_evaluateAll ?_ ((Aggregations.flatten_eq_ok_iff parsed).mp read)
    exact fun _ => Expression.lastSegment_of_occurs parsed
  exact ⟨known.leaf, known.key⟩

/-- Hosts by their names, and days that have none. -/
def hostsAndDays : Json :=
  .obj [("hosts", .single "buckets" (.single "alpha" (.obj [("doc_count", .nat 2),
      ("load", .single "values" (.single "50.0" (.nat 7)))]))),
    ("days", .single "buckets" (.arr [.single "doc_count" (.nat 5)]))]

def hostsAndDaysParts : List SubAgg :=
  [.bracketed .terms ⟨[], "hosts"⟩ "percentiles:load" [.bare .percentiles ⟨[], "load"⟩],
    .bare .terms ⟨[], "days"⟩]

/-- The name of the host and that of the percentile are keys of the tree, and the day is told
by its position. -/
def hostsAndDaysRecords : Json :=
  .obj [("hosts", .arr [.obj [("host", .str "alpha"), ("total", .nat 2),
      ("load", .arr [.obj [("key", .str "50.0"), ("value", .nat 7)]])]]),
    ("days", .arr [.obj [("day", .nat 0), ("total", .nat 5)]])]

theorem nothing_is_invented_of_hosts_and_days :
    Expression.parse "terms:hosts[percentiles:load] terms:days" =
        .ok ⟨"terms:hosts[percentiles:load] terms:days", hostsAndDaysParts⟩ ∧
      (⟨hostsAndDays⟩ : Aggregations).flatten "terms:hosts[percentiles:load] terms:days"
        ⟨"total", true⟩ = .ok hostsAndDaysRecords ∧
      (∀ leaf, LeafWithin leaf hostsAndDaysRecords → LeafFrom hostsAndDays leaf) ∧
      ∀ key, KeyWithin key hostsAndDaysRecords →
        KeyFrom hostsAndDays ⟨"total", true⟩ hostsAndDaysParts key := by
  have parsed : Expression.parse "terms:hosts[percentiles:load] terms:days" =
      .ok ⟨"terms:hosts[percentiles:load] terms:days", hostsAndDaysParts⟩ := by
    decide +kernel
  have read : (⟨hostsAndDays⟩ : Aggregations).flatten "terms:hosts[percentiles:load] terms:days"
      ⟨"total", true⟩ = .ok hostsAndDaysRecords := by
    decide +kernel
  exact ⟨parsed, read, nothing_is_invented parsed read⟩

end AggFlatten
