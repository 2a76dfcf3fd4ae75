import AggFlatten.Proofs.Aggregation.Outcomes
import AggFlatten.Proofs.Expression.Source

/-! What stands in brackets is evaluated inside each node on its own: as if that node were
the whole tree and the text in the brackets the whole request. -/
namespace AggFlatten

open Text (lastSegment)

/-- The outcome has a record per bucket below the node at `path`: the one of a reading
without brackets, with what the text yields on that bucket alone merged in. -/
structure PerBucket (root : Json) (type : AggType) (path : String) (options : OutputOptions)
    (text : String) (outcome : Except AggError Json) : Prop where
  succeeds_iff : (∃ result, outcome = .ok result) ↔
    ∃ child nodes, root.get path = .ok child ∧ HoldsBuckets child nodes ∧
      ∀ node ∈ nodes, (∃ count, node.docCount = .ok count) ∧
        ∃ inner, (⟨node⟩ : Aggregations).flatten text options = .ok inner
  records : ∀ {result child nodes}, outcome = .ok result → root.get path = .ok child →
    HoldsBuckets child nodes →
      ∃ records plain : List Json, result = .arr records ∧
        (⟨root⟩ : Aggregations).access type path options none = .ok (.arr plain) ∧
        records.length = nodes.length ∧ plain.length = nodes.length ∧
        ∀ (i : Nat) (node : Json), nodes[i]? = some node →
          ∃ base inner, plain[i]? = some base ∧
            (⟨node⟩ : Aggregations).flatten text options = .ok inner ∧
            records[i]? = some (base.merge inner)
  no_buckets : ∀ {child}, root.get path = .ok child → HoldsBuckets child [] →
    outcome = .ok (.arr [])

/-- The outcome counts the documents of the node at `path`, and has what the text yields
on that node alone merged in. -/
def PerChild (root : Json) (path : String) (options : OutputOptions) (text : String)
    (outcome : Except AggError Json) : Prop :=
  ∀ result, outcome = .ok result ↔
    ∃ child count inner, root.get path = .ok child ∧ child.docCount = .ok count ∧
      (⟨child⟩ : Aggregations).flatten text options = .ok inner ∧
      .single (lastSegment path) ((Json.single "count" count).merge inner) = result

section

variable {root : Json} {path text : String} {options : OutputOptions} {e : Expression}

theorem records_succeeds_iff (parsed : Expression.parse text = .ok e) :
    (∃ result, Evaluation.records options (SubAgg.evaluateAll options e.subs) root path
      = .ok result) ↔
      ∃ child nodes, root.get path = .ok child ∧ HoldsBuckets child nodes ∧
        ∀ node ∈ nodes, (∃ count, node.docCount = .ok count) ∧
          ∃ inner, (⟨node⟩ : Aggregations).flatten text options = .ok inner := by
  simp only [Evaluation.records_eq_ok_iff, Aggregations.flatten_eq_ok_iff parsed]
  constructor
  · rintro ⟨result, child, buckets, rows, found, listed, filled, _⟩
    refine ⟨child, _, found, holdsBuckets_iff.mpr ⟨buckets, listed, rfl⟩, ?_⟩
    intro node held
    obtain ⟨bucket, member, rfl⟩ := List.mem_map.mp held
    obtain ⟨row, read⟩ := Outcome.exists_forall₂_iff.mp ⟨rows, filled⟩ bucket member
    obtain ⟨count, inner, counted, yields, _⟩ := Evaluation.record_eq_ok_iff.mp read
    exact ⟨⟨count, counted⟩, inner, yields⟩
  · rintro ⟨child, nodes, found, holds, each⟩
    obtain ⟨buckets, listed, rfl⟩ := holdsBuckets_iff.mp holds
    have rows : ∀ bucket ∈ buckets, ∃ row, Evaluation.record options
        (SubAgg.evaluateAll options e.subs) (singularize (lastSegment path)) bucket = .ok row := by
      intro bucket member
      obtain ⟨⟨count, counted⟩, inner, yields⟩ := each _ (List.mem_map_of_mem member)
      exact ⟨_, Evaluation.record_eq_ok_iff.mpr ⟨count, inner, counted, yields, rfl⟩⟩
    obtain ⟨rows, filled⟩ := Outcome.exists_forall₂_iff.mpr rows
    exact ⟨_, child, buckets, rows, found, listed, filled, rfl⟩

/-- Without the brackets the reading succeeds too, and its records are what the results of
the brackets are merged into. -/
theorem records_merge (parsed : Expression.parse text = .ok e) {result child : Json}
    {nodes : List Json}
    (yields : Evaluation.records options (SubAgg.evaluateAll options e.subs) root path
      = .ok result)
    (found : root.get path = .ok child) (holds : HoldsBuckets child nodes) :
    ∃ records plain : List Json, result = .arr records ∧
      Evaluation.records options .nothing root path = .ok (.arr plain) ∧
      records.length = nodes.length ∧ plain.length = nodes.length ∧
      ∀ (i : Nat) (node : Json), nodes[i]? = some node →
        ∃ base inner, plain[i]? = some base ∧
          (⟨node⟩ : Aggregations).flatten text options = .ok inner ∧
          records[i]? = some (base.merge inner) := by
  obtain ⟨child', buckets, rows, found', listed, filled, rfl⟩ :=
    Evaluation.records_eq_ok_iff.mp yields
  obtain rfl := Except.ok.inj (found.symm.trans found')
  obtain ⟨buckets', listed', rfl⟩ := holdsBuckets_iff.mp holds
  obtain rfl := Except.ok.inj (listed.symm.trans listed')
  have parts : ∀ bucket ∈ buckets, ∃ base, Evaluation.record options .nothing
      (singularize (lastSegment path)) bucket = .ok base := by
    intro bucket member
    obtain ⟨row, read⟩ := Outcome.exists_forall₂_iff.mp ⟨rows, filled⟩ bucket member
    obtain ⟨base, inner, plain, _⟩ := Evaluation.record_eq_ok_iff_merge.mp read
    exact ⟨base, plain⟩
  obtain ⟨plain, bases⟩ := Outcome.exists_forall₂_iff.mpr parts
  refine ⟨rows, plain, rfl, ?_, ?_, ?_, ?_⟩
  · exact Evaluation.records_eq_ok_iff.mpr ⟨child, buckets, plain, found, listed, bases, rfl⟩
  · rw [List.length_map, filled.length_eq]
  · rw [List.length_map, bases.length_eq]
  · intro i node held
    rw [List.getElem?_map] at held
    obtain ⟨bucket, position, rfl⟩ := Option.map_eq_some_iff.mp held
    obtain ⟨row, merged, read⟩ := Outcome.getElem?_of_forall₂ filled position
    obtain ⟨base, unmerged, plain⟩ := Outcome.getElem?_of_forall₂ bases position
    obtain ⟨base', inner, plain', yields, rfl⟩ := Evaluation.record_eq_ok_iff_merge.mp read
    obtain rfl := Except.ok.inj (plain.symm.trans plain')
    exact ⟨base, inner, unmerged, (Aggregations.flatten_eq_ok_iff parsed).mpr yields, merged⟩

variable {type : AggType} {outcome : Except AggError Json}

theorem perBucket_of_records (parsed : Expression.parse text = .ok e)
    (shape : type.shape = .buckets)
    (same : ∀ {result : Json}, outcome = .ok result ↔
      Evaluation.records options (SubAgg.evaluateAll options e.subs) root path = .ok result) :
    PerBucket root type path options text outcome where
  succeeds_iff := by
    simp only [same]
    exact records_succeeds_iff parsed
  records := by
    intro result child nodes yields found holds
    obtain ⟨records, plain, rfl, bases, each⟩ := records_merge parsed (same.mp yields) found holds
    refine ⟨records, plain, rfl, ?_, each⟩
    rw [Aggregations.access_none, Aggregations.guarded_eq_ok_iff, shape]
    exact bases
  no_buckets := by
    intro child found holds
    obtain ⟨buckets, listed, none⟩ := holdsBuckets_iff.mp holds
    obtain rfl := List.map_eq_nil_iff.mp none
    exact same.mpr (Evaluation.records_eq_ok_iff.mpr ⟨child, [], [], found, listed, .nil, rfl⟩)

theorem perChild_of_countObject (parsed : Expression.parse text = .ok e)
    (same : ∀ {result : Json}, outcome = .ok result ↔
      Evaluation.countObject (SubAgg.evaluateAll options e.subs) root path = .ok result) :
    PerChild root path options text outcome := by
  intro result
  simp only [same, Evaluation.countObject_eq_ok_iff, Aggregations.flatten_eq_ok_iff parsed]

theorem perBucket_access (parsed : Expression.parse text = .ok e)
    (shape : type.shape = .buckets) :
    PerBucket root type path options text
      ((⟨root⟩ : Aggregations).access type path options (some text)) := by
  refine perBucket_of_records parsed shape ?_
  intro result
  rw [Aggregations.access_of_parse type parsed, Aggregations.guarded_eq_ok_iff, shape]
  rfl

theorem perChild_access (parsed : Expression.parse text = .ok e) (shape : type.shape = .count) :
    PerChild root path options text
      ((⟨root⟩ : Aggregations).access type path options (some text)) := by
  refine perChild_of_countObject parsed ?_
  intro result
  rw [Aggregations.access_of_parse type parsed, Aggregations.guarded_eq_ok_iff, shape]
  rfl

end

section

variable {options : OutputOptions} {type : AggType} {path : NamePath} {source : String}
  {body : List SubAgg}

theorem perChild_evaluate (parsed : Expression.parse source = .ok ⟨source, body⟩)
    (shape : type.shape = .count) (node : Json) :
    PerChild (path.scopeIn node) path.name options source
      (SubAgg.evaluate options node (.bracketed type path source body)) := by
  refine perChild_of_countObject parsed ?_
  intro result
  rw [SubAgg.evaluate_bracketed, shape, Shape.inBrackets, Outcome.map_eq_ok_iff]
  exact ⟨fun ⟨_, read, same⟩ => same ▸ read, fun read => ⟨result, read, rfl⟩⟩

/-- With brackets, whatever is not counted is read as buckets. -/
theorem perBucket_evaluate (parsed : Expression.parse source = .ok ⟨source, body⟩)
    (shape : type.shape ≠ .count) (node : Json) :
    ∃ outcome, PerBucket (path.scopeIn node) .terms path.name options source outcome ∧
      SubAgg.evaluate options node (.bracketed type path source body) =
        outcome.map (.single (pluralize path.name)) := by
  have buckets : type.shape.inBrackets = .buckets := by
    cases is : type.shape with
    | count => contradiction
    | value | buckets | multiValue => rfl
  refine ⟨Evaluation.records options (SubAgg.evaluateAll options body) (path.scopeIn node)
    path.name, perBucket_of_records parsed rfl Iff.rfl, ?_⟩
  rw [SubAgg.evaluate_bracketed, buckets]
  rfl

end

/-- Evaluation in brackets is evaluation on each node alone: in a reading of one aggregation,
and in every part with brackets of the expression that it is given, at any depth. -/
theorem nested_evaluation_is_per_node (root : Json) (options : OutputOptions) {text : String}
    {e : Expression} (parsed : Expression.parse text = .ok e) :
    (∀ (type : AggType) (path : String), type.shape = .buckets →
      PerBucket root type path options text
        ((⟨root⟩ : Aggregations).access type path options (some text))) ∧
    (∀ (type : AggType) (path : String), type.shape = .count →
      PerChild root path options text
        ((⟨root⟩ : Aggregations).access type path options (some text))) ∧
    ∀ (type : AggType) (path : NamePath) (source : String) (body : List SubAgg),
      SubAgg.Occurs (.bracketed type path source body) e.subs →
        Expression.parse source = .ok ⟨source, body⟩ ∧
        (type.shape = .count → ∀ node,
          PerChild (path.scopeIn node) path.name options source
            (SubAgg.evaluate options node (.bracketed type path source body))) ∧
        (type.shape ≠ .count → ∀ node,
          ∃ outcome, PerBucket (path.scopeIn node) .terms path.name options source outcome ∧
            SubAgg.evaluate options node (.bracketed type path source body) =
              outcome.map (.single (pluralize path.name))) := by
  refine ⟨fun _ _ => perBucket_access parsed, fun _ _ => perChild_access parsed, ?_⟩
  intro type path source body occurs
  have inner := Expression.parse_nested parsed occurs
  exact ⟨inner, perChild_evaluate inner, perBucket_evaluate inner⟩

/-- A day with one hour; the hours are read as buckets, and each for its load. -/
def oneDay : Json :=
  .single "days" (.single "buckets" (.arr [.obj [("key", .str "mon"), ("doc_count", .nat 2),
    ("hours", .single "buckets" (.arr [.obj [("doc_count", .nat 1),
      ("load", .single "value" (.nat 7))]]))]]))

theorem nested_evaluation_of_one_day :
    Expression.parse "hours[load]" =
        .ok ⟨"hours[load]", [.bracketed .value ⟨[], "hours"⟩ "load" [.bare .value ⟨[], "load"⟩]]⟩ ∧
      (⟨oneDay⟩ : Aggregations).access .terms "days" {} (some "hours[load]") =
        .ok (.arr [.obj [("day", .str "mon"), ("count", .nat 2), ("hours",
          .arr [.obj [("hour", .nat 0), ("count", .nat 1), ("load", .nat 7)]])]]) ∧
      PerBucket oneDay .terms "days" {} "hours[load]"
        ((⟨oneDay⟩ : Aggregations).access .terms "days" {} (some "hours[load]")) ∧
      PerChild oneDay "days" {} "hours[load]"
        ((⟨oneDay⟩ : Aggregations).access .filter "days" {} (some "hours[load]")) ∧
      ∃ outcome, PerBucket oneDay .terms "hours" {} "load" outcome ∧
        SubAgg.evaluate {} oneDay
            (.bracketed .value ⟨[], "hours"⟩ "load" [.bare .value ⟨[], "load"⟩]) =
          outcome.map (.single (pluralize "hours")) := by
  have parsed : Expression.parse "hours[load]" = .ok ⟨"hours[load]",
      [.bracketed .value ⟨[], "hours"⟩ "load" [.bare .value ⟨[], "load"⟩]]⟩ := by
    decide +kernel
  obtain ⟨buckets, counts, deeper⟩ := nested_evaluation_is_per_node oneDay {} parsed
  refine ⟨parsed, by decide +kernel, buckets .terms "days" rfl, counts .filter "days" rfl, ?_⟩
  obtain ⟨_, _, inside⟩ := deeper _ _ _ _ (.here List.mem_cons_self)
  exact inside nofun oneDay

end AggFlatten
