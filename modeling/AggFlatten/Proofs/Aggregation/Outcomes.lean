import AggFlatten.Aggregation.Flatten
import AggFlatten.Proofs.Outcome

/-! When an evaluation succeeds, and with what: one equivalence for every way to read an
aggregation, for a part, for all parts of an expression, and for a whole request. -/
namespace AggFlatten

open Text (lastSegment)

/-- The nodes of the buckets below a node, in the order of the document. -/
inductive HoldsBuckets (node : Json) : List Json → Prop where
  | listed {items} (found : node.get "buckets" = .ok (.arr items)) : HoldsBuckets node items
  | keyed {members : Json.Members} (found : node.get "buckets" = .ok (.obj members)) :
      HoldsBuckets node (members.map Prod.snd)

section

variable {α : Type} {found : Except LookupError α}

theorem lift_eq_ok_iff {a : α} : (liftM found : Except AggError α) = .ok a ↔ found = .ok a :=
  Outcome.mapError_eq_ok_iff

theorem lift_eq_error_iff {e : AggError} :
    (liftM found : Except AggError α) = .error e ↔ ∃ cause, found = .error cause ∧
      AggError.lookup cause = e :=
  Outcome.mapError_eq_error_iff

end

theorem nodes_of_listed (items : List Json) :
    (items.mapIdx fun i item => (⟨.nat i, item⟩ : Bucket)).map Bucket.node = items := by
  apply List.ext_getElem?
  intro i
  rw [List.getElem?_map, List.getElem?_mapIdx, Option.map_map]
  exact congrFun Option.map_id _

theorem nodes_of_keyed (members : Json.Members) :
    (members.map fun (key, item) => (⟨.str key, item⟩ : Bucket)).map Bucket.node =
      members.map Prod.snd := by
  rw [List.map_map]
  rfl

theorem holdsBuckets_iff {node : Json} {nodes : List Json} :
    HoldsBuckets node nodes ↔ ∃ buckets, node.buckets = .ok buckets ∧
      buckets.map Bucket.node = nodes := by
  constructor
  · rintro (⟨found⟩ | ⟨found⟩)
    · exact ⟨_, Outcome.bind_eq_ok_iff.mpr ⟨_, found, rfl⟩, nodes_of_listed _⟩
    · exact ⟨_, Outcome.bind_eq_ok_iff.mpr ⟨_, found, rfl⟩, nodes_of_keyed _⟩
  · rintro ⟨buckets, listed, rfl⟩
    obtain ⟨held, found, listed⟩ := Outcome.bind_eq_ok_iff.mp listed
    split at listed
    · cases listed
      rw [nodes_of_listed]
      exact .listed found
    · cases listed
      rw [nodes_of_keyed]
      exact .keyed found
    · cases listed

/-- How a part of an expression shows what is read for it. -/
def Shape.present (shape : Shape) (name : String) (found : Json) : Json :=
  match shape with
  | .buckets => .single (pluralize name) found
  | _ => found

/-- The one key of what a part of an expression shows. -/
def Shape.keyOf (shape : Shape) (name : String) : String :=
  match shape with
  | .buckets => pluralize name
  | _ => lastSegment name

namespace Evaluation

variable {options : OutputOptions} {inside : Inside} {node result : Json} {path : String}

theorem countObject_eq_ok_iff : countObject inside node path = .ok result ↔
    ∃ child count nested, node.get path = .ok child ∧ child.docCount = .ok count ∧
      inside child = .ok nested ∧
      .single (lastSegment path) ((Json.single "count" count).merge nested) = result := by
  simp only [countObject, Outcome.bind_eq_ok_iff, Outcome.pure_eq_ok_iff, lift_eq_ok_iff,
    exists_and_left]

theorem valueObject_eq_ok_iff : valueObject node path = .ok result ↔
    ∃ child value, node.get path = .ok child ∧ child.value = .ok value ∧
      .single (lastSegment path) value = result := by
  simp only [valueObject, Outcome.bind_eq_ok_iff, Outcome.pure_eq_ok_iff, lift_eq_ok_iff,
    exists_and_left]

theorem multiValueObject_eq_ok_iff : multiValueObject options node path = .ok result ↔
    ∃ child values, node.get path = .ok child ∧ child.values = .ok values ∧
      .single (lastSegment path) (shapedTable options values) = result := by
  simp only [multiValueObject, Outcome.bind_eq_ok_iff, Outcome.pure_eq_ok_iff, lift_eq_ok_iff,
    exists_and_left]

/-- What the record of a bucket holds without the brackets. -/
def plainRecord (options : OutputOptions) (keyField : String) (bucket : Bucket) (count : Json) :
    Json :=
  .obj (Json.put options.countField count [(keyField, bucket.displayKey)])

theorem record_eq_ok_iff {keyField : String} {bucket : Bucket} :
    record options inside keyField bucket = .ok result ↔
      ∃ count nested, bucket.node.docCount = .ok count ∧ inside bucket.node = .ok nested ∧
        (plainRecord options keyField bucket count).merge nested = result := by
  simp only [record, Outcome.bind_eq_ok_iff, Outcome.pure_eq_ok_iff, lift_eq_ok_iff,
    exists_and_left, plainRecord]

theorem record_nothing_eq_ok_iff {keyField : String} {bucket : Bucket} :
    record options .nothing keyField bucket = .ok result ↔
      ∃ count, bucket.node.docCount = .ok count ∧
        plainRecord options keyField bucket count = result := by
  rw [record_eq_ok_iff]
  constructor
  · rintro ⟨count, nested, counted, empty, rfl⟩
    cases empty
    exact ⟨count, counted, rfl⟩
  · rintro ⟨count, counted, rfl⟩
    exact ⟨count, .empty, counted, rfl, rfl⟩

/-- A record is the plain one with what the brackets yield merged in. -/
theorem record_eq_ok_iff_merge {keyField : String} {bucket : Bucket} :
    record options inside keyField bucket = .ok result ↔
      ∃ base nested, record options .nothing keyField bucket = .ok base ∧
        inside bucket.node = .ok nested ∧ base.merge nested = result := by
  rw [record_eq_ok_iff]
  constructor
  · rintro ⟨count, nested, counted, yields, merged⟩
    exact ⟨_, nested, record_nothing_eq_ok_iff.mpr ⟨count, counted, rfl⟩, yields, merged⟩
  · rintro ⟨base, nested, plain, yields, merged⟩
    obtain ⟨count, counted, rfl⟩ := record_nothing_eq_ok_iff.mp plain
    exact ⟨count, nested, counted, yields, merged⟩

theorem records_eq_ok_iff : records options inside node path = .ok result ↔
    ∃ child buckets rows, node.get path = .ok child ∧ child.buckets = .ok buckets ∧
      List.Forall₂ (fun bucket row =>
        record options inside (singularize (lastSegment path)) bucket = .ok row) buckets rows ∧
      .arr rows = result := by
  simp only [records, Outcome.bind_eq_ok_iff, Outcome.pure_eq_ok_iff, lift_eq_ok_iff,
    Outcome.mapM_eq_ok_iff, exists_and_left]

theorem ofPart_eq_map (shape : Shape) (scope : Json) (name : String) :
    ofPart options shape inside scope name =
      (ofShape options shape inside scope name).map (shape.present name) := by
  rw [ofPart]
  cases ofShape options shape inside scope name with
  | error e => rfl
  | ok found => cases shape <;> rfl

/-- A reading depends on its node and path only through the node they lead to and the name
it is shown under. -/
theorem ofShape_congr {shape : Shape} {node' : Json} {path' : String}
    (found : ∀ child, node.get path = .ok child ↔ node'.get path' = .ok child)
    (named : lastSegment path = lastSegment path') :
    ofShape options shape inside node path = .ok result ↔
      ofShape options shape inside node' path' = .ok result := by
  cases shape <;>
    simp only [ofShape, countObject_eq_ok_iff, valueObject_eq_ok_iff, records_eq_ok_iff,
      multiValueObject_eq_ok_iff, found, named]

theorem get_of_ofShape_eq_ok {shape : Shape}
    (read : ofShape options shape inside node path = .ok result) :
    ∃ child, node.get path = .ok child := by
  cases shape with
  | count =>
    obtain ⟨child, _, _, found, _⟩ := countObject_eq_ok_iff.mp read
    exact ⟨child, found⟩
  | value =>
    obtain ⟨child, _, found, _⟩ := valueObject_eq_ok_iff.mp read
    exact ⟨child, found⟩
  | buckets =>
    obtain ⟨child, _, _, found, _⟩ := records_eq_ok_iff.mp read
    exact ⟨child, found⟩
  | multiValue =>
    obtain ⟨child, _, found, _⟩ := multiValueObject_eq_ok_iff.mp read
    exact ⟨child, found⟩

theorem exists_single_of_ofPart {shape : Shape} {scope : Json} {name : String}
    (read : ofPart options shape inside scope name = .ok result) :
    ∃ value, .single (shape.keyOf name) value = result := by
  rw [ofPart_eq_map, Outcome.map_eq_ok_iff] at read
  obtain ⟨found, read, rfl⟩ := read
  cases shape with
  | count =>
    obtain ⟨_, _, _, _, _, _, same⟩ := countObject_eq_ok_iff.mp read
    exact ⟨_, same⟩
  | value =>
    obtain ⟨_, _, _, _, same⟩ := valueObject_eq_ok_iff.mp read
    exact ⟨_, same⟩
  | buckets => exact ⟨_, rfl⟩
  | multiValue =>
    obtain ⟨_, _, _, _, same⟩ := multiValueObject_eq_ok_iff.mp read
    exact ⟨_, same⟩

end Evaluation

namespace SubAgg

variable {options : OutputOptions} {node : Json}

theorem evaluateEach_eq_mapM (subs : List SubAgg) :
    evaluateEach options node subs = subs.mapM (evaluate options node) := by
  induction subs with
  | nil => rfl
  | cons sub subs ih => rw [evaluateEach, List.mapM_cons, ih]

theorem evaluateAll_eq_ok_iff {subs : List SubAgg} {result : Json} :
    evaluateAll options subs node = .ok result ↔
      ∃ results, List.Forall₂ (fun sub result => sub.evaluate options node = .ok result)
        subs results ∧ Json.mergeAll results = result := by
  simp only [evaluateAll, Outcome.map_eq_ok_iff, evaluateEach_eq_mapM, Outcome.mapM_eq_ok_iff]

/-- A part shows what is read for its name in its scope. -/
theorem evaluate_eq_ok_iff {sub : SubAgg} {result : Json} :
    sub.evaluate options node = .ok result ↔
      ∃ found, Evaluation.ofShape options sub.shape (sub.inside options) (sub.path.scopeIn node)
          sub.path.name = .ok found ∧ sub.shape.present sub.path.name found = result := by
  rw [evaluate_eq, Evaluation.ofPart_eq_map, Outcome.map_eq_ok_iff]

/-- What stands in brackets is evaluated inside what the part names. -/
theorem evaluate_bracketed (type : AggType) (path : NamePath) (source : String)
    (body : List SubAgg) :
    evaluate options node (.bracketed type path source body) =
      (Evaluation.ofShape options type.shape.inBrackets (evaluateAll options body)
        (path.scopeIn node) path.name).map (type.shape.inBrackets.present path.name) := by
  rw [evaluate_eq, Evaluation.ofPart_eq_map]
  rfl

theorem mergeAll_single (key : String) (value : Json) :
    Json.mergeAll [.single key value] = .single key value :=
  rfl

/-- A part alone needs no merging, since it yields an object with one key. -/
theorem evaluateAll_singleton_eq_ok_iff {sub : SubAgg} {result : Json} :
    evaluateAll options [sub] node = .ok result ↔ sub.evaluate options node = .ok result := by
  have merged : ∀ {found}, sub.evaluate options node = .ok found →
      Json.mergeAll [found] = found := by
    intro found read
    rw [evaluate_eq] at read
    obtain ⟨value, rfl⟩ := Evaluation.exists_single_of_ofPart read
    exact mergeAll_single _ value
  rw [evaluateAll_eq_ok_iff]
  constructor
  · rintro ⟨results, each, rfl⟩
    obtain ⟨found, others, read, rest, rfl⟩ := List.forall₂_cons_left_iff.mp each
    obtain rfl := List.forall₂_nil_left_iff.mp rest
    rw [merged read]
    exact read
  · intro read
    exact ⟨[result], .cons read .nil, merged read⟩

end SubAgg

namespace Aggregations

variable {aggs : Aggregations} {text path : String} {options : OutputOptions} {e : Expression}
  {result : Json}

theorem guarded_eq_ok_iff {request : String} {found : Except AggError Json} :
    aggs.guarded request found = .ok result ↔ found = .ok result :=
  Outcome.mapError_eq_ok_iff

theorem evaluate_eq_ok_iff :
    aggs.evaluate e options = .ok result ↔
      SubAgg.evaluateAll options e.subs aggs.root = .ok result :=
  guarded_eq_ok_iff

theorem parse_eq_ok_iff : parse text = .ok e ↔ Expression.parse text = .ok e :=
  Outcome.mapError_eq_ok_iff

theorem flatten_of_parse (parsed : Expression.parse text = .ok e) :
    aggs.flatten text options = aggs.evaluate e options := by
  rw [flatten, parse_eq_ok_iff.mpr parsed]
  rfl

theorem flatten_eq_ok_iff (parsed : Expression.parse text = .ok e) :
    aggs.flatten text options = .ok result ↔
      SubAgg.evaluateAll options e.subs aggs.root = .ok result := by
  rw [flatten_of_parse parsed, evaluate_eq_ok_iff]

theorem access_none (type : AggType) :
    aggs.access type path options none =
      aggs.guarded path (Evaluation.ofShape options type.shape .nothing aggs.root path) :=
  rfl

theorem access_of_parse (type : AggType) (parsed : Expression.parse text = .ok e) :
    aggs.access type path options (some text) =
      aggs.guarded path
        (Evaluation.ofShape options type.shape (SubAgg.evaluateAll options e.subs) aggs.root
          path) := by
  rw [access, parse_eq_ok_iff.mpr parsed]
  rfl

end Aggregations

end AggFlatten
