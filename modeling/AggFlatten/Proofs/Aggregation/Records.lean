import AggFlatten.Proofs.Aggregation.Failures
import AggFlatten.Proofs.Aggregation.Keys
import AggFlatten.Proofs.Aggregation.Reach

/-! What the record of a bucket keeps of it. The key and the count come first, under names that
come from the name of the aggregation and from the options; what the brackets yield is merged
in behind. -/
namespace AggFlatten

open Text (lastSegment)

/-- The record of a bucket, with the key that the bucket is told by and its count. There is one
place for both when they have the same name, and it is the count that stays. -/
structure Bucket.KeptIn (bucket : Bucket) (keyField countField : String)
    (members : Json.Members) : Prop where
  told : bucket.displayKey ≠ .null
  key : keyField ≠ countField → Json.lookup keyField members = some bucket.displayKey
  count : ∃ count, bucket.node.docCount = .ok count ∧ Json.lookup countField members = some count

/-- A list of records, one for each bucket below the path and in the order of the buckets, that
keeps all of them. -/
def KeepsEveryBucket (options : OutputOptions) (tree : Json) (path : String) (result : Json) :
    Prop :=
  ∃ child buckets rows, tree.get path = .ok child ∧ child.buckets = .ok buckets ∧
    result = .arr rows ∧ rows.length = buckets.length ∧
    ∀ (i : Nat) (bucket : Bucket), buckets[i]? = some bucket →
      ∃ members, rows[i]? = some (.obj members) ∧
        bucket.KeptIn (singularize (lastSegment path)) options.countField members

/-- What the brackets yield is an object with none of these keys. -/
def Inside.FreeOf (inside : Inside) (taken : List String) : Prop :=
  ∀ node found, inside node = .ok found → ∃ names, found.HasKeys names ∧ taken.Disjoint names

theorem Inside.freeOf_nothing (taken : List String) : Inside.nothing.FreeOf taken := by
  rintro node found ⟨⟩
  exact ⟨[], ⟨[], rfl, rfl⟩, List.disjoint_nil_right taken⟩

theorem SubAgg.freeOf_evaluateAll {options : OutputOptions} {subs : List SubAgg}
    {taken : List String} (plain : ∀ sub ∈ subs, lastSegment sub.path.name = sub.path.name)
    (other : ∀ sub ∈ subs, sub.outputKey ∉ taken) : (evaluateAll options subs).FreeOf taken := by
  intro node found read
  refine ⟨_, evaluateAll_hasKeys plain read, ?_⟩
  intro key reserved shown
  obtain ⟨sub, member, rfl⟩ := List.mem_map.mp (List.mem_eraseDups.mp shown)
  exact other sub member reserved

namespace Evaluation

variable {options : OutputOptions} {inside : Inside} {keyField path : String} {node row : Json}
  {bucket : Bucket}

theorem keptIn_of_record (free : inside.FreeOf [keyField, options.countField])
    (told : bucket.displayKey ≠ .null)
    (recorded : record options inside keyField bucket = .ok row) :
    ∃ members, row = .obj members ∧ bucket.KeptIn keyField options.countField members := by
  obtain ⟨count, found, counted, yields, rfl⟩ := record_eq_ok_iff.mp recorded
  obtain ⟨_, ⟨source, rfl, rfl⟩, apart⟩ := free _ _ yields
  have fresh : ∀ name ∈ [keyField, options.countField], name ∉ source.map Prod.fst :=
    fun _ reserved => apart reserved
  refine ⟨_, Json.merge_obj, told, ?_, count, counted, ?_⟩
  -- The count is put behind the key, so it takes the place of the key if the names are the same.
  · intro differ
    rw [Json.lookup_mergeMembers_of_fresh (fresh keyField (by simp)), Json.lookup_put,
      if_neg differ.symm, Json.lookup, if_pos rfl]
  · rw [Json.lookup_mergeMembers_of_fresh (fresh options.countField (by simp)), Json.lookup_put,
      if_pos rfl]

theorem keepsEveryBucket_of_records {result : Json}
    (free : inside.FreeOf [singularize (lastSegment path), options.countField])
    (read : records options inside node path = .ok result) :
    KeepsEveryBucket options node path result := by
  obtain ⟨child, buckets, rows, found, listed, filled, rfl⟩ := records_eq_ok_iff.mp read
  refine ⟨child, buckets, rows, found, listed, rfl, filled.length_eq.symm, ?_⟩
  intro i bucket placed
  have told : bucket.displayKey ≠ .null := displayKey_ne_null listed (List.mem_of_getElem? placed)
  obtain ⟨row, at_i, recorded⟩ := Outcome.getElem?_of_forall₂ filled placed
  obtain ⟨members, rfl, kept⟩ := keptIn_of_record free told recorded
  exact ⟨members, at_i, kept⟩

end Evaluation

/-- What is read as buckets comes out as records. In their brackets stands the expression that
was given, if any, and so none of the keys that it has none of. -/
theorem Aggregations.records_of_access {aggs : Aggregations} {type : AggType} {path : String}
    {options : OutputOptions} {within : Option String} {taken : List String} {result : Json}
    (listed : type.shape = .buckets)
    (other : ∀ text ∈ within, ∀ e, Expression.parse text = .ok e →
      ∀ sub ∈ e.subs, sub.outputKey ∉ taken)
    (read : aggs.access type path options within = .ok result) :
    ∃ inside : Inside, inside.FreeOf taken ∧
      Evaluation.records options inside aggs.root path = .ok result := by
  cases within with
  | none =>
    rw [access_none, guarded_eq_ok_iff, listed] at read
    exact ⟨.nothing, Inside.freeOf_nothing taken, read⟩
  | some text =>
    cases parsed : Expression.parse text with
    | error cause =>
      rw [access_of_malformed type parsed] at read
      cases read
    | ok e =>
      rw [access_of_parse type parsed, guarded_eq_ok_iff, listed] at read
      exact ⟨_, SubAgg.freeOf_evaluateAll (plain_of_parse parsed) (other text rfl e parsed), read⟩

/-- Every bucket has a record in its place, with its count under the name for counts, and with
the key it is told by under the singular of the name where this is a name of its own. -/
theorem records_keep_key_and_count {tree : Json} {type : AggType} {path : String}
    {options : OutputOptions} {within : Option String} {result : Json}
    (listed : type.shape = .buckets)
    (other : ∀ text ∈ within, ∀ e, Expression.parse text = .ok e → ∀ sub ∈ e.subs,
      sub.outputKey ∉ [singularize (lastSegment path), options.countField])
    (read : (⟨tree⟩ : Aggregations).access type path options within = .ok result) :
    KeepsEveryBucket options tree path result := by
  obtain ⟨inside, free, records⟩ := Aggregations.records_of_access listed other read
  exact Evaluation.keepsEveryBucket_of_records free records

/-- A color that was seen three times. -/
def redNode : Json :=
  .obj [("key", .str "red"), ("doc_count", .nat 3), ("load", .single "value" (.nat 7))]

def listedUnder (name : String) : Json :=
  .single name (.single "buckets" (.arr [redNode]))

theorem colors_keep_their_keys :
    AggType.terms.shape = .buckets ∧
      (∀ text ∈ some "load", ∀ e, Expression.parse text = .ok e → ∀ sub ∈ e.subs,
        sub.outputKey ∉ [singularize (lastSegment "colors"), "count"]) ∧
      (⟨listedUnder "colors"⟩ : Aggregations).access .terms "colors" {} (some "load") =
        .ok (.arr [.obj [("color", .str "red"), ("count", .nat 3), ("load", .nat 7)]]) ∧
      KeepsEveryBucket {} (listedUnder "colors") "colors"
        (.arr [.obj [("color", .str "red"), ("count", .nat 3), ("load", .nat 7)]]) := by
  have parsed : Expression.parse "load" = .ok ⟨"load", [.bare .value ⟨[], "load"⟩]⟩ := by
    decide +kernel
  have other : ∀ text ∈ some "load", ∀ e, Expression.parse text = .ok e → ∀ sub ∈ e.subs,
      sub.outputKey ∉ [singularize (lastSegment "colors"), "count"] := by
    rintro text ⟨⟩ e read
    obtain rfl := Except.ok.inj (parsed.symm.trans read)
    decide +kernel
  have read : (⟨listedUnder "colors"⟩ : Aggregations).access .terms "colors" {} (some "load") =
      .ok (.arr [.obj [("color", .str "red"), ("count", .nat 3), ("load", .nat 7)]]) := by
    decide +kernel
  exact ⟨rfl, other, read, records_keep_key_and_count rfl other read⟩

/-- The singular of these is the name for counts, so that no record tells its bucket. -/
theorem counts_lose_their_keys :
    (⟨listedUnder "counts"⟩ : Aggregations).access .terms "counts" {} none =
        .ok (.arr [.obj [("count", .nat 3)]]) ∧
      (Json.single "buckets" (.arr [redNode])).buckets = .ok [⟨.nat 0, redNode⟩] ∧
      Json.lookup (singularize (lastSegment "counts")) [("count", .nat 3)] ≠
        some (Bucket.displayKey ⟨.nat 0, redNode⟩) := by
  decide +kernel

end AggFlatten
