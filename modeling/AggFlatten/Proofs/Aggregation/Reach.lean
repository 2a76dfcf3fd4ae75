import AggFlatten.Proofs.Aggregation.Outcomes
import AggFlatten.Proofs.Json.Within

/-! What is read of a tree is held in it: the scope of a name, the buckets of a node, and the
key of a bucket, unless the bucket is told by its place. -/
namespace AggFlatten

open Json (Within)

theorem NamePath.within_scopeIn (path : NamePath) (node : Json) :
    Within (path.scopeIn node) node := by
  rw [scopeIn]
  cases reached : node.follow? path.scope with
  | none => exact .here
  | some found => exact Json.within_of_follow? reached

/-- A bucket of an object, told by its position in a list or by its key. -/
inductive HasBucket (members : Json.Members) : Bucket → Prop where
  | listed {items : List Json} {i : Nat} {node : Json}
      (found : Json.lookup "buckets" members = some (.arr items)) (placed : items[i]? = some node) :
      HasBucket members ⟨.nat i, node⟩
  | keyed {entries : Json.Members} {key : String} {node : Json}
      (found : Json.lookup "buckets" members = some (.obj entries))
      (member : (key, node) ∈ entries) : HasBucket members ⟨.str key, node⟩

theorem hasBucket_of_buckets {node : Json} {buckets : List Bucket} {bucket : Bucket}
    (found : node.buckets = .ok buckets) (member : bucket ∈ buckets) :
    ∃ members, node = .obj members ∧ HasBucket members bucket := by
  obtain ⟨held, got, found⟩ := Outcome.bind_eq_ok_iff.mp found
  obtain ⟨members, rfl, present⟩ :=
    (Json.get_name_eq_ok_iff (by decide +kernel) (by decide +kernel)).mp got
  refine ⟨members, rfl, ?_⟩
  split at found
  · cases found
    obtain ⟨i, inside, rfl⟩ := List.mem_mapIdx.mp member
    exact .listed present (List.getElem?_eq_getElem inside)
  · cases found
    obtain ⟨⟨key, item⟩, among, rfl⟩ := List.mem_map.mp member
    exact .keyed present among
  · cases found

theorem HasBucket.within {members : Json.Members} {bucket : Bucket}
    (has : HasBucket members bucket) : Within bucket.node (.obj members) := by
  cases has with
  | listed found placed =>
    exact .under (Json.mem_of_lookup found) (.item (List.mem_of_getElem? placed) .here)
  | keyed found member => exact .under (Json.mem_of_lookup found) (.under member .here)

theorem within_of_buckets {node : Json} {buckets : List Bucket} {bucket : Bucket}
    (found : node.buckets = .ok buckets) (member : bucket ∈ buckets) : Within bucket.node node := by
  obtain ⟨members, rfl, has⟩ := hasBucket_of_buckets found member
  exact has.within

namespace Bucket

variable {bucket : Bucket} {name : String} {value : Json}

theorem within_of_field? (present : bucket.field? name = some value) :
    Within value bucket.node := by
  rw [field?] at present
  split at present
  · next members same =>
    rw [same]
    exact .under (Json.mem_of_lookup (Option.filter_eq_some_iff.mp present).1) .here
  · cases present

theorem ne_null_of_field? (present : bucket.field? name = some value) : value ≠ .null := by
  rw [field?] at present
  split at present
  · rintro rfl
    cases (Option.filter_eq_some_iff.mp present).2
  · cases present

/-- A bucket that holds no key of its own is told by its place. -/
theorem displayKey_cases (bucket : Bucket) :
    (∃ name, bucket.field? name = some bucket.displayKey) ∨
      bucket.displayKey = bucket.fallback := by
  rw [displayKey]
  cases text : bucket.field? "key_as_string" with
  | some value => exact .inl ⟨_, text⟩
  | none =>
    cases plain : bucket.field? "key" with
    | some value => exact .inl ⟨_, plain⟩
    | none => exact .inr rfl

end Bucket

/-- No bucket is without a key to tell it by. -/
theorem displayKey_ne_null {node : Json} {buckets : List Bucket} {bucket : Bucket}
    (found : node.buckets = .ok buckets) (member : bucket ∈ buckets) :
    bucket.displayKey ≠ .null := by
  rcases bucket.displayKey_cases with ⟨name, own⟩ | placed
  · exact Bucket.ne_null_of_field? own
  · rw [placed]
    obtain ⟨members, _, has⟩ := hasBucket_of_buckets found member
    cases has with
    | listed | keyed => exact nofun

end AggFlatten
