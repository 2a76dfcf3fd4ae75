import AggFlatten.Proofs.Json.Merge
import AggFlatten.Proofs.Json.Within

/-! Documents in which no object has a key twice. Merging keeps to them, and an object of this
kind is known from its keys, in their order, and from what stands under each of them. -/
namespace AggFlatten.Json

/-- No object in the document has a key twice. -/
def Distinct (doc : Json) : Prop :=
  ∀ members : Members, Within (.obj members) doc → (members.map Prod.fst).Nodup

section Members

variable {members source : Members} {key : String} {value : Json}

theorem lookup_eq_none_iff : lookup key members = none ↔ key ∉ members.map Prod.fst := by
  induction members with
  | nil => simp [lookup]
  | cons entry members ih =>
    obtain ⟨name, held⟩ := entry
    rw [lookup, List.map_cons, List.mem_cons, not_or, ← ih]
    by_cases same : name = key
    · simp [same]
    · simp [same, Ne.symm same]

theorem valuesAt_of_nodup (distinct : (members.map Prod.fst).Nodup) :
    valuesAt key members = (lookup key members).toList := by
  induction members with
  | nil => rfl
  | cons entry members ih =>
    obtain ⟨name, held⟩ := entry
    obtain ⟨fresh, distinct⟩ := List.nodup_cons.mp distinct
    have further := ih distinct
    by_cases same : name = key
    · subst same
      rw [lookup_eq_none_iff.mpr fresh] at further
      simpa [valuesAt, lookup] using further
    · simpa [valuesAt, lookup, same] using further

/-- Two values under one key are merged, and one alone stays as it is. -/
theorem lookup_mergeMembers_of_nodup (distinct : (source.map Prod.fst).Nodup) :
    lookup key (mergeMembers members source) =
      (lookup key members).merge merge (lookup key source) := by
  rw [lookup_mergeMembers, valuesAt_of_nodup distinct]
  cases lookup key members <;> cases lookup key source <;> rfl

theorem keys_mergeMembers_of_nodup (distinct : (members.map Prod.fst).Nodup)
    (distinct' : (source.map Prod.fst).Nodup) :
    (mergeMembers members source).map Prod.fst =
      members.map Prod.fst ++ (source.map Prod.fst).filter (· ∉ members.map Prod.fst) := by
  have fresh : (source.map Prod.fst).removeAll (members.map Prod.fst) =
      (source.map Prod.fst).filter (· ∉ members.map Prod.fst) := by
    simp [List.removeAll]
  rw [keys_mergeMembers distinct, List.eraseDups_append, eraseDups_of_nodup distinct, fresh,
    eraseDups_of_nodup (distinct'.filter _)]

/-- Members with the same keys, in the same order, and the same value under each of them. -/
theorem members_ext (distinct : (members.map Prod.fst).Nodup)
    (keys : members.map Prod.fst = source.map Prod.fst)
    (values : ∀ key, lookup key members = lookup key source) : members = source := by
  induction members generalizing source with
  | nil => exact (List.map_eq_nil_iff.mp keys.symm).symm
  | cons entry members ih =>
    cases source with
    | nil => cases keys
    | cons entry' source =>
      obtain ⟨name, held⟩ := entry
      obtain ⟨name', held'⟩ := entry'
      obtain ⟨rfl, others⟩ := List.cons.inj keys
      obtain ⟨fresh, distinct⟩ := List.nodup_cons.mp distinct
      have first := values name
      rw [lookup, lookup, if_pos rfl, if_pos rfl] at first
      obtain rfl := Option.some.inj first
      rw [ih distinct others]
      intro key
      by_cases same : name = key
      · subst same
        rw [lookup_eq_none_iff.mpr fresh, lookup_eq_none_iff.mpr (others ▸ fresh)]
      · have later := values key
        rwa [lookup, lookup, if_neg same, if_neg same] at later

end Members

section Distinct

variable {doc inner target source : Json} {items : List Json} {members entries : Members}
  {key : String} {value : Json}

theorem Distinct.of_within (distinct : doc.Distinct) (held : Within inner doc) : inner.Distinct :=
  fun members within => distinct members (within.trans held)

theorem distinct_of_isScalar (scalar : doc.isScalar = true) : doc.Distinct := by
  intro members held
  obtain rfl := held.eq_of_isScalar scalar
  cases scalar

theorem distinct_arr_iff : Distinct (.arr items) ↔ ∀ item ∈ items, item.Distinct := by
  constructor
  · exact fun distinct item member => distinct.of_within (.item member .here)
  · intro each members held
    rcases Within.arr_iff.mp held with other | ⟨item, member, inside⟩
    · cases other
    · exact each item member members inside

theorem distinct_obj_iff : Distinct (.obj members) ↔
    (members.map Prod.fst).Nodup ∧ ∀ entry ∈ members, entry.2.Distinct := by
  constructor
  · intro distinct
    exact ⟨distinct members .here,
      fun entry member => distinct.of_within (.under member .here)⟩
  · rintro ⟨distinct, each⟩ inner held
    rcases Within.obj_iff.mp held with same | ⟨entry, member, inside⟩
    · obtain rfl := obj.inj same
      exact distinct
    · exact each entry member inner inside

mutual

private def decDistinct : (doc : Json) → Decidable doc.Distinct
  | .null | .bool _ | .num _ | .str _ => .isTrue (distinct_of_isScalar rfl)
  | .arr items =>
    let := decDistinctItems items
    decidable_of_iff _ distinct_arr_iff.symm
  | .obj members =>
    let := decDistinctMembers members
    decidable_of_iff _ distinct_obj_iff.symm

private def decDistinctItems : (items : List Json) → Decidable (∀ item ∈ items, item.Distinct)
  | [] => .isTrue nofun
  | item :: items =>
    let := decDistinct item
    let := decDistinctItems items
    decidable_of_iff _ List.forall_mem_cons.symm

private def decDistinctMembers :
    (members : Members) → Decidable (∀ entry ∈ members, entry.2.Distinct)
  | [] => .isTrue nofun
  | (_, value) :: members =>
    let := decDistinct value
    let := decDistinctMembers members
    decidable_of_iff (value.Distinct ∧ ∀ entry ∈ members, entry.2.Distinct) (by simp)

end

instance : DecidablePred Distinct := decDistinct

theorem Distinct.of_cons (distinct : Distinct (.obj ((key, value) :: members))) :
    value.Distinct ∧ Distinct (.obj members) := by
  obtain ⟨keys, each⟩ := distinct_obj_iff.mp distinct
  obtain ⟨first, rest⟩ := List.forall_mem_cons.mp each
  exact ⟨first, distinct_obj_iff.mpr ⟨(List.nodup_cons.mp keys).2, rest⟩⟩

theorem Distinct.keys (distinct : Distinct (.obj members)) : (members.map Prod.fst).Nodup :=
  (distinct_obj_iff.mp distinct).1

theorem Distinct.of_lookup (distinct : Distinct (.obj members))
    (found : lookup key members = some value) : value.Distinct :=
  distinct.of_within (.under (mem_of_lookup found) .here)

theorem distinct_put (whole : Distinct (.obj members)) (distinct : value.Distinct) :
    Distinct (.obj (put key value members)) := by
  refine distinct_obj_iff.mpr ⟨nodup_keys_put value whole.keys, ?_⟩
  replace whole := (distinct_obj_iff.mp whole).2
  induction members with
  | nil => simpa [put] using distinct
  | cons entry members ih =>
    obtain ⟨first, rest⟩ := List.forall_mem_cons.mp whole
    rw [put]
    split
    · exact List.forall_mem_cons.mpr ⟨distinct, rest⟩
    · exact List.forall_mem_cons.mpr ⟨first, ih rest⟩

mutual

theorem distinct_merge : (source : Json) → {target : Json} → target.Distinct → source.Distinct →
    (target.merge source).Distinct
  | .obj entries, target, into, distinct => by
    cases target with
    | obj members =>
      rw [merge]
      exact distinct_mergeMembers entries into distinct
    | null | bool _ | num _ | str _ | arr _ => simpa [merge] using distinct
  | .arr items, target, into, distinct => by
    cases target with
    | arr items' =>
      rw [distinct_arr_iff] at into distinct
      rw [merge, distinct_arr_iff]
      exact List.forall_mem_append.mpr ⟨into, distinct⟩
    | null | bool _ | num _ | str _ | obj _ => simpa [merge] using distinct
  | .null, _, _, distinct | .bool _, _, _, distinct | .num _, _, _, distinct
  | .str _, _, _, distinct => by
    simpa [merge] using distinct

theorem distinct_mergeMembers : (entries : Members) → {members : Members} →
    Distinct (.obj members) → Distinct (.obj entries) →
    Distinct (.obj (mergeMembers members entries))
  | [], members, into, _ => by rwa [mergeMembers]
  | (key, value) :: entries, members, into, distinct => by
    obtain ⟨distinct, rest⟩ := distinct.of_cons
    rw [mergeMembers]
    refine distinct_mergeMembers entries (distinct_put into ?_) rest
    split
    · next old present => exact distinct_merge value (into.of_lookup present) distinct
    · exact distinct

end

end Distinct

end AggFlatten.Json
