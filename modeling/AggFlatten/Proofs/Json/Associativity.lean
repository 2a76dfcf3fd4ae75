import AggFlatten.Proofs.Json.Reading

/-! Merging one document after another. It does not matter which two are merged first, as long
as no document between two objects or two lists is of another kind, here or under a key. -/
namespace AggFlatten.Json

/-- Between two lists stands a list, and between two objects an object, and so under every key
that all three have. -/
inductive Compatible : Json → Json → Json → Prop where
  | lists {xs ys zs : List Json} : Compatible (.arr xs) (.arr ys) (.arr zs)
  | objects {xs ys zs : Members} (shared : ∀ {key a b c}, lookup key xs = some a →
      lookup key ys = some b → lookup key zs = some c → Compatible a b c) :
      Compatible (.obj xs) (.obj ys) (.obj zs)
  | apart {a b c : Json} (apart : ¬Joins a c) : Compatible a b c

variable {a b c : Json} {members entries more : Members}

/-- Where nothing of the first is kept by the last, the one between decides alone what is. -/
theorem merge_assoc_of_not_joins (apart : ¬Joins a c) :
    (a.merge b).merge c = a.merge (b.merge c) := by
  by_cases joins : Joins b c
  · have first : ¬Joins a b := fun both => apart (both.trans joins)
    rw [merge_of_not_joins first, merge_of_not_joins (joins_merge_right.not.mpr apart)]
  · have last : ¬Joins (a.merge b) c := joins_merge_left.not.mpr joins
    rw [merge_of_not_joins last, merge_of_not_joins joins, merge_of_not_joins apart]

theorem keys_mergeMembers_assoc (distinct : (members.map Prod.fst).Nodup)
    (distinct' : (entries.map Prod.fst).Nodup) :
    (mergeMembers (mergeMembers members entries) more).map Prod.fst =
      (mergeMembers members (mergeMembers entries more)).map Prod.fst := by
  rw [keys_mergeMembers (nodup_keys_mergeMembers distinct), keys_mergeMembers distinct,
    keys_mergeMembers distinct, keys_mergeMembers distinct', eraseDups_eraseDups_append,
    eraseDups_append_eraseDups, List.append_assoc]

theorem mergeMembers_assoc (distinct : Distinct (.obj members)) (distinct' : Distinct (.obj entries))
    (distinct'' : Distinct (.obj more))
    (shared : ∀ {key a b c}, lookup key members = some a → lookup key entries = some b →
      lookup key more = some c → (a.merge b).merge c = a.merge (b.merge c)) :
    mergeMembers (mergeMembers members entries) more =
      mergeMembers members (mergeMembers entries more) := by
  have first := distinct_mergeMembers entries distinct distinct'
  have last := distinct_mergeMembers more distinct' distinct''
  refine members_ext (distinct_mergeMembers more first distinct'').keys
    (keys_mergeMembers_assoc distinct.keys distinct'.keys) ?_
  intro key
  rw [lookup_mergeMembers_of_nodup distinct''.keys, lookup_mergeMembers_of_nodup distinct'.keys,
    lookup_mergeMembers_of_nodup last.keys, lookup_mergeMembers_of_nodup distinct''.keys]
  -- Only a key of all three asks for anything; any other is found in two of them at most.
  cases found : lookup key members with
  | none => rw [Option.merge_none_left, Option.merge_none_left]
  | some a =>
    cases found' : lookup key entries with
    | none => rw [Option.merge_none_right, Option.merge_none_left]
    | some b =>
      cases found'' : lookup key more with
      | none => rw [Option.merge_none_right, Option.merge_none_right]
      | some c => exact congrArg some (shared found found' found'')

theorem merge_assoc_of_compatible (compatible : Compatible a b c) (distinct : a.Distinct)
    (distinct' : b.Distinct) (distinct'' : c.Distinct) :
    (a.merge b).merge c = a.merge (b.merge c) := by
  induction compatible with
  | lists => simp only [merge, List.append_assoc]
  | objects _ ih =>
    simp only [merge_obj]
    rw [mergeMembers_assoc distinct distinct' distinct'']
    intro key a b c found found' found''
    exact ih found found' found'' (distinct.of_lookup found) (distinct'.of_lookup found')
      (distinct''.of_lookup found'')
  | apart apart => exact merge_assoc_of_not_joins apart

theorem empty_merge (distinct : Distinct (.obj members)) :
    empty.merge (.obj members) = .obj members := by
  have keys : (mergeMembers [] members).map Prod.fst = members.map Prod.fst := by
    rw [@keys_mergeMembers [] members List.nodup_nil, List.map_nil, List.nil_append,
      eraseDups_of_nodup distinct.keys]
  rw [empty, merge_obj, members_ext (keys ▸ distinct.keys) keys]
  intro key
  rw [lookup_mergeMembers_of_nodup distinct.keys, lookup, Option.merge_none_left]

theorem merge_empty (members : Members) : (obj members).merge .empty = .obj members := by
  rw [empty, merge_obj, mergeMembers]

/-- Compatible documents may be merged from the left or from the right, and the empty object
changes no object from either side. All of it is about documents without a key that comes
twice, as those that are read are. -/
theorem compatible_merges_associate :
    (∀ a b c : Json, a.Distinct → b.Distinct → c.Distinct → Compatible a b c →
      (a.merge b).merge c = a.merge (b.merge c)) ∧
    (∀ members : Members, Distinct (.obj members) →
      empty.merge (.obj members) = .obj members ∧ (obj members).merge .empty = .obj members) ∧
    ∀ text doc, parse text = .ok doc → doc.Distinct := by
  refine ⟨?_, ?_, fun _ _ => distinct_of_parse⟩
  · intro a b c distinct distinct' distinct'' compatible
    exact merge_assoc_of_compatible compatible distinct distinct' distinct''
  · intro members distinct
    exact ⟨empty_merge distinct, merge_empty members⟩

/-- It is enough to go through the members of the first object. -/
theorem Compatible.of_members {xs ys zs : Members}
    (each : ∀ entry ∈ xs, ∀ b ∈ lookup entry.1 ys, ∀ c ∈ lookup entry.1 zs,
      Compatible entry.2 b c) : Compatible (.obj xs) (.obj ys) (.obj zs) :=
  .objects fun found found' found'' => each _ (mem_of_lookup found) _ found' _ found''

/-- A day with its hours, and with a load of its own. -/
def loadedDay (hours load : Json) : Json :=
  .obj [("hours", hours), ("load", load)]

/-- The rows of an hour, and another count of it. -/
def countedRows (row : Nat) (name : String) : Json :=
  .obj [("rows", .arr [.nat row]), (name, .nat 9)]

theorem loaded_days_associate :
    let monday := loadedDay (countedRows 1 "count") .null
    let tuesday := loadedDay (countedRows 2 "rate") (.arr [.nat 3])
    let wednesday := loadedDay (countedRows 4 "count") (.nat 5)
    monday.Distinct ∧ tuesday.Distinct ∧ wednesday.Distinct ∧
      Compatible monday tuesday wednesday ∧
      (monday.merge tuesday).merge wednesday = monday.merge (tuesday.merge wednesday) ∧
      empty.merge monday = monday ∧ monday.merge .empty = monday := by
  intro monday tuesday wednesday
  have distinct : monday.Distinct ∧ tuesday.Distinct ∧ wednesday.Distinct := by decide +kernel
  have hours : Compatible (countedRows 1 "count") (countedRows 2 "rate") (countedRows 4 "count") := by
    apply Compatible.of_members
    simpa [lookup] using Compatible.lists
  have load : Compatible .null (.arr [.nat 3]) (.nat 5) :=
    .apart (by rintro (⟨⟨⟩, _⟩ | ⟨⟨⟩, _⟩))
  have days : Compatible monday tuesday wednesday := by
    apply Compatible.of_members
    simpa [lookup] using ⟨hours, load⟩
  obtain ⟨assoc, identity, _⟩ := compatible_merges_associate
  exact ⟨distinct.1, distinct.2.1, distinct.2.2, days,
    assoc _ _ _ distinct.1 distinct.2.1 distinct.2.2 days, identity _ distinct.1⟩

/-- A number between two lists keeps them apart, unless it meets the second list first. -/
example : ((arr [.nat 1]).merge (.nat 2)).merge (.arr [.nat 3]) ≠
    (arr [.nat 1]).merge ((nat 2).merge (.arr [.nat 3])) := by
  decide +kernel

end AggFlatten.Json
