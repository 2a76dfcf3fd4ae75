import AggFlatten.Proofs.Json.Reading

/-! Merging, path by path. What a merge holds under a sequence of keys depends on what its two
sides hold there alone, except that a source which holds something else than an object on the
way cuts off whatever the target has behind it. -/
namespace AggFlatten.Json

/-- What a sequence of keys leads to, from object to object. -/
def under? (doc : Json) : (keys : List String) → Option Json
  | [] => some doc
  | key :: rest =>
    match doc with
    | .obj members => (lookup key members).bind (·.under? rest)
    | _ => none

/-- Whatever the keys meet on their way, up to where they lead, is an object. -/
def OpenAlong (doc : Json) (keys : List String) : Prop :=
  ∀ front, front <+: keys → ∀ found, doc.under? front = some found → found.isObject = true

/-- What a merge holds under the keys: of two values the merge, of one that only the source
holds this one, and of one that only the target holds this one if the source lets it stand. -/
structure MergedUnder (target source : Json) (keys : List String) : Prop where
  both : ∀ {old new}, target.under? keys = some old → source.under? keys = some new →
    (target.merge source).under? keys = some (old.merge new)
  new : ∀ {new}, target.under? keys = none → source.under? keys = some new →
    (target.merge source).under? keys = some new
  kept_iff : source.under? keys = none → ∀ {old}, (target.merge source).under? keys = some old ↔
    target.under? keys = some old ∧ target.isObject = true ∧ source.isObject = true ∧
      source.OpenAlong keys

/-- The members of a merge stand where those of the target do, and behind them come the others
of the source. -/
structure InOrder (members entries merged : Members) : Prop where
  keys : merged.map Prod.fst =
    members.map Prod.fst ++ (entries.map Prod.fst).filter (· ∉ members.map Prod.fst)
  distinct : (merged.map Prod.fst).Nodup

section under

variable {doc target source : Json} {members entries : Members} {key : String}
  {keys rest : List String}

theorem under?_obj : (obj members).under? (key :: rest) =
    (lookup key members).bind (·.under? rest) := by
  rw [under?]

theorem isObject_of_under? {found : Json} (led : doc.under? (key :: rest) = some found) :
    doc.isObject = true := by
  cases doc with
  | obj members => rfl
  | null | bool _ | num _ | str _ | arr _ => cases led

/-- Unless both are objects, keys lead through the source alone. -/
theorem under?_merge_of_not_objects (other : ¬(target.isObject = true ∧ source.isObject = true)) :
    (target.merge source).under? (key :: rest) = source.under? (key :: rest) := by
  by_cases joins : Joins target source
  · rcases joins with objects | ⟨_, list⟩
    · exact absurd objects other
    · have list' : (target.merge source).isList = true := by rwa [isList_merge]
      have nowhere : ∀ {doc : Json}, doc.isList = true → doc.under? (key :: rest) = none := by
        intro doc list
        cases doc with
        | arr items => rfl
        | null | bool _ | num _ | str _ | obj _ => cases list
      rw [nowhere list, nowhere list']
  · rw [merge_of_not_joins joins]

theorem under?_merge_obj (distinct : Distinct (.obj entries)) :
    ((obj members).merge (.obj entries)).under? (key :: rest) =
      ((lookup key members).merge merge (lookup key entries)).bind (·.under? rest) := by
  rw [merge_obj, under?_obj, lookup_mergeMembers_of_nodup distinct.keys]

theorem OpenAlong.isObject (along : doc.OpenAlong keys) : doc.isObject = true :=
  along [] List.nil_prefix doc rfl

theorem openAlong_obj_iff : (obj members).OpenAlong (key :: rest) ↔
    ∀ held ∈ lookup key members, held.OpenAlong rest := by
  constructor
  · intro along held present front start found led
    refine along (key :: front) (List.cons_prefix_cons.mpr ⟨rfl, start⟩) found ?_
    rw [under?_obj, Option.mem_def.mp present]
    exact led
  · intro along front start found led
    cases front with
    | nil =>
      obtain rfl := Option.some.inj led
      rfl
    | cons first front =>
      obtain ⟨rfl, further⟩ := List.cons_prefix_cons.mp start
      rw [under?_obj] at led
      obtain ⟨held, present, led⟩ := Option.bind_eq_some_iff.mp led
      exact along held present front further found led

end under

section merge

variable {target source : Json} {keys : List String}

theorem under?_merge_of_some {new : Json} (distinct : source.Distinct)
    (led : source.under? keys = some new) :
    (target.merge source).under? keys = some ((target.under? keys).elim new (·.merge new)) := by
  induction keys generalizing target source with
  | nil =>
    obtain rfl := Option.some.inj led
    rfl
  | cons key rest ih =>
    obtain ⟨entries, rfl⟩ := isObject_iff.mp (isObject_of_under? led)
    cases target with
    | obj members =>
      rw [under?_merge_obj distinct, under?_obj]
      rw [under?_obj] at led
      obtain ⟨held, present, led⟩ := Option.bind_eq_some_iff.mp led
      rw [present]
      cases lookup key members with
      | none => exact led
      | some old => exact ih (distinct.of_lookup present) led
    | null | bool _ | num _ | str _ | arr _ =>
      rw [under?_merge_of_not_objects (by rintro ⟨⟨⟩, _⟩), led]
      rfl

theorem under?_merge_of_none (distinct : source.Distinct) (absent : source.under? keys = none)
    {old : Json} : (target.merge source).under? keys = some old ↔
      target.under? keys = some old ∧ source.OpenAlong keys := by
  induction keys generalizing target source with
  | nil => cases absent
  | cons key rest ih =>
    by_cases objects : target.isObject = true ∧ source.isObject = true
    · obtain ⟨⟨members, rfl⟩, entries, rfl⟩ := objects.imp isObject_iff.mp isObject_iff.mp
      rw [under?_merge_obj distinct, under?_obj, openAlong_obj_iff]
      rw [under?_obj] at absent
      cases present : lookup key entries with
      | none => simp [Option.merge_none_right]
      | some held =>
        rw [present] at absent
        cases lookup key members with
        | none => simp_all
        | some value => simpa using @ih value held (distinct.of_lookup present) absent
    · rw [under?_merge_of_not_objects objects, absent]
      constructor
      · exact nofun
      · rintro ⟨led, along⟩
        exact absurd ⟨isObject_of_under? led, along.isObject⟩ objects

theorem mergedUnder (target : Json) (distinct : source.Distinct) (given : keys ≠ []) :
    MergedUnder target source keys where
  both old new := by rw [under?_merge_of_some distinct new, old]; rfl
  new old new := by rw [under?_merge_of_some distinct new, old]; rfl
  kept_iff absent old := by
    rw [under?_merge_of_none distinct absent]
    constructor
    · rintro ⟨led, along⟩
      obtain ⟨key, rest, rfl⟩ := List.exists_cons_of_ne_nil given
      exact ⟨led, isObject_of_under? led, along.isObject, along⟩
    · rintro ⟨led, _, _, along⟩
      exact ⟨led, along⟩

end merge

theorem inOrder_mergeMembers {members entries : Members} (distinct : (members.map Prod.fst).Nodup)
    (distinct' : (entries.map Prod.fst).Nodup) :
    InOrder members entries (mergeMembers members entries) where
  keys := keys_mergeMembers_of_nodup distinct distinct'
  distinct := nodup_keys_mergeMembers distinct

theorem Distinct.under {doc found : Json} {keys : List String} (distinct : doc.Distinct)
    (led : doc.under? keys = some found) : found.Distinct := by
  induction keys generalizing doc with
  | nil =>
    obtain rfl := Option.some.inj led
    exact distinct
  | cons key rest ih =>
    obtain ⟨members, rfl⟩ := isObject_iff.mp (isObject_of_under? led)
    rw [under?_obj] at led
    obtain ⟨held, present, led⟩ := Option.bind_eq_some_iff.mp led
    exact ih (distinct.of_lookup present) led

/-- A merge holds under every path what its two sides have there: the merge of both, the value
of the source, or that of the target where the source is an object all along the way. Where both
have objects, their keys come in order and no key comes twice; where both have lists, one is
behind the other. No key comes twice in a merge of such documents, nor in one that is read. -/
theorem merge_goes_path_by_path {target source : Json} (distinct : target.Distinct)
    (distinct' : source.Distinct) :
    (∀ keys, keys ≠ [] → MergedUnder target source keys) ∧
    (∀ (keys : List String) (members entries : Members),
      target.under? keys = some (.obj members) → source.under? keys = some (.obj entries) →
        ∃ merged, (target.merge source).under? keys = some (.obj merged) ∧
          InOrder members entries merged) ∧
    (∀ (keys : List String) (items more : List Json),
      target.under? keys = some (.arr items) → source.under? keys = some (.arr more) →
        (target.merge source).under? keys = some (.arr (items ++ more))) ∧
    (target.merge source).Distinct ∧
    ∀ text doc, parse text = .ok doc → doc.Distinct := by
  refine ⟨fun keys => mergedUnder target distinct', ?_, ?_,
    distinct_merge source distinct distinct', fun _ _ => distinct_of_parse⟩
  · intro keys members entries led led'
    refine ⟨mergeMembers members entries, ?_,
      inOrder_mergeMembers (distinct.under led).keys (distinct'.under led').keys⟩
    rw [under?_merge_of_some distinct' led', led, Option.elim_some, merge_obj]
  · intro keys items more led led'
    rw [under?_merge_of_some distinct' led', led, Option.elim_some, merge]

/-- A load and its rows, and a site that is a number or an object. -/
def loadAndSite : Json :=
  .obj [("load", .obj [("count", .nat 1), ("rows", .arr [.nat 1])]), ("site", .single "name" (.nat 2))]

def loadAndNumber : Json :=
  .obj [("site", .nat 3), ("load", .obj [("rows", .arr [.nat 4]), ("rate", .nat 5)]),
    ("host", .nat 6)]

theorem load_is_merged_and_site_replaced :
    loadAndSite.Distinct ∧ loadAndNumber.Distinct ∧
      MergedUnder loadAndSite loadAndNumber ["load", "count"] ∧
      MergedUnder loadAndSite loadAndNumber ["site", "name"] ∧
      (∃ merged, (loadAndSite.merge loadAndNumber).under? ["load"] = some (.obj merged) ∧
        InOrder [("count", .nat 1), ("rows", .arr [.nat 1])]
          [("rows", .arr [.nat 4]), ("rate", .nat 5)] merged) ∧
      (loadAndSite.merge loadAndNumber).under? ["load", "rows"] =
        some (.arr [.nat 1, .nat 4]) := by
  have distinct : loadAndSite.Distinct := by decide +kernel
  have distinct' : loadAndNumber.Distinct := by decide +kernel
  obtain ⟨under, objects, lists, _⟩ := merge_goes_path_by_path distinct distinct'
  exact ⟨distinct, distinct', under _ (by decide), under _ (by decide),
    objects ["load"] _ _ rfl rfl, lists ["load", "rows"] [.nat 1] [.nat 4] rfl rfl⟩

/-- The name of the site is gone, and the rest stands in the order of the first document. -/
example : loadAndSite.merge loadAndNumber =
    .obj [("load", .obj [("count", .nat 1), ("rows", .arr [.nat 1, .nat 4]), ("rate", .nat 5)]),
      ("site", .nat 3), ("host", .nat 6)] := by
  decide +kernel

end AggFlatten.Json
