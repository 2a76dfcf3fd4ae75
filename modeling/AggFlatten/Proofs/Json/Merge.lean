import AggFlatten.Json.Merge
import Mathlib.Data.List.Nodup

/-! Merging, key by key. The keys of a merge stand where they first appear, and the value
under a key is what all values under it give when they are merged in their order. -/
namespace AggFlatten

section Repeats

variable {α : Type} [BEq α] [LawfulBEq α] {xs ys : List α} {x : α}

/-- Repeats may be dropped before or after a choice among the elements. -/
theorem eraseDups_filter (p : α → Bool) (xs : List α) :
    (xs.filter p).eraseDups = xs.eraseDups.filter p := by
  induction size : xs.length using Nat.strongRecOn generalizing xs with
  | ind n ih =>
    subst size
    cases xs with
    | nil => rfl
    | cons x xs =>
      have shorter : (xs.filter fun y => !y == x).length < (x :: xs).length :=
        Nat.lt_succ_of_le (List.length_filter_le _ _)
      have later := ih _ shorter _ rfl
      rw [List.eraseDups_cons]
      by_cases chosen : p x = true
      · rw [List.filter_cons_of_pos chosen, List.filter_cons_of_pos chosen, List.eraseDups_cons,
          List.filter_comm, later]
      · have apart : (xs.filter fun y => !y == x).filter p = xs.filter p := by
          rw [List.filter_filter]
          apply List.filter_congr
          intro y _
          by_cases same : y = x
          · simp [same, chosen]
          · simp [same]
        rw [List.filter_cons_of_neg chosen, List.filter_cons_of_neg chosen, ← later, apart]

theorem nodup_eraseDups (xs : List α) : xs.eraseDups.Nodup := by
  induction xs with
  | nil => simp
  | cons x xs ih =>
    rw [List.eraseDups_cons, eraseDups_filter]
    simp [ih.filter]

theorem eraseDups_of_nodup (distinct : xs.Nodup) : xs.eraseDups = xs := by
  induction xs with
  | nil => rfl
  | cons x xs ih =>
    obtain ⟨fresh, distinct⟩ := List.nodup_cons.mp distinct
    rw [List.eraseDups_cons, eraseDups_filter, ih distinct, List.filter_eq_self.mpr]
    intro y member
    simpa using ne_of_mem_of_not_mem member fresh

theorem eraseDups_append_cons_of_mem (member : x ∈ xs) :
    (xs ++ x :: ys).eraseDups = (xs ++ ys).eraseDups := by
  simp [List.eraseDups_append, List.cons_removeAll, member]

theorem eraseDups_append_eraseDups (xs ys : List α) :
    (xs ++ ys.eraseDups).eraseDups = (xs ++ ys).eraseDups := by
  rw [List.eraseDups_append, List.eraseDups_append, List.removeAll, List.removeAll,
    eraseDups_filter, eraseDups_filter, eraseDups_of_nodup (nodup_eraseDups ys)]

theorem eraseDups_eraseDups_append (xs ys : List α) :
    (xs.eraseDups ++ ys).eraseDups = (xs ++ ys).eraseDups := by
  have same : ys.removeAll xs.eraseDups = ys.removeAll xs := by
    simp [List.removeAll, List.mem_eraseDups]
  rw [List.eraseDups_append, List.eraseDups_append, same,
    eraseDups_of_nodup (nodup_eraseDups xs)]

end Repeats

namespace Json

variable {key : String} {members source : Members}

/-- The values under a key, in their order. -/
def valuesAt (key : String) (members : Members) : List Json :=
  (members.filter (·.1 = key)).map Prod.snd

/-- Values merged one after another into the first of them. -/
def mergeRun? : List Json → Option Json
  | [] => none
  | value :: rest => some (rest.foldl merge value)

/-- An object with these keys, in this order. -/
def HasKeys (doc : Json) (names : List String) : Prop :=
  ∃ members, doc = .obj members ∧ members.map Prod.fst = names

theorem merge_obj : (obj members).merge (.obj source) = .obj (mergeMembers members source) := by
  rw [merge]

theorem nodup_keys_put (value : Json) (distinct : (members.map Prod.fst).Nodup) :
    ((put key value members).map Prod.fst).Nodup := by
  rw [keys_put]
  split
  · exact distinct
  · next fresh => exact List.concat_eq_append ▸ distinct.concat fresh

theorem keys_mergeMembers (distinct : (members.map Prod.fst).Nodup) :
    (mergeMembers members source).map Prod.fst =
      (members.map Prod.fst ++ source.map Prod.fst).eraseDups := by
  induction source generalizing members with
  | nil => simp [mergeMembers, eraseDups_of_nodup distinct]
  | cons entry source ih =>
    obtain ⟨key, value⟩ := entry
    rw [mergeMembers, ih (nodup_keys_put _ distinct), keys_put, List.map_cons]
    split
    · next present => rw [eraseDups_append_cons_of_mem present]
    · simp

theorem nodup_keys_mergeMembers (distinct : (members.map Prod.fst).Nodup) :
    ((mergeMembers members source).map Prod.fst).Nodup := by
  rw [keys_mergeMembers distinct]
  exact nodup_eraseDups _

theorem HasKeys.merge {target nested : Json} {names names' : List String}
    (first : target.HasKeys names) (distinct : names.Nodup) (last : nested.HasKeys names') :
    (target.merge nested).HasKeys (names ++ names').eraseDups := by
  obtain ⟨members, rfl, rfl⟩ := first
  obtain ⟨source, rfl, rfl⟩ := last
  exact ⟨_, merge_obj, keys_mergeMembers distinct⟩

theorem lookup_mergeMembers : lookup key (mergeMembers members source) =
    mergeRun? ((lookup key members).toList ++ valuesAt key source) := by
  induction source generalizing members with
  | nil => cases found : lookup key members <;> simp [mergeMembers, valuesAt, mergeRun?, found]
  | cons entry source ih =>
    obtain ⟨name, value⟩ := entry
    rw [mergeMembers, ih, lookup_put]
    by_cases same : name = key
    · subst same
      cases found : lookup name members <;> simp [valuesAt, mergeRun?]
    · simp [valuesAt, same]

/-- What is merged under other keys leaves a key alone. -/
theorem lookup_mergeMembers_of_fresh (fresh : key ∉ source.map Prod.fst) :
    lookup key (mergeMembers members source) = lookup key members := by
  have none' : valuesAt key source = [] := by
    rw [valuesAt, List.map_eq_nil_iff, List.filter_eq_nil_iff]
    intro entry member same
    exact fresh (List.mem_map.mpr ⟨entry, member, of_decide_eq_true same⟩)
  rw [lookup_mergeMembers, none', List.append_nil]
  cases lookup key members with
  | none => rfl
  | some value => rfl

/-- Objects with one key each are merged member by member. -/
theorem foldl_merge_single (members entries : Members) :
    (entries.map fun entry => single entry.1 entry.2).foldl merge (.obj members) =
      .obj (mergeMembers members entries) := by
  induction entries generalizing members with
  | nil => rfl
  | cons entry entries ih =>
    obtain ⟨key, value⟩ := entry
    rw [List.map_cons, List.foldl_cons, single, merge_obj, ih]
    simp only [mergeMembers]

theorem foldl_merge_arr (items : List Json) (lists : List (List Json)) :
    (lists.map arr).foldl merge (.arr items) = .arr (items ++ lists.flatten) := by
  induction lists generalizing items with
  | nil => simp
  | cons list lists ih => rw [List.map_cons, List.foldl_cons, merge, ih]; simp

theorem mergeRun?_arr {lists : List (List Json)} (some' : lists ≠ []) :
    mergeRun? (lists.map arr) = some (.arr lists.flatten) := by
  cases lists with
  | nil => contradiction
  | cons list lists => simp [mergeRun?, foldl_merge_arr]

section Joins

def isObject : Json → Bool
  | .obj _ => true
  | _ => false

def isList : Json → Bool
  | .arr _ => true
  | _ => false

/-- Two objects or two lists: only then does a merge keep anything of its target. -/
def Joins (target source : Json) : Prop :=
  target.isObject = true ∧ source.isObject = true ∨ target.isList = true ∧ source.isList = true

variable {a b c : Json}

theorem isObject_iff : a.isObject = true ↔ ∃ members, a = .obj members := by
  cases a <;> simp [isObject]

theorem isObject_merge (target source : Json) : (target.merge source).isObject = source.isObject := by
  cases source <;> cases target <;> simp only [merge, isObject]

theorem isList_merge (target source : Json) : (target.merge source).isList = source.isList := by
  cases source <;> cases target <;> simp only [merge, isList]

theorem merge_of_not_joins (apart : ¬Joins a b) : a.merge b = b := by
  cases b with
  | obj source =>
    cases a with
    | obj members => exact absurd (.inl ⟨rfl, rfl⟩) apart
    | null | bool _ | num _ | str _ | arr _ => rw [merge]; exact nofun
  | arr source =>
    cases a with
    | arr items => exact absurd (.inr ⟨rfl, rfl⟩) apart
    | null | bool _ | num _ | str _ | obj _ => rw [merge]; exact nofun
  | null | bool _ | num _ | str _ => simp only [merge]

theorem joins_merge_left : Joins (a.merge b) c ↔ Joins b c := by
  rw [Joins, Joins, isObject_merge, isList_merge]

theorem joins_merge_right : Joins a (b.merge c) ↔ Joins a c := by
  rw [Joins, Joins, isObject_merge, isList_merge]

theorem Joins.trans (first : Joins a b) (second : Joins b c) : Joins a c := by
  cases b <;> simp_all [Joins, isObject, isList]

end Joins

theorem valuesAt_map {α : Type} (name : α → String) (value : α → Json) (as : List α) :
    valuesAt key (as.map fun a => (name a, value a)) =
      (as.filter (name · = key)).map value := by
  simp [valuesAt, List.filter_map, Function.comp_def]

end Json

end AggFlatten
