import AggFlatten.Aggregation.Node
import AggFlatten.Json.Merge

/-! What a document holds inside it. A document made of given leaves under given keys stays so
when another one of that kind is merged into it. -/
namespace AggFlatten.Json

/-- The document itself, or what it holds at a position or under a key, however deep. -/
inductive Within (inner : Json) : Json → Prop where
  | here : Within inner inner
  | item {items : List Json} {item : Json} (member : item ∈ items) (inside : Within inner item) :
      Within inner (.arr items)
  | under {members : Members} {key : String} {value : Json} (member : (key, value) ∈ members)
      (inside : Within inner value) : Within inner (.obj members)

/-- A null, a truth value, a number or a text. -/
def isScalar : Json → Bool
  | .arr _ | .obj _ => false
  | .null | .bool _ | .num _ | .str _ => true

def LeafWithin (leaf doc : Json) : Prop := leaf.isScalar = true ∧ Within leaf doc

def KeyWithin (key : String) (doc : Json) : Prop :=
  ∃ members : Members, Within (.obj members) doc ∧ key ∈ members.map Prod.fst

/-- Every leaf of the document is one of these, and so is every key. -/
structure MadeOf (leaves : Json → Prop) (keys : String → Prop) (doc : Json) : Prop where
  leaf : ∀ leaf, LeafWithin leaf doc → leaves leaf
  key : ∀ key, KeyWithin key doc → keys key

namespace Within

variable {a b c : Json}

theorem trans (inner : Within a b) (outer : Within b c) : Within a c := by
  induction outer with
  | here => exact inner
  | item member _ ih => exact .item member ih
  | under member _ ih => exact .under member ih

theorem arr_iff {items : List Json} :
    Within a (.arr items) ↔ a = .arr items ∨ ∃ item ∈ items, Within a item := by
  constructor
  · intro held
    cases held with
    | here => exact .inl rfl
    | item member inside => exact .inr ⟨_, member, inside⟩
  · rintro (rfl | ⟨item, member, inside⟩)
    · exact .here
    · exact .item member inside

theorem obj_iff {members : Members} :
    Within a (.obj members) ↔ a = .obj members ∨ ∃ entry ∈ members, Within a entry.2 := by
  constructor
  · intro held
    cases held with
    | here => exact .inl rfl
    | under member inside => exact .inr ⟨_, member, inside⟩
  · rintro (rfl | ⟨⟨key, value⟩, member, inside⟩)
    · exact .here
    · exact .under member inside

theorem eq_of_isScalar (scalar : b.isScalar = true) (held : Within a b) : a = b := by
  cases held with
  | here => rfl
  | item member inside => cases scalar
  | under member inside => cases scalar

end Within

section lookup

variable {node found value : Json} {members : Members} {key segment path : String}

theorem mem_of_lookup (present : lookup key members = some value) : (key, value) ∈ members := by
  induction members with
  | nil => cases present
  | cons entry members ih =>
    obtain ⟨name, held⟩ := entry
    rw [lookup] at present
    split at present
    · next same =>
      obtain rfl := Option.some.inj present
      rw [same]
      exact List.mem_cons_self
    · exact List.mem_cons_of_mem _ (ih present)

theorem within_of_child? (step : node.child? segment = some found) : Within found node := by
  cases node with
  | obj members => exact .under (mem_of_lookup step) .here
  | arr items =>
    obtain ⟨i, _, position⟩ := Option.bind_eq_some_iff.mp step
    exact .item (List.mem_of_getElem? position) .here
  | null | bool _ | num _ | str _ => cases step

theorem within_of_follow? {segments : List String} (reached : node.follow? segments = some found) :
    Within found node := by
  induction segments generalizing node with
  | nil =>
    obtain rfl := Option.some.inj reached
    exact .here
  | cons segment segments ih =>
    obtain ⟨child, step, reached⟩ := Option.bind_eq_some_iff.mp reached
    exact (ih reached).trans (within_of_child? step)

theorem within_of_get (reached : node.get path = .ok found) : Within found node :=
  within_of_follow? (get_eq_ok_iff.mp reached)

/-- A name that is no position is looked up in objects alone. -/
theorem get_name_eq_ok_iff {name : String} (plain : Text.segments name = [name])
    (nowhere : index? name = none) :
    node.get name = .ok found ↔ ∃ members, node = .obj members ∧ lookup name members = some found := by
  rw [get_eq_ok_iff, plain]
  cases node <;> simp [follow?, child?, nowhere]

end lookup

section MadeOf

variable {leaves : Json → Prop} {keys : String → Prop} {doc target source : Json}
  {items : List Json} {members entries : Members} {key : String} {value : Json}

theorem madeOf_of_isScalar (scalar : doc.isScalar = true) (known : leaves doc) :
    MadeOf leaves keys doc where
  leaf leaf held := by rwa [held.2.eq_of_isScalar scalar]
  key key := by
    rintro ⟨members, held, _⟩
    rw [← held.eq_of_isScalar scalar] at scalar
    cases scalar

theorem madeOf_arr_iff :
    MadeOf leaves keys (.arr items) ↔ ∀ item ∈ items, MadeOf leaves keys item := by
  constructor
  · intro made item member
    refine ⟨fun leaf held => made.leaf leaf ⟨held.1, .item member held.2⟩, ?_⟩
    rintro key ⟨members, held, among⟩
    exact made.key key ⟨members, .item member held, among⟩
  · intro each
    constructor
    · rintro leaf ⟨scalar, held⟩
      rcases Within.arr_iff.mp held with rfl | ⟨item, member, inside⟩
      · cases scalar
      · exact (each item member).leaf leaf ⟨scalar, inside⟩
    · rintro key ⟨members, held, among⟩
      rcases Within.arr_iff.mp held with other | ⟨item, member, inside⟩
      · cases other
      · exact (each item member).key key ⟨members, inside, among⟩

theorem madeOf_obj_iff : MadeOf leaves keys (.obj members) ↔
    ∀ entry ∈ members, keys entry.1 ∧ MadeOf leaves keys entry.2 := by
  constructor
  · rintro made ⟨key, value⟩ member
    refine ⟨made.key key ⟨members, .here, List.mem_map_of_mem member⟩, ?_, ?_⟩
    · exact fun leaf held => made.leaf leaf ⟨held.1, .under member held.2⟩
    · rintro name ⟨inner, held, among⟩
      exact made.key name ⟨inner, .under member held, among⟩
  · intro each
    constructor
    · rintro leaf ⟨scalar, held⟩
      rcases Within.obj_iff.mp held with rfl | ⟨entry, member, inside⟩
      · cases scalar
      · exact (each entry member).2.leaf leaf ⟨scalar, inside⟩
    · rintro key ⟨inner, held, among⟩
      rcases Within.obj_iff.mp held with same | ⟨entry, member, inside⟩
      · obtain rfl := obj.inj same
        obtain ⟨entry, member, rfl⟩ := List.mem_map.mp among
        exact (each entry member).1
      · exact (each entry member).2.key key ⟨inner, inside, among⟩

theorem madeOf_single (named : keys key) (made : MadeOf leaves keys value) :
    MadeOf leaves keys (.single key value) := by
  rw [single, madeOf_obj_iff]
  simpa using ⟨named, made⟩

theorem madeOf_put (named : keys key) (made : MadeOf leaves keys value)
    (rest : MadeOf leaves keys (.obj members)) :
    MadeOf leaves keys (.obj (put key value members)) := by
  rw [madeOf_obj_iff] at rest ⊢
  induction members with
  | nil => simpa [put] using ⟨named, made⟩
  | cons entry members ih =>
    obtain ⟨name, held⟩ := entry
    obtain ⟨first, rest⟩ := List.forall_mem_cons.mp rest
    rw [put]
    split
    · exact List.forall_mem_cons.mpr ⟨⟨named, made⟩, rest⟩
    · exact List.forall_mem_cons.mpr ⟨first, ih rest⟩

mutual

theorem madeOf_merge : (source : Json) → {target : Json} → MadeOf leaves keys target →
    MadeOf leaves keys source → MadeOf leaves keys (target.merge source)
  | .obj entries, target, into, made => by
    cases target with
    | obj members =>
      rw [merge]
      exact madeOf_mergeMembers entries into made
    | null | bool _ | num _ | str _ | arr _ => simpa [merge] using made
  | .arr items, target, into, made => by
    cases target with
    | arr items' =>
      rw [madeOf_arr_iff] at into made
      rw [merge, madeOf_arr_iff]
      exact List.forall_mem_append.mpr ⟨into, made⟩
    | null | bool _ | num _ | str _ | obj _ => simpa [merge] using made
  | .null, _, _, made | .bool _, _, _, made | .num _, _, _, made | .str _, _, _, made => by
    simpa [merge] using made

theorem madeOf_mergeMembers : (entries : Members) → {members : Members} →
    MadeOf leaves keys (.obj members) → MadeOf leaves keys (.obj entries) →
    MadeOf leaves keys (.obj (mergeMembers members entries))
  | [], members, into, _ => by rwa [mergeMembers]
  | (key, value) :: entries, members, into, made => by
    obtain ⟨⟨named, made⟩, rest⟩ := List.forall_mem_cons.mp (madeOf_obj_iff.mp made)
    rw [mergeMembers]
    refine madeOf_mergeMembers entries (madeOf_put named ?_ into) (madeOf_obj_iff.mpr rest)
    split
    · next old present =>
      exact madeOf_merge value (madeOf_obj_iff.mp into _ (mem_of_lookup present)).2 made
    · exact made

end

theorem madeOf_mergeAll {values : List Json} (each : ∀ value ∈ values, MadeOf leaves keys value) :
    MadeOf leaves keys (mergeAll values) := by
  have further : ∀ start, MadeOf leaves keys start →
      MadeOf leaves keys (values.foldl merge start) := by
    induction values with
    | nil => exact fun _ made => made
    | cons value values ih =>
      obtain ⟨first, rest⟩ := List.forall_mem_cons.mp each
      exact fun start made => ih rest _ (madeOf_merge value made first)
  exact further .empty (madeOf_obj_iff.mpr nofun)

end MadeOf

end AggFlatten.Json
