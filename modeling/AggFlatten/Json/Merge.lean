import AggFlatten.Json.Basic

/-! Deep merging. Objects merge member by member, two lists are joined, and of any
other pair the source is kept. -/
namespace AggFlatten.Json

mutual

def merge (target : Json) : Json → Json
  | .obj source =>
    match target with
    | .obj members => .obj (mergeMembers members source)
    | _ => .obj source
  | .arr source =>
    match target with
    | .arr items => .arr (items ++ source)
    | _ => .arr source
  | source => source

/-- A key of both keeps its place in the target; the others follow in their order. -/
def mergeMembers (members : Members) : Members → Members
  | [] => members
  | (key, value) :: rest =>
    let merged :=
      match lookup key members with
      | some old => merge old value
      | none => value
    mergeMembers (put key merged members) rest

end

/-- The values merged one after another into the empty object. -/
def mergeAll (values : List Json) : Json :=
  values.foldl merge empty

end AggFlatten.Json
