import AggFlatten.Json.NumberLiteral
import AggFlatten.Json.Basic
import AggFlatten.Text.Dotted

/-! Nodes of an aggregation result. A node is a document; a dotted path leads to another
one through the members of objects and the positions of lists. -/
namespace AggFlatten

/-- A path that leads nowhere, and the node where it starts. -/
structure LookupError where
  path : String
  node : Json
deriving DecidableEq

def LookupError.message (e : LookupError) : String :=
  "no aggregation found at '" ++ e.path ++ "'"

namespace Json

/-- A position in a list: decimal digits, after a plus sign or not. -/
def index? (segment : String) : Option Nat :=
  let digits :=
    match segment.toList with
    | '+' :: rest => rest
    | chars => chars
  if digits ≠ [] ∧ digits.all Char.isDigit then some (NumberLiteral.digitsValue digits) else none

def child? (segment : String) : Json → Option Json
  | .obj members => lookup segment members
  | .arr items => (index? segment).bind fun i => items[i]?
  | _ => none

def follow? (node : Json) : (segments : List String) → Option Json
  | [] => some node
  | segment :: rest => (node.child? segment).bind (·.follow? rest)

def get (node : Json) (path : String) : Except LookupError Json :=
  match node.follow? (Text.segments path) with
  | some found => .ok found
  | none => .error ⟨path, node⟩

def docCount (node : Json) : Except LookupError Json := node.get "doc_count"

def value (node : Json) : Except LookupError Json := node.get "value"

def values (node : Json) : Except LookupError Json := node.get "values"

end Json

/-- A bucket, and the key it has when its node holds none: its position in a list of
buckets, or its key in an object of buckets. -/
structure Bucket where
  fallback : Json
  node : Json
deriving DecidableEq

/-- A member that is not null. -/
def Bucket.field? (bucket : Bucket) (name : String) : Option Json :=
  match bucket.node with
  | .obj members => (Json.lookup name members).filter (!·.isNull)
  | _ => none

def Bucket.displayKey (bucket : Bucket) : Json :=
  ((bucket.field? "key_as_string").or (bucket.field? "key")).getD bucket.fallback

def Json.buckets (node : Json) : Except LookupError (List Bucket) := do
  match ← node.get "buckets" with
  | .arr items => return items.mapIdx fun i item => ⟨.nat i, item⟩
  | .obj members => return members.map fun (key, item) => ⟨.str key, item⟩
  | _ => .error ⟨"buckets", node⟩

namespace Json

theorem follow?_append (node : Json) (front rest : List String) :
    node.follow? (front ++ rest) = (node.follow? front).bind (·.follow? rest) := by
  induction front generalizing node with
  | nil => rfl
  | cons segment front ih =>
    rw [List.cons_append, follow?, follow?]
    cases node.child? segment with
    | none => rfl
    | some child => exact ih child

theorem get_eq_ok_iff {node found : Json} {path : String} :
    node.get path = .ok found ↔ node.follow? (Text.segments path) = some found := by
  rw [get]
  split
  · next same => rw [same]; exact ⟨fun h => by cases h; rfl, fun h => by cases h; rfl⟩
  · next missing => rw [missing]; exact ⟨nofun, nofun⟩

end Json

end AggFlatten
