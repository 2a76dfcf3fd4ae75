import AggFlatten.Json.Number

/-! JSON documents. The members of an object keep their order, since every text
written from a document shows it. -/
namespace AggFlatten

inductive Json where
  | null
  | bool (b : Bool)
  | num (n : Number)
  | str (s : String)
  | arr (items : List Json)
  | obj (members : List (String × Json))
deriving Inhabited

namespace Json

abbrev Members := List (String × Json)

def lookup (key : String) : Members → Option Json
  | [] => none
  | (k, v) :: rest => if k = key then some v else lookup key rest

/-- A key that is present keeps its place and gets the new value. -/
def put (key : String) (value : Json) : Members → Members
  | [] => [(key, value)]
  | (k, v) :: rest => if k = key then (key, value) :: rest else (k, v) :: put key value rest

/-- The empty object, which every merge starts from. -/
def empty : Json := .obj []

def single (key : String) (value : Json) : Json := .obj [(key, value)]

def nat (n : Nat) : Json := .num (.int n)

def isNull : Json → Bool
  | .null => true
  | _ => false

theorem lookup_put (key other : String) (value : Json) (members : Members) :
    lookup other (put key value members) =
      if key = other then some value else lookup other members := by
  induction members with
  | nil => rfl
  | cons member rest ih =>
    obtain ⟨k, v⟩ := member
    rw [put, lookup]
    split
    · next same => simp only [same, lookup]; split <;> rfl
    · next differ =>
      rw [lookup, ih]
      by_cases h : k = other
      · rw [if_pos h, if_pos h, if_neg fun e => differ (h.trans e.symm)]
      · rw [if_neg h, if_neg h]

theorem keys_put (key : String) (value : Json) (members : Members) :
    (put key value members).map Prod.fst =
      if key ∈ members.map Prod.fst then members.map Prod.fst
      else members.map Prod.fst ++ [key] := by
  induction members with
  | nil => simp [put]
  | cons member rest ih =>
    obtain ⟨k, v⟩ := member
    rw [put]
    split
    · next same => simp [same]
    · next differ =>
      have differ' : key ≠ k := fun e => differ e.symm
      simp only [List.map_cons, ih, List.mem_cons, differ', false_or]
      split <;> simp

mutual

private def decEq : (a b : Json) → Decidable (a = b)
  | .null, .null => .isTrue rfl
  | .bool a, .bool b => decidable_of_iff (a = b) (by simp)
  | .num a, .num b => decidable_of_iff (a = b) (by simp)
  | .str a, .str b => decidable_of_iff (a = b) (by simp)
  | .arr a, .arr b =>
    match decEqItems a b with
    | .isTrue h => .isTrue (by rw [h])
    | .isFalse h => .isFalse (by simpa using h)
  | .obj a, .obj b =>
    match decEqMembers a b with
    | .isTrue h => .isTrue (by rw [h])
    | .isFalse h => .isFalse (by simpa using h)
  | .null, .bool _ | .null, .num _ | .null, .str _ | .null, .arr _ | .null, .obj _
  | .bool _, .null | .bool _, .num _ | .bool _, .str _ | .bool _, .arr _ | .bool _, .obj _
  | .num _, .null | .num _, .bool _ | .num _, .str _ | .num _, .arr _ | .num _, .obj _
  | .str _, .null | .str _, .bool _ | .str _, .num _ | .str _, .arr _ | .str _, .obj _
  | .arr _, .null | .arr _, .bool _ | .arr _, .num _ | .arr _, .str _ | .arr _, .obj _
  | .obj _, .null | .obj _, .bool _ | .obj _, .num _ | .obj _, .str _ | .obj _, .arr _ =>
    .isFalse nofun

private def decEqItems : (a b : List Json) → Decidable (a = b)
  | [], [] => .isTrue rfl
  | [], _ :: _ | _ :: _, [] => .isFalse nofun
  | x :: xs, y :: ys =>
    match decEq x y, decEqItems xs ys with
    | .isTrue h, .isTrue t => .isTrue (by rw [h, t])
    | .isFalse h, _ => .isFalse fun e => h (List.cons.inj e).1
    | _, .isFalse t => .isFalse fun e => t (List.cons.inj e).2

private def decEqMembers : (a b : Members) → Decidable (a = b)
  | [], [] => .isTrue rfl
  | [], _ :: _ | _ :: _, [] => .isFalse nofun
  | (k, x) :: xs, (l, y) :: ys =>
    match decEq x y, decEqMembers xs ys with
    | .isTrue h, .isTrue t =>
      if e : k = l then .isTrue (by rw [e, h, t]) else .isFalse fun f => e (by simp_all)
    | .isFalse h, _ => .isFalse fun e => h (by simp_all)
    | _, .isFalse t => .isFalse fun e => t (by simp_all)

end

instance : DecidableEq Json := decEq

end Json

end AggFlatten
