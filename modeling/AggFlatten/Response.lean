import AggFlatten.Aggregation.Flatten
import AggFlatten.Json.Parser

/-! Search responses: the documents that were hit, how many there are, and the section of
aggregations. -/
namespace AggFlatten

structure SearchResponse where
  document : Json
deriving DecidableEq

namespace SearchResponse

def parse (body : String) (decode : Json.Decoder := Json.parse) : Except AggError SearchResponse :=
  ((decode body).mapError .badJson).map SearchResponse.mk

def member? (value : Json) (key : String) : Option Json :=
  match value with
  | .obj members => Json.lookup key members
  | _ => none

def section? (response : SearchResponse) (key : String) : Option Json :=
  (member? response.document "hits").bind (member? · key)

def hits (response : SearchResponse) : Except AggError (List Json) :=
  match response.section? "hits" with
  | some (.arr hits) => .ok hits
  | _ => .error (.noSection "hits.hits")

def natural? : Json → Option Nat
  | .num (.int n) => n.toNat?
  | _ => none

/-- The number itself, or the value of an object that tells how exact it is. -/
def totalHits? (response : SearchResponse) : Option Nat := do
  let total ← response.section? "total"
  (natural? total).or ((member? total "value").bind natural?)

def aggregations (response : SearchResponse) : Except AggError Aggregations :=
  match member? response.document "aggregations" with
  | some (.obj members) => .ok ⟨.obj members⟩
  | _ => .error (.noSection "aggregations")

def flatten (response : SearchResponse) (text : String) (options : OutputOptions) :
    Except AggError Json := do
  (← response.aggregations).flatten text options

end SearchResponse

end AggFlatten
