import AggFlatten.Aggregation.Error
import AggFlatten.Expression.Basic
import AggFlatten.Inflection.Number
import AggFlatten.Json.Merge

/-! Evaluating expressions. Each part yields an object with one key, and the objects of
all parts are merged in their order. An expression in brackets is evaluated inside the
node that its part names, or inside every bucket of it. -/
namespace AggFlatten

structure OutputOptions where
  /-- The key of the document count in the record of a bucket. -/
  countField : String := "count"
  /-- A table of numbers becomes a list of keys and values. -/
  asArray : Bool := false
deriving DecidableEq

/-- What the brackets of a part yield inside a node. -/
abbrev Inside := Json → Except AggError Json

namespace Inside

/-- No brackets, or brackets with nothing to add. -/
def nothing : Inside := fun _ => .ok .empty

end Inside

namespace Evaluation

open Text (lastSegment)

/-- The document count of the node at `path`, whatever the count of a bucket is called. -/
def countObject (inside : Inside) (node : Json) (path : String) : Except AggError Json := do
  let child ← node.get path
  let count ← child.docCount
  let nested ← inside child
  return .single (lastSegment path) ((Json.single "count" count).merge nested)

def valueObject (node : Json) (path : String) : Except AggError Json := do
  let child ← node.get path
  return .single (lastSegment path) (← child.value)

/-- The key of a bucket comes first and its count second; of one name, the count remains. -/
def record (options : OutputOptions) (inside : Inside) (keyField : String) (bucket : Bucket) :
    Except AggError Json := do
  let count ← bucket.node.docCount
  let nested ← inside bucket.node
  return (Json.obj (Json.put options.countField count [(keyField, bucket.displayKey)])).merge nested

def records (options : OutputOptions) (inside : Inside) (node : Json) (path : String) :
    Except AggError Json := do
  let child ← node.get path
  let buckets ← child.buckets
  return .arr (← buckets.mapM (record options inside (singularize (lastSegment path))))

def pair : String × Json → Json
  | (key, value) => .obj [("key", .str key), ("value", value)]

/-- A table of numbers as it stands, or as a list if that is wanted and it has keys. -/
def shapedTable (options : OutputOptions) (values : Json) : Json :=
  match values, options.asArray with
  | .obj members, true => .arr (members.map pair)
  | values, _ => values

def multiValueObject (options : OutputOptions) (node : Json) (path : String) :
    Except AggError Json := do
  let child ← node.get path
  return .single (lastSegment path) (shapedTable options (← child.values))

/-- The list of records stands alone; the other shapes come as an object with one key. -/
def ofShape (options : OutputOptions) (shape : Shape) (inside : Inside) (node : Json)
    (path : String) : Except AggError Json :=
  match shape with
  | .count => countObject inside node path
  | .value => valueObject node path
  | .buckets => records options inside node path
  | .multiValue => multiValueObject options node path

/-- One part of an expression: its records stand under the plural of its name. -/
def ofPart (options : OutputOptions) (shape : Shape) (inside : Inside) (scope : Json)
    (name : String) : Except AggError Json := do
  let result ← ofShape options shape inside scope name
  match shape with
  | .buckets => return .single (pluralize name) result
  | _ => return result

end Evaluation

/-- The node that the scope of a path leads to, or this one if it leads nowhere. -/
def NamePath.scopeIn (path : NamePath) (node : Json) : Json :=
  (node.follow? path.scope).getD node

/-- Brackets make records of everything that is not counted. -/
def Shape.inBrackets : Shape → Shape
  | .count => .count
  | _ => .buckets

namespace SubAgg

/-- The shape in which a part is evaluated. -/
def shape : SubAgg → Shape
  | bare type _ => type.shape
  | bracketed type _ _ _ => type.shape.inBrackets

mutual

def evaluate (options : OutputOptions) (node : Json) : SubAgg → Except AggError Json
  | bare type path =>
    Evaluation.ofPart options type.shape .nothing (path.scopeIn node) path.name
  | bracketed type path _ body =>
    Evaluation.ofPart options type.shape.inBrackets
      (fun inner => (evaluateEach options inner body).map Json.mergeAll)
      (path.scopeIn node) path.name

def evaluateEach (options : OutputOptions) (node : Json) :
    List SubAgg → Except AggError (List Json)
  | [] => .ok []
  | sub :: rest => do
    let first ← evaluate options node sub
    return first :: (← evaluateEach options node rest)

end

def evaluateAll (options : OutputOptions) (subs : List SubAgg) : Inside :=
  fun node => (evaluateEach options node subs).map Json.mergeAll

/-- What the brackets yield. -/
def inside (options : OutputOptions) : SubAgg → Inside
  | bare _ _ => .nothing
  | bracketed _ _ _ body => evaluateAll options body

theorem evaluate_eq (options : OutputOptions) (node : Json) (sub : SubAgg) :
    sub.evaluate options node =
      Evaluation.ofPart options sub.shape (sub.inside options) (sub.path.scopeIn node)
        sub.path.name := by
  cases sub <;> rfl

end SubAgg

end AggFlatten
