import AggFlatten.Aggregation.Evaluation
import AggFlatten.Expression.Parser

/-! Flattening an aggregation tree. What is missing in the tree is reported once, for the
whole request and with the whole tree, however deep it is missed; a malformed expression
is reported before the tree is looked at. -/
namespace AggFlatten

structure Aggregations where
  root : Json
deriving DecidableEq

namespace Aggregations

/-- A request that lacks something in the tree is reported by its own text. -/
def guarded (aggs : Aggregations) (request : String) (result : Except AggError Json) :
    Except AggError Json :=
  result.mapError fun
    | .lookup _ | .missing _ _ => .missing request aggs.root
    | other => other

def evaluate (aggs : Aggregations) (e : Expression) (options : OutputOptions) :
    Except AggError Json :=
  aggs.guarded e.source (SubAgg.evaluateAll options e.subs aggs.root)

def parse (text : String) : Except AggError Expression :=
  (Expression.parse text).mapError .badExpression

def flatten (aggs : Aggregations) (text : String) (options : OutputOptions) :
    Except AggError Json := do
  aggs.evaluate (← parse text) options

/-- Reads one aggregation. The expression `within` is evaluated inside it where its type
has an inside, and has to be well-formed in any case. -/
def access (aggs : Aggregations) (type : AggType) (path : String) (options : OutputOptions)
    (within : Option String) : Except AggError Json := do
  let inside : Inside ←
    match within with
    | some text => pure (SubAgg.evaluateAll options (← parse text).subs)
    | none => pure .nothing
  aggs.guarded path (Evaluation.ofShape options type.shape inside aggs.root path)

end Aggregations

end AggFlatten
