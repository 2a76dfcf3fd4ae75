import AggFlatten.Aggregation.Node
import AggFlatten.Expression.SyntaxError
import AggFlatten.Json.ParseError

/-! What can go wrong when an aggregation tree is flattened. A lookup that fails is an
internal fault: what asks for a whole request reports it as something the tree lacks. -/
namespace AggFlatten

inductive AggError where
  /-- The expression or the name asked for, and the tree that lacks something it needs. -/
  | missing (request : String) (tree : Json)
  /-- The path that leads nowhere, and the node inside the tree where it starts. -/
  | lookup (cause : LookupError)
  | badExpression (cause : SyntaxError)
  /-- A search response without one of its parts. -/
  | noSection (name : String)
  | badJson (cause : Json.ParseError)
deriving DecidableEq

namespace AggError

def message : AggError → String
  | missing request _ => "error parsing aggregation at: " ++ request
  | lookup cause => cause.message
  | badExpression cause => "invalid expression: " ++ cause.message
  | noSection name => "search response has no usable '" ++ name ++ "' section"
  | badJson cause => "invalid JSON response: " ++ cause.message

/-- The name or the expression at fault. -/
def path? : AggError → Option String
  | missing request _ => some request
  | lookup cause => some cause.path
  | badExpression _ | noSection _ | badJson _ => none

/-- The tree, or the node inside it, that lacks something. -/
def body? : AggError → Option Json
  | missing _ tree => some tree
  | lookup cause => some cause.node
  | badExpression _ | noSection _ | badJson _ => none

end AggError

/-- A lookup that fails ends the evaluation it is part of. -/
instance : MonadLift (Except LookupError) (Except AggError) :=
  ⟨fun found => found.mapError .lookup⟩

end AggFlatten
