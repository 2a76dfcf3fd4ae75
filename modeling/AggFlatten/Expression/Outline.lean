import AggFlatten.Expression.Basic

/-! The outline of an expression: a line for every part, with its keyword and its dotted
name, and below it, further to the right, the lines of what its brackets hold. -/
namespace AggFlatten

namespace SubAgg

/-- A line, indented by two spaces a level. -/
def outlineLine (level : Nat) (type : AggType) (path : NamePath) : List Char :=
  List.replicate (2 * level) ' ' ++ type.keyword.toList ++ ' ' :: path.text.toList ++ ['\n']

mutual

def outline (level : Nat) : SubAgg → List Char
  | bare type path => outlineLine level type path
  | bracketed type path _ body => outlineLine level type path ++ outlines (level + 1) body

def outlines (level : Nat) : List SubAgg → List Char
  | [] => []
  | sub :: rest => outline level sub ++ outlines level rest

end

end SubAgg

def Expression.outline (e : Expression) : String :=
  String.ofList (SubAgg.outlines 0 e.subs)

end AggFlatten
