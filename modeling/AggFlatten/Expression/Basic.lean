import AggFlatten.Expression.AggType
import AggFlatten.Text.Dotted

/-! Expressions: the parts of an aggregation result to keep. Each part names a node by
a dotted path, and a bracketed one holds an expression that is evaluated inside it. -/
namespace AggFlatten

/-- The segments that lead to a node, and the last one, which names it. -/
structure NamePath where
  scope : List String
  name : String
deriving DecidableEq

def NamePath.text (path : NamePath) : String :=
  Text.dotted (path.scope ++ [path.name])

inductive SubAgg where
  | bare (type : AggType) (path : NamePath)
  | bracketed (type : AggType) (path : NamePath) (source : String) (body : List SubAgg)

/-- Parts in the order of the text, and that text without the white space around it. -/
structure Expression where
  source : String
  subs : List SubAgg

namespace SubAgg

def type : SubAgg → AggType
  | bare type _ | bracketed type _ _ _ => type

def path : SubAgg → NamePath
  | bare _ path | bracketed _ path _ _ => path

/-- The expression in the brackets. -/
def nested? : SubAgg → Option Expression
  | bare _ _ => none
  | bracketed _ _ source body => some ⟨source, body⟩

def withNested (type : AggType) (path : NamePath) : Option Expression → SubAgg
  | none => bare type path
  | some e => bracketed type path e.source e.subs

mutual

private def decEq : (a b : SubAgg) → Decidable (a = b)
  | bare s p, bare t q => decidable_of_iff (s = t ∧ p = q) (by simp)
  | bare _ _, bracketed _ _ _ _ | bracketed _ _ _ _, bare _ _ => .isFalse nofun
  | bracketed s p u a, bracketed t q v b =>
    match decEqAll a b with
    | .isTrue h => decidable_of_iff (s = t ∧ p = q ∧ u = v) (by simp [h])
    | .isFalse h => .isFalse fun e => h (SubAgg.bracketed.inj e).2.2.2

private def decEqAll : (a b : List SubAgg) → Decidable (a = b)
  | [], [] => .isTrue rfl
  | [], _ :: _ | _ :: _, [] => .isFalse nofun
  | a :: as, b :: bs =>
    match decEq a b, decEqAll as bs with
    | .isTrue h, .isTrue t => .isTrue (by rw [h, t])
    | .isFalse h, _ => .isFalse fun e => h (List.cons.inj e).1
    | _, .isFalse t => .isFalse fun e => t (List.cons.inj e).2

end

instance : DecidableEq SubAgg := decEq

end SubAgg

deriving instance DecidableEq for Expression

end AggFlatten
