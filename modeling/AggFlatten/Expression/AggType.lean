import AggFlatten.Expression.SyntaxError

/-! The kinds of aggregation an expression can ask for, and the shape of what each
yields. Which kind a name is given matters through its shape alone. -/
namespace AggFlatten

/-- A document count; one number; a record per bucket; a table of numbers. -/
inductive Shape where
  | count
  | value
  | buckets
  | multiValue
deriving DecidableEq

inductive AggType where
  | count
  | filter
  | nested
  | value
  | avg
  | sum
  | max
  | min
  | terms
  | histogram
  | ranges
  | geohashGrid
  | multiCount
  | percentiles
  | multiValue
deriving DecidableEq

namespace AggType

def all : List AggType :=
  [count, filter, nested, value, avg, sum, max, min, terms, histogram, ranges, geohashGrid,
   multiCount, percentiles, multiValue]

/-- The kind of a name without a keyword. -/
instance : Inhabited AggType := ⟨value⟩

def keyword : AggType → String
  | count => "count"
  | filter => "filter"
  | nested => "nested"
  | value => "value"
  | avg => "avg"
  | sum => "sum"
  | max => "max"
  | min => "min"
  | terms => "terms"
  | histogram => "histogram"
  | ranges => "ranges"
  | geohashGrid => "geohashGrid"
  | multiCount => "multiCount"
  | percentiles => "percentiles"
  | multiValue => "multiValue"

def shape : AggType → Shape
  | count | filter | nested => .count
  | value | avg | sum | max | min => .value
  | terms | histogram | ranges | geohashGrid | multiCount => .buckets
  | percentiles | multiValue => .multiValue

/-- Keywords are case-sensitive. -/
def ofKeyword? (word : String) : Option AggType :=
  all.find? (·.keyword = word)

def ofKeyword (word : String) : Except SyntaxError AggType :=
  match ofKeyword? word with
  | some type => .ok type
  | none => .error (.unknownType word)

theorem ofKeyword?_keyword (type : AggType) : ofKeyword? type.keyword = some type := by
  cases type <;> decide

theorem keyword_of_ofKeyword? {word : String} {type : AggType} (h : ofKeyword? word = some type) :
    type.keyword = word := by
  simpa using List.find?_some h

end AggType

end AggFlatten
