import AggFlatten.Inflection.Rule

/-! The rules and the word lists of English. Of several rules that apply the first one
counts. -/
namespace AggFlatten.Inflection

/-- Words with one form for both numbers. -/
def uncountable : List String :=
  ["equipment", "information", "rice", "money", "species", "series", "fish", "sheep", "moose",
   "deer", "news", "police", "traffic", "metadata"]

structure WordPair where
  singular : String
  plural : String

def irregular : List WordPair :=
  [⟨"person", "people"⟩, ⟨"man", "men"⟩, ⟨"woman", "women"⟩, ⟨"child", "children"⟩,
   ⟨"sex", "sexes"⟩, ⟨"move", "moves"⟩, ⟨"mouse", "mice"⟩, ⟨"ox", "oxen"⟩,
   ⟨"tooth", "teeth"⟩, ⟨"foot", "feet"⟩, ⟨"goose", "geese"⟩, ⟨"criterion", "criteria"⟩]

/-- The last two rules apply to every word. -/
def pluralRules : List Rule :=
  [⟨.oneOf ["quiz"], [""], "zes"⟩,
   ⟨.oneOf ["matr", "vert", "ind"], ["ix", "ex"], "ices"⟩,
   ⟨.oneOf ["x", "ch", "ss", "sh"], [""], "es"⟩,
   ⟨.noneOf "aeiouy", ["y"], "ies"⟩,
   ⟨.oneOf ["qu"], ["y"], "ies"⟩,
   ⟨.oneOf ["hive"], [""], "s"⟩,
   ⟨.noneOf "f", ["fe"], "ves"⟩,
   ⟨.oneOf ["l", "r"], ["f"], "ves"⟩,
   ⟨.oneOf ["ax", "test"], ["is"], "es"⟩,
   ⟨.any, ["sis"], "ses"⟩,
   ⟨.oneOf ["t", "i"], ["a"], "a"⟩,
   ⟨.oneOf ["t", "i"], ["um"], "a"⟩,
   ⟨.oneOf ["buffal", "tomat", "potat"], ["o"], "oes"⟩,
   ⟨.oneOf ["bu"], ["s"], "ses"⟩,
   ⟨.oneOf ["alias", "status"], [""], "es"⟩,
   ⟨.oneOf ["octop", "vir"], ["us", "i"], "i"⟩,
   ⟨.any, ["s"], "s"⟩,
   ⟨.any, [""], "s"⟩]

/-- A word to which no rule applies is singular already. -/
def singularRules : List Rule :=
  [⟨.oneOf ["database"], ["s"], ""⟩,
   ⟨.oneOf ["quiz"], ["zes"], ""⟩,
   ⟨.oneOf ["matr"], ["ices"], "ix"⟩,
   ⟨.oneOf ["vert", "ind"], ["ices"], "ex"⟩,
   ⟨.oneOf ["alias", "status"], ["es", ""], ""⟩,
   ⟨.oneOf ["octop", "vir"], ["us", "i"], "us"⟩,
   ⟨.whole "a", ["xis", "xes"], "xis"⟩,
   ⟨.oneOf ["cris", "test"], ["is", "es"], "is"⟩,
   ⟨.oneOf ["shoe"], ["s"], ""⟩,
   ⟨.oneOf ["bus"], ["es", ""], ""⟩,
   ⟨.oneOf ["o"], ["es"], ""⟩,
   ⟨.oneOf ["x", "ch", "ss", "sh"], ["es"], ""⟩,
   ⟨.oneOf ["m"], ["ovies"], "ovie"⟩,
   ⟨.noneOf "aeiouy", ["ies"], "y"⟩,
   ⟨.oneOf ["qu"], ["ies"], "y"⟩,
   ⟨.oneOf ["l", "r"], ["ves"], "f"⟩,
   ⟨.oneOf ["tive", "hive"], ["s"], ""⟩,
   ⟨.noneOf "f", ["ves"], "fe"⟩,
   ⟨.oneOf ["analy", "ba", "diagno", "parenthe", "progno", "synop", "the"], ["sis", "ses"], "sis"⟩,
   ⟨.oneOf ["t", "i"], ["a"], "um"⟩,
   ⟨.oneOf ["ss"], [""], ""⟩,
   ⟨.any, ["s"], ""⟩]

end AggFlatten.Inflection
