import AggFlatten.Inflection.English
import AggFlatten.Inflection.LastWord

/-! Singular and plural of names. Only the last word of a name changes, and its first
letter keeps its case. -/
namespace AggFlatten

namespace Inflection

/-- The words of the lists are ASCII without a k, and beside the capital letters of ASCII
only the Kelvin sign has an ASCII lower case, so ASCII decides which word this is. -/
def lowercase (word : List Char) : List Char :=
  word.map Char.toLower

def capitalizeLike (model : List Char) (word : List Char) : List Char :=
  match model, word with
  | m :: _, c :: rest => if Text.isCapital m then c.toUpper :: rest else c :: rest
  | _, _ => word

/-- The pair of which the word is one form or the other. -/
def irregular? (word : List Char) : Option WordPair :=
  irregular.find? fun pair => word = pair.singular.toList || word = pair.plural.toList

/-- The word lists come before the rules. -/
def inflectWord (form : WordPair → String) (rules : List Rule) (word : List Char) : List Char :=
  let lower := lowercase word
  if uncountable.any fun u => lower = u.toList then word
  else
    match irregular? lower with
    | some pair => capitalizeLike word (form pair).toList
    | none =>
      match firstOutcome? rules word.reverse with
      | some letters => letters.reverse
      | none => word

def inflect (form : WordPair → String) (rules : List Rule) (name : List Char) : List Char :=
  match cutLastWord name with
  | (_, []) => name
  | (front, last) => front ++ inflectWord form rules last

end Inflection

def pluralize (name : String) : String :=
  let plural := Inflection.inflect (·.plural) Inflection.pluralRules name.toList
  String.ofList plural

def singularize (name : String) : String :=
  let singular := Inflection.inflect (·.singular) Inflection.singularRules name.toList
  String.ofList singular

end AggFlatten
