import AggFlatten.Manual.Pages

/-! The manual: an overview, and a page for each category. -/
namespace AggFlatten.Manual

inductive Category where
  | grammar
  | types
  | scopes
  | options
  | errors
deriving DecidableEq

def text (page : List String) : String :=
  String.join (page.map (· ++ "\n"))

def Category.page : Category → List String
  | grammar => Manual.grammar
  | types => Manual.types
  | scopes => Manual.scopes
  | options => Manual.options
  | errors => Manual.errors

def Category.names : Category → List String
  | grammar => ["syntax", "grammar"]
  | types => ["types", "type"]
  | scopes => ["scopes", "scope", "nesting"]
  | options => ["options", "option", "flags"]
  | errors => ["errors", "error"]

/-- The case of a name does not matter. No name holds a k, so that lower-casing ASCII
letters is enough. -/
def Category.ofName? (name : String) : Option Category :=
  let lower := String.ofList (name.toList.map Char.toLower)
  [grammar, types, scopes, options, errors].find? (·.names.contains lower)

end AggFlatten.Manual
