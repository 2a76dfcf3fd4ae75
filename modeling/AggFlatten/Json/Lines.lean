import AggFlatten.Json.Printer

/-! Documents written one record a line. -/
namespace AggFlatten.Json

/-- The items of a list, or of the only member of an object if that is a list;
anything else is one record. -/
def records : Json → List Json
  | .arr items => items
  | .obj [(_, .arr items)] => items
  | value => [value]

def lineChars (value : Json) : List Char :=
  value.records.flatMap fun record => record.compactChars ++ ['\n']

def lines (value : Json) : String :=
  String.ofList value.lineChars

end AggFlatten.Json
