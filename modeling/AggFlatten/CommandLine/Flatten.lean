import AggFlatten.Json.Lines
import AggFlatten.Response
import AggFlatten.Text.Space

/-! The command that flattens the text of a document. -/
namespace AggFlatten

inductive CommandError where
  | agg (cause : AggError)
  | badJson (cause : Json.ParseError)
  | notUtf8
  | noInput
  | unknownCategory (name : String)
deriving DecidableEq

def CommandError.message : CommandError → String
  | agg cause => cause.message
  | badJson cause => "Invalid JSON: " ++ cause.message
  | notUtf8 => "IO error: stream did not contain valid UTF-8"
  | noInput => "No input provided. Use --input or pipe JSON to stdin."
  | unknownCategory name =>
    "Unknown category: '" ++ name ++ "'\nRun 'agglens docs' to see available categories."

/-- A raw document is the aggregation tree itself, any other a search response. -/
structure FlattenRequest where
  expression : String
  input : Option String
  raw : Bool
  wellFormedOnly : Bool
  options : OutputOptions
deriving DecidableEq

inductive Flattened where
  | wellFormed
  | result (value : Json)
deriving DecidableEq

namespace FlattenRequest

def tree (request : FlattenRequest) (document : Json) : Except CommandError Aggregations :=
  if request.raw then .ok ⟨document⟩
  else (SearchResponse.mk document).aggregations.mapError .agg

/-- The expression is read before the input is asked for. -/
def run (request : FlattenRequest) (decode : Json.Decoder := Json.parse) :
    Except CommandError Flattened := do
  let e ← (Aggregations.parse request.expression).mapError .agg
  if request.wellFormedOnly then return .wellFormed
  match request.input with
  | none => .error .noInput
  | some input =>
    let document ← (decode input).mapError .badJson
    let aggs ← request.tree document
    return .result (← (aggs.evaluate e request.options).mapError .agg)

end FlattenRequest

inductive Format where
  | compact
  | pretty
  | lines
deriving DecidableEq

/-- The last line is left open. -/
def Format.render (format : Format) (value : Json) : String :=
  match format with
  | compact => value.compact
  | pretty => value.pretty
  | lines => String.ofList (Text.trimEnd value.lineChars)

end AggFlatten
