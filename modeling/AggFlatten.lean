import AggFlatten.Aggregation.Accessors
import AggFlatten.Main
import AggFlatten.Proofs.Aggregation.Agreement
import AggFlatten.Proofs.Aggregation.Nesting
import AggFlatten.Proofs.Expression.Unambiguity
import AggFlatten.Proofs.Expression.Imbalance
import AggFlatten.Proofs.Expression.Layout
import AggFlatten.Proofs.Expression.Calls
import AggFlatten.Proofs.Expression.Trimming
import AggFlatten.Proofs.Json.Merge
import AggFlatten.Proofs.Aggregation.Order
import AggFlatten.Proofs.Aggregation.Records
import AggFlatten.Proofs.CommandLine.Library
import AggFlatten.Proofs.Aggregation.Provenance
import AggFlatten.Proofs.Aggregation.Locality
import AggFlatten.Proofs.Json.Associativity
import AggFlatten.Proofs.Aggregation.Kinds
import AggFlatten.Proofs.Aggregation.Options
import AggFlatten.Proofs.Json.Paths
import AggFlatten.Proofs.Json.Reading
import AggFlatten.Proofs.Inflection.LastWord
import AggFlatten.Proofs.Inflection.Place
import AggFlatten.Proofs.Inflection.Ending
import AggFlatten.Proofs.Inflection.Lists
import AggFlatten.Proofs.Inflection.RoundTrip
import AggFlatten.Proofs.Inflection.Plural
import AggFlatten.Proofs.Inflection.Singular
import AggFlatten.Proofs.Inflection.Initial
import AggFlatten.Proofs.Aggregation.Outline
import AggFlatten.Proofs.CommandLine.Lines
import AggFlatten.Proofs.Aggregation.Lookup
import AggFlatten.Proofs.Expression.InPlace
import AggFlatten.Proofs.Aggregation.Position
