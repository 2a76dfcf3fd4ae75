/-! The pages of the manual, line by line. -/
namespace AggFlatten.Manual

def overview : List String :=
  ["AGGLENS DOCUMENTATION",
   "",
   "agglens flattens the nested aggregation results of a search backend into flat",
   "records. An expression lists the aggregations to keep; each one may carry a",
   "bracketed expression that is evaluated inside it.",
   "",
   "DOCUMENTATION CATEGORIES",
   "",
   "  syntax            Expression grammar and tokenization",
   "  types             Type keywords and the output shape each produces",
   "  scopes            Dotted names, nested brackets and name resolution",
   "  options           Count field renaming and key/value list output",
   "  errors            Lookup failures and malformed expressions",
   "",
   "QUICK REFERENCE",
   "",
   "  rate                      \x7b\"rate\": 0.85\x7d",
   "  count:onlyGoodOnes        \x7b\"onlyGoodOnes\": \x7b\"count\": 4200\x7d\x7d",
   "  terms:name                \x7b\"names\": [\x7b\"name\": \"Alice\", \"count\": 300\x7d, ...]\x7d",
   "  name[rate]                per-bucket records with the bucket's rate merged in",
   "  percentiles:latency       \x7b\"latency\": \x7b\"50.0\": 12, \"99.0\": 80\x7d\x7d",
   "",
   "Run 'agglens doc <category>' for detailed documentation."]

def grammar : List String :=
  ["SYNTAX - Expression Grammar",
   "",
   "  expression := subAgg (whitespace subAgg)*",
   "  subAgg     := [ type ':' ] namePath [ '[' expression ']' ]",
   "  namePath   := segment ('.' segment)*",
   "",
   "SUB-EXPRESSIONS",
   "  Sub-expressions are separated by whitespace. Whitespace inside brackets",
   "  belongs to the bracketed expression, at any nesting depth:",
   "",
   "    name[transaction_count conversionRate] salesTotal[sales]",
   "    => \"name[transaction_count conversionRate]\", \"salesTotal[sales]\"",
   "",
   "TYPE PREFIX",
   "  The text before ':' selects the output shape. Without a prefix the",
   "  sub-expression is a single-value metric:",
   "",
   "    rate              same as value:rate",
   "    count:clicks      document count of the 'clicks' filter",
   "",
   "NAME PATH",
   "  The last segment is the output key. Earlier segments navigate into the",
   "  current node first (see 'agglens doc scopes').",
   "",
   "    transactions.rate   => \x7b\"rate\": ...\x7d",
   "",
   "    Constraints:",
   "      - Segments are non-empty",
   "      - Segments contain no whitespace, ':' or brackets",
   "      - A bracket must close at the end of its sub-expression"]

def types : List String :=
  ["TYPES - Keywords and Output Shapes",
   "",
   "COUNT TYPES",
   "  count, filter, nested",
   "    \x7b\"name\": \x7b\"count\": doc_count\x7d\x7d",
   "    A bracketed expression is evaluated inside the aggregation and merged",
   "    next to \"count\":",
   "",
   "      filter:mobile[conversionRate]",
   "      => \x7b\"mobile\": \x7b\"count\": 120, \"conversionRate\": 0.4\x7d\x7d",
   "",
   "VALUE TYPES (default)",
   "  value, avg, sum, max, min",
   "    \x7b\"name\": value\x7d",
   "",
   "BUCKET TYPES",
   "  terms, histogram, ranges, geohashGrid, multiCount",
   "    One record per bucket, in order, stored under the plural of the name.",
   "    Each record holds the bucket key under the singular of the name and its",
   "    document count under \"count\":",
   "",
   "      terms:name",
   "      => \x7b\"names\": [\x7b\"name\": \"Alice\", \"count\": 300\x7d,",
   "                    \x7b\"name\": \"Bob\", \"count\": 200\x7d]\x7d",
   "",
   "    The bucket key is key_as_string when present, then key, then the",
   "    bucket's position (or its key in a keyed bucket object).",
   "",
   "    Any sub-expression carrying brackets is flattened as a bucket list,",
   "    so 'name[rate]' equals 'terms:name[rate]'.",
   "",
   "MULTI-VALUE TYPES",
   "  percentiles, multiValue",
   "    \x7b\"name\": values\x7d with the keys of the 'values' map preserved, or a",
   "    list of \x7b\"key\", \"value\"\x7d pairs with --as-array."]

def scopes : List String :=
  ["SCOPES - Name Resolution",
   "",
   "CURRENT NODE",
   "  Names are always resolved against the current node, never the top of",
   "  the response. At the top level the current node is the aggregations",
   "  section; inside brackets it is the bucket or child aggregation.",
   "",
   "DOTTED NAMES",
   "  transactions.rate",
   "    Navigates into 'transactions', then reads 'rate'. The output key is",
   "    'rate'. If 'transactions' does not exist the current node is used.",
   "",
   "NESTED BRACKETS",
   "  name[salesTotal[sales]]",
   "    => \x7b\"names\": [\x7b\"name\": \"Alice\", \"count\": 300,",
   "                   \"salesTotals\": [\x7b\"salesTotal\": \"10-20\", \"count\": 10,",
   "                                    \"sales\": 2\x7d]\x7d]\x7d",
   "",
   "MERGING",
   "  Results of all sub-expressions are merged into one object. Objects merge",
   "  key by key, lists under the same key are concatenated, and any other",
   "  repeated key keeps the later value."]

def options : List String :=
  ["OPTIONS - Shaping Output",
   "",
   "  --count-field <NAME>",
   "    Rename the per-bucket count field:",
   "",
   "      agglens flatten 'terms:name' --count-field clicks",
   "      => \x7b\"names\": [\x7b\"name\": \"Alice\", \"clicks\": 300\x7d]\x7d",
   "",
   "  --as-array",
   "    Emit percentiles and multiValue results as key/value lists:",
   "",
   "      agglens flatten 'multiValue:rates' --as-array",
   "      => \x7b\"rates\": [\x7b\"key\": \"25\", \"value\": 0.2\x7d,",
   "                    \x7b\"key\": \"50\", \"value\": 0.45\x7d]\x7d",
   "",
   "  --raw",
   "    Treat the input as the aggregations section itself instead of a full",
   "    search response.",
   "",
   "  --pretty / --ndjson",
   "    Pretty-print, or write one record per line.",
   "",
   "  --syntax-only",
   "    Validate the expression without reading input."]

def errors : List String :=
  ["ERRORS - Failure Reporting",
   "",
   "LOOKUP FAILURES",
   "  A name that does not exist in the current node aborts the whole",
   "  evaluation; no partial result is returned. The error names the",
   "  expression (or accessor field) being computed and carries the raw",
   "  aggregations it was computed from:",
   "",
   "    error parsing aggregation at: filter:ratios.values.25",
   "",
   "  Missing doc_count, value, buckets or values fields are lookup failures.",
   "  A metric whose value is null is returned as null.",
   "",
   "MALFORMED EXPRESSIONS",
   "  Reported before anything is evaluated:",
   "    - unbalanced brackets          name[rate",
   "    - unknown type keyword         median:latency",
   "    - empty or invalid name        terms:[rate]   a..b",
   "    - text after a bracket         name[rate]x",
   "    - empty brackets               name[]",
   "",
   "RESPONSE ERRORS",
   "  Input that is not JSON, or a search response without an aggregations",
   "  section, is reported separately from the two kinds above."]

end AggFlatten.Manual
