import AggFlatten.Aggregation.Flatten

/-! Reading one aggregation by its type. -/
namespace AggFlatten.Aggregations

variable (aggs : Aggregations) (path : String) (options : OutputOptions) (within : Option String)

def count := aggs.access .count path options within
def filter := aggs.access .filter path options within
def nested := aggs.access .nested path options within

def value := aggs.access .value path {} none
def avg := aggs.access .avg path {} none
def sum := aggs.access .sum path {} none
def max := aggs.access .max path {} none
def min := aggs.access .min path {} none

def terms := aggs.access .terms path options within
def histogram := aggs.access .histogram path options within
def ranges := aggs.access .ranges path options within
def geohashGrid := aggs.access .geohashGrid path options within
def multiCount := aggs.access .multiCount path options within

def percentiles := aggs.access .percentiles path options within
def multiValue := aggs.access .multiValue path options within

end AggFlatten.Aggregations
