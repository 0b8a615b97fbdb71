import MetricRelay.Number.Real
/-!
Metric families of the text exposition format: a name, an optional help text, a kind and samples. A
family owns the samples that carry its name, alone or with one of five suffixes.
-/
namespace MetricRelay

inductive MetricKind where
  | counter | gauge | histogram | summary | untyped
  deriving DecidableEq, Repr

def MetricKind.text : MetricKind → String
  | .counter => "counter"
  | .gauge => "gauge"
  | .histogram => "histogram"
  | .summary => "summary"
  | .untyped => "untyped"

/-- An unknown word names no kind, so the family stays untyped. -/
def MetricKind.ofText : String → MetricKind
  | "counter" => .counter
  | "gauge" => .gauge
  | "histogram" => .histogram
  | "summary" => .summary
  | _ => .untyped

structure Label where
  name : String
  value : String
  deriving DecidableEq, Repr

structure Sample where
  name : String
  labels : List Label
  value : Float
  timestamp : Option Int := none

/-- The value of the first label with this name. -/
def Sample.label? (sample : Sample) (name : String) : Option String :=
  (sample.labels.find? (·.name == name)).map (·.value)

structure Family where
  name : String
  help : Option String := none
  kind : MetricKind := .untyped
  samples : List Sample := []

namespace Family

/-- What may follow the name of a family in the names of its samples. -/
def suffixes : List String := ["_bucket", "_sum", "_count", "_total", "_created"]

def owns (family : Family) (sampleName : String) : Bool :=
  sampleName == family.name || suffixes.any fun s => sampleName == family.name ++ s

end Family

/-- Names of the families with at least one sample that lacks the label. -/
def familiesMissing (label : String) (families : List Family) : List String :=
  (families.filter fun f => f.samples.any fun s => (s.label? label).isNone).map (·.name)

end MetricRelay
