import MetricRelay.Exposition.Writer
import MetricRelay.Keyed
import MetricRelay.Nanoseconds
import MetricRelay.Text.Utf8
/-!
The gauges by which the exporter measures its own scrapes: per service the duration and the number
of samples, per source the time to the answer and the time to the decoded answer. They start empty
for every scrape, and only gauges with a series are written. A gauge tells its series apart by a
number that is made of their label values.
-/
namespace MetricRelay

namespace SelfMetrics

inductive Gauge where
  | scrapeDuration
  | samplesScraped
  | sourceScrapeDuration
  | sourceResponseDuration
  | forwarderResponseDuration
  | forwarderScrapeDuration
  deriving DecidableEq, Repr

namespace Gauge

def name : Gauge → String
  | .scrapeDuration => "scrape_duration_seconds"
  | .samplesScraped => "scrape_samples_scraped"
  | .sourceScrapeDuration => "data_source_scrape_duration_seconds"
  | .sourceResponseDuration => "data_source_response_duration_seconds"
  | .forwarderResponseDuration => "fordwader_response_duration_seconds"
  | .forwarderScrapeDuration => "fordwader_scrape_duration_seconds"

def help : Gauge → String
  | .scrapeDuration => "Wall-clock duration of the scrape, per service"
  | .samplesScraped => "Samples emitted for the service in this scrape"
  | .sourceScrapeDuration => "Fetch and decode duration per data source"
  | .sourceResponseDuration => "Upstream round-trip duration per data source"
  | .forwarderResponseDuration => "Upstream round-trip duration per forwarded source"
  | .forwarderScrapeDuration => "Fetch, parse and relabel duration per forwarded source"

/-- Every gauge, in order of the names. -/
def all : List Gauge :=
  [.sourceResponseDuration, .sourceScrapeDuration, .forwarderResponseDuration,
    .forwarderScrapeDuration, .scrapeDuration, .samplesScraped]

end Gauge

/-- The family names that nothing but these gauges may write. -/
def reservedNames : List String := Gauge.all.map Gauge.name

/-- What a series belongs to: a service, or one source of a service. -/
structure Origin where
  job : String
  hostPort : String
  source : Option String := none
  deriving DecidableEq, Repr

namespace Origin

/-- The label values in the order in which the gauges declare their labels. -/
def values (o : Origin) : List String := [o.job, o.hostPort] ++ o.source.toList

/-- The labels in order of their names. -/
def labels (o : Origin) : List Label :=
  (match o.source with
    | none => []
    | some source => [⟨"datasource", source⟩])
  ++ [⟨"instance", o.hostPort⟩, ⟨"job", o.job⟩]

/-- The label values in order of the labels, by which the series of a gauge are sorted. -/
def sortKey (o : Origin) : List String := o.labels.map (·.value)

end Origin

structure Series where
  origin : Origin
  value : Float

/-- How a gauge finds the series of some label values. -/
abbrev Key := List String → UInt64

/-- The 64-bit FNV-1a hash. -/
def fnv (bytes : Text.Bytes) : UInt64 :=
  bytes.foldl (fun hash b => (hash ^^^ b.toUInt64) * 0x100000001b3) 0xcbf29ce484222325

/-- The values are hashed one after another, with nothing in between. -/
def hashed : Key := fun values => fnv (values.flatMap Text.Utf8.encode)

/-- Set the series of `origin`; the labels of a series stay those it was started with. -/
def setSeries (key : Key) (origin : Origin) (value : Float) : List Series → List Series
  | [] => [⟨origin, value⟩]
  | s :: rest =>
    if key s.origin.values = key origin.values then { s with value } :: rest
    else s :: setSeries key origin value rest

end SelfMetrics

open SelfMetrics in
/-- The series of every gauge, in the order in which they were started. -/
structure SelfMetrics where
  series : Gauge → List Series := fun _ => []
  key : Key := hashed

namespace SelfMetrics

def set (m : SelfMetrics) (gauge : Gauge) (origin : Origin) (value : Float) : SelfMetrics :=
  { m with series := fun g =>
      if g = gauge then setSeries m.key origin value (m.series g) else m.series g }

def scrapeDuration (m : SelfMetrics) (origin : Origin) (elapsed : Nanoseconds) : SelfMetrics :=
  m.set .scrapeDuration origin elapsed.seconds

def samplesScraped (m : SelfMetrics) (origin : Origin) (samples : Nat) : SelfMetrics :=
  m.set .samplesScraped origin (Float.ofNat samples)

/-- The times of one source: until it answered, and until the answer was decoded. -/
structure Timing where
  response : Nanoseconds
  total : Nanoseconds
  deriving Repr

def dataSource (m : SelfMetrics) (origin : Origin) (timing : Timing) : SelfMetrics :=
  (m.set .sourceResponseDuration origin timing.response.seconds).set
    .sourceScrapeDuration origin timing.total.seconds

def forwarder (m : SelfMetrics) (origin : Origin) (timing : Timing) : SelfMetrics :=
  (m.set .forwarderResponseDuration origin timing.response.seconds).set
    .forwarderScrapeDuration origin timing.total.seconds

/-- The series of a gauge in the order of their label values. -/
def sorted (series : List Series) : List Series :=
  series.mergeSort fun a b => !decide (b.origin.sortKey < a.origin.sortKey)

def family (m : SelfMetrics) (gauge : Gauge) : Family where
  name := gauge.name
  help := some gauge.help
  kind := .gauge
  samples := (sorted (m.series gauge)).map fun s => ⟨gauge.name, s.origin.labels, s.value, none⟩

/-- The families of the gauges that were set. -/
def families (m : SelfMetrics) : List Family :=
  (Gauge.all.map m.family).filter fun f => !f.samples.isEmpty

end SelfMetrics
end MetricRelay
