import MetricRelay.Exposition.Writer
import MetricRelay.Output
import MetricRelay.Render
import MetricRelay.Scrape.Error
import MetricRelay.Scrape.Plan
import MetricRelay.SelfMetrics
/-!
The body of a scrape put together from the reports of its tasks. A metric whose task failed shows
its latest good value, if there is one, and a companion that tells so; a failed forwarder shows
nothing.
-/
namespace MetricRelay

/-- What a task that succeeded brings. -/
inductive TaskValue where
  | shaped (value : Shaped)
  | families (families : List Family)

/-- How a task ended; times are in milliseconds. -/
structure TaskReport where
  task : ScrapeTask
  finished : Nat
  result : Except ScrapeError TaskValue

/-- A failed task, as it is logged. -/
structure TaskFailure where
  service : String
  resource : String
  kind : String
  error : String
  deriving DecidableEq, Repr

def TaskFailure.message : String := "Scrape task failed"

def TaskFailure.fields (f : TaskFailure) : List (String × String) :=
  [("service", f.service), ("resource", f.resource), ("kind", f.kind), ("error", f.error)]

/-- What the reports so far add up to. -/
structure Composition where
  output : Output := {}
  lastGood : LastGood
  failures : List TaskFailure := []
  /-- Per service how many samples it gave, and when its last task ended. -/
  samples : List (ServiceId × Nat) := []
  finished : List (ServiceId × Nat) := []

namespace Composition

def tally (k : ServiceId) (f : Option Nat → Nat) (entries : List (ServiceId × Nat)) :
    List (ServiceId × Nat) :=
  (k, f ((entries.find? (·.1 == k)).map (·.2))) :: entries.filter (·.1 != k)

def addSamples (c : Composition) (service : ServiceId) (count : Nat) : Composition :=
  { c with samples := tally service (fun n => n.getD 0 + count) c.samples }

def failure (catalog : Catalog) (task : ScrapeTask) (e : ScrapeError) : TaskFailure where
  service := ((catalog.service? task.service).map (·.name)).getD ""
  resource := ((catalog.resource? task.resource).map (·.name)).getD ""
  kind := e.kind
  error := e.message

/-- When the task ended, and that it failed if it did. -/
def note (catalog : Catalog) (c : Composition) (r : TaskReport) : Composition :=
  { c with
    finished := tally r.task.service (fun t => max (t.getD 0) r.finished) c.finished
    failures := match r.result with
      | .ok _ => c.failures
      | .error e => c.failures ++ [failure catalog r.task e] }

/-- The families of a metric: its value, if there is one, and its companion. -/
def addMetric (m : Catalog.Metric) (s : Catalog.Service) (value : Option Shaped) (up : Bool)
    (c : Composition) : Composition :=
  let values := (value.map (Render.valueFamily m s.identity)).toList
  { c with output := c.output.extend (values ++ [Render.upFamily m s.identity up]) }

def addResult (catalog : Catalog) (c : Composition) (r : TaskReport) : Composition :=
  match r.task, r.result with
  | .metric service _ id, result =>
    match catalog.metric? id, catalog.service? service with
    | some m, some s =>
      match result with
      | .ok (.shaped value) =>
        let c := { c with lastGood := c.lastGood.record id value }
        addMetric m s (some value) true (c.addSamples service value.sampleCount)
      | _ => addMetric m s (c.lastGood.get? id) false c
    | _, _ => c
  | .forward service _, .ok (.families families) =>
    let c := c.addSamples service (families.foldl (fun n f => n + f.samples.length) 0)
    { c with output := c.output.extend families }
  | .forward .., _ => c

def add (catalog : Catalog) (c : Composition) (r : TaskReport) : Composition :=
  addResult catalog (note catalog c r) r

def ofReports (catalog : Catalog) (lastGood : LastGood) (reports : List TaskReport) : Composition :=
  reports.foldl (add catalog) { lastGood }

def get (k : ServiceId) (entries : List (ServiceId × Nat)) : Option Nat :=
  (entries.find? (·.1 == k)).map (·.2)

/-- The gauges of a service: how long its tasks took from the start of the scrape, and its
samples. -/
def measure (c : Composition) (started : Nat) (metrics : SelfMetrics) (s : Catalog.Service) :
    SelfMetrics :=
  let elapsed := ((get s.id c.finished).map (· - started)).getD 0
  (metrics.scrapeDuration s.origin (.ofMilliseconds elapsed)).samplesScraped s.origin
    ((get s.id c.samples).getD 0)

/-- The gauges of the exporter, then the families of the services. -/
def body (catalog : Catalog) (started : Nat) (metrics : SelfMetrics) (c : Composition) : String :=
  let metrics := catalog.services.foldl (c.measure started) metrics
  Exposition.text metrics.families ++ Exposition.text c.output.families

end Composition
end MetricRelay
