import MetricRelay.Catalog
import MetricRelay.Config.Problem
/-!
The rules of a configuration. All of them are checked, and the problems come in the order of what
they are about: settings, then service after service with its metrics and resources, then what
services disagree on.
-/
namespace MetricRelay
namespace Config

/-- The problem, when the rule does not hold. -/
def ensure (holds : Bool) (problem : Problem) : List Problem := if holds then [] else [problem]

/-- The labels that every sample carries already. -/
def reservedLabels : List String := ["job", "instance"]

def isMetricName (name : String) : Bool :=
  match name.toList with
  | [] => false
  | c :: cs =>
    (c.isAlpha || c == '_' || c == ':') && cs.all fun c => c.isAlphanum || c == '_' || c == ':'

/-- A label name does not start with two underscores. -/
def isLabelName (name : String) : Bool :=
  match name.toList with
  | [] => false
  | c :: cs =>
    (c.isAlpha || c == '_') && !(c == '_' && cs.head? == some '_')
      && cs.all fun c => c.isAlphanum || c == '_'

namespace Settings

def problems (s : Settings) : List Problem :=
  ensure (s.server.metricsPath.toList.head? == some '/')
      (.metricsPathNotRooted s.server.metricsPath)
    ++ ensure (s.scrape.workers != 0) .noWorkers

end Settings

namespace Solver

/-- A path that says something, in the one dialect there is. -/
def problems (owner : String) (s : Solver) : List Problem :=
  ensure (!Text.allBlank s.path) (.emptySolverPath owner)
    ++ ensure (s.dialect.toList.map Char.toLower == "jsonpath".toList)
      (.unknownDialect owner s.dialect)

end Solver

def authProblems (owner : String) (t : AuthTable) : List Problem :=
  [(AuthField.headerName, t.headerName), (.endpoint, t.endpoint), (.tokenPath, t.tokenPath)].flatMap
    fun (field, text) => ensure (!Text.allBlank text) (.emptyAuthField owner field)

namespace Service

/-- The location that is checked. -/
def checkedUrl (s : Service) : String :=
  s.protocol.text ++ "://" ++ s.host ++ ":" ++ Number.text s.port ++ "/"
    ++ Url.withoutLeadingSlashes s.basePath

def webProblems (check : Url.Check) (s : Service) : List Problem :=
  if s.port = 0 ∨ s.port > Number.maxU16 then [.badPort s.name s.port]
  else
    match check s.checkedUrl with
    | .ok _ => []
    | .error reason => [.badBaseUrl s.name s.checkedUrl reason]

def problems (check : Url.Check) (s : Service) : List Problem :=
  ensure (s.name != "") .unnamedService
    ++ (if s.protocol.isHttp then s.webProblems check else [])
    ++ (match s.auth with
      | some table => authProblems s.name table
      | none => [])

def warnings (s : Service) : List Warning :=
  if s.protocol = .file ∧ s.auth.isSome then [.fileServiceAuth s.name] else []

end Service

namespace Histogram

/-- Two neighbours of which the first is not below the second. A number that does not compare stands
below nothing and above nothing. -/
def disordered : List Float → Bool
  | a :: b :: rest => b ≤ a || disordered (b :: rest)
  | _ => false

def faults (h : Option Histogram) : Option (List BucketFault) :=
  match h.bind (·.buckets), h.bind (·.exponential) with
  | some [], none => some [.noBounds]
  | some bounds, none => some (if disordered bounds then [.notIncreasing] else [])
  | none, some e => some (
    (if e.start ≤ 0 then [.startNotPositive] else [])
      ++ (if e.factor ≤ 1 then [.factorTooSmall] else [])
      ++ (if e.count = 0 then [.noCount] else []))
  | _, _ => none

end Histogram

namespace Metric

def labelProblems (service : String) (m : Metric) (l : LabelEntry) : List Problem :=
  ensure (isLabelName l.name && !reservedLabels.contains l.name)
      (.badLabelName service m.name l.name)
    ++ l.solver.problems (service ++ "/" ++ m.name ++ "/" ++ l.name)

/-- The rules that depend on the type. -/
def typeProblems (service : String) (m : Metric) : List Problem :=
  match m.type with
  | .summary => [.unsupportedSummary service m.name]
  | .histogram =>
    ensure m.labels.isEmpty (.labelledHistogram service m.name)
      ++ (match Histogram.faults m.histogram with
        | some faults => faults.map (.badBuckets service m.name)
        | none => [.bucketChoice service m.name])
  | .counter | .gauge =>
    ensure m.histogram.isNone (.unexpectedBuckets service m.name)
      ++ ensure (m.labels.isEmpty || m.itemPath.isSome) (.missingItemPath service m.name)

def problems (service : String) (m : Metric) : List Problem :=
  ensure (isMetricName m.name) (.badMetricName service m.name)
    ++ m.solver.problems (service ++ "/" ++ m.name)
    ++ m.labels.flatMap (m.labelProblems service)
    ++ m.typeProblems service

end Metric

namespace Definition

def metricNames (d : Definition) : List String := d.metrics.map (·.name)

/-- The names that all resources list, in order. -/
def fed (d : Definition) : List String := d.resources.flatMap (·.metrics)

/-- The metrics in order; one whose name was used before says so first. -/
def metricProblems (service : String) : List String → List Metric → List Problem
  | _, [] => []
  | seen, m :: ms =>
    ensure (!seen.contains m.name) (.repeatedMetric service m.name)
      ++ m.problems service ++ metricProblems service (m.name :: seen) ms

/-- The names that a resource lists: each at most once in the service, and each known. -/
def listProblems (d : Definition) (resource : String) : List String → List String → List Problem
  | _, [] => []
  | seen, name :: names =>
    ensure (!seen.contains name) (.metricFedTwice d.service.name name)
      ++ ensure (d.metricNames.contains name) (.unknownMetric d.service.name resource name)
      ++ listProblems d resource (name :: seen) names

def resourceProblems (d : Definition) : List String → List Resource → List Problem
  | _, [] => []
  | seen, r :: rs =>
    ensure (Method.isValid r.method) (.badMethod d.service.name r.name r.method)
      ++ (match r.auth with
        | some (.own table) => authProblems (d.service.name ++ "/" ++ r.name) table
        | _ => [])
      ++ ensure (r.kind != .forwarder || r.metrics.isEmpty)
        (.forwarderMetrics d.service.name r.name)
      ++ d.listProblems r.name seen r.metrics
      ++ resourceProblems d (r.metrics.reverse ++ seen) rs

def problems (check : Url.Check) (d : Definition) : List Problem :=
  d.service.problems check ++ metricProblems d.service.name [] d.metrics
    ++ d.resourceProblems [] d.resources

def warnings (d : Definition) : List Warning :=
  d.service.warnings
    ++ (d.metricNames.filter (!d.fed.contains ·)).map (.unfedMetric d.service.name)

end Definition

/-- Definitions in order; one whose service name was used before says so first. -/
def definitionProblems (check : Url.Check) : List String → List Definition → List Problem
  | _, [] => []
  | seen, d :: ds =>
    let name := d.service.name
    ensure (name == "" || !seen.contains name) (.repeatedService name)
      ++ d.problems check ++ definitionProblems check (name :: seen) ds

/-- A metric of a service. -/
structure Declared where
  service : String
  metric : String
  type : MetricType
  deriving DecidableEq, Repr

def declared (ds : List Definition) : List Declared :=
  ds.flatMap fun d => d.metrics.map fun m => ⟨d.service.name, m.name, m.type⟩

/-- The first metric of a name settles its type for all services. -/
def typeConflicts : List Declared → List Declared → List Problem
  | _, [] => []
  | seen, x :: xs =>
    match seen.find? (·.metric == x.metric) with
    | none => typeConflicts (seen ++ [x]) xs
    | some first =>
      ensure (first.type == x.type)
          (.conflictingType x.metric x.service x.type first.service first.type)
        ++ typeConflicts seen xs

end Config

open Config

/-- Every problem of a configuration, in order. -/
def Config.problems (check : Url.Check) (c : Config) : List Problem :=
  c.settings.problems ++ definitionProblems check [] c.definitions
    ++ typeConflicts [] (declared c.definitions)

def Config.warnings (c : Config) : List Warning := c.definitions.flatMap (·.warnings)

end MetricRelay
