import MetricRelay.Config.Rules

/-!
# Valid configurations

What makes a configuration valid, said of the configuration alone and with no
order in which anything is checked. A name is spelt from classes of characters,
a list of bounds increases, a listed metric is declared; what a definition asks
of its parts is a structure with one field for each rule.
-/

namespace MetricRelay.Config

/-! ### Names and texts -/

def IsLetter (c : Char) : Prop := 'a' ≤ c ∧ c ≤ 'z' ∨ 'A' ≤ c ∧ c ≤ 'Z'

def IsDigit (c : Char) : Prop := '0' ≤ c ∧ c ≤ '9'

/-- One character of a first class and then any number of a second one. -/
def Spelt (first later : Char → Prop) (text : String) : Prop :=
  ∃ c cs, text.toList = c :: cs ∧ first c ∧ ∀ d ∈ cs, later d

/-- `[a-zA-Z_:][a-zA-Z0-9_:]*` -/
def MetricName : String → Prop :=
  Spelt (fun c => IsLetter c ∨ c = '_' ∨ c = ':')
    fun c => IsLetter c ∨ IsDigit c ∨ c = '_' ∨ c = ':'

/-- `[a-zA-Z_][a-zA-Z0-9_]*`, and neither two underscores first nor a name that
the exporter gives out itself. -/
structure LabelName (name : String) : Prop where
  spelt : Spelt (fun c => IsLetter c ∨ c = '_') (fun c => IsLetter c ∨ IsDigit c ∨ c = '_') name
  not_internal : ¬ ['_', '_'] <+: name.toList
  ne_job : name ≠ "job"
  ne_instance : name ≠ "instance"

/-- A text with a character that is no white space. -/
def Worded (text : String) : Prop := ∃ c ∈ text.toList, ¬ Text.isBlank c

def IsMethodChar (c : Char) : Prop :=
  IsLetter c ∨ IsDigit c ∨ c ∈ "!#$%&'*+-.^_`|~".toList

def MethodName : String → Prop := Spelt IsMethodChar IsMethodChar

/-! ### Services -/

structure Solver.Valid (s : Solver) : Prop where
  path : Worded s.path
  dialect : s.dialect.toLower = "jsonPath".toLower

structure Filled (t : AuthTable) : Prop where
  headerName : Worded t.headerName
  endpoint : Worded t.endpoint
  tokenPath : Worded t.tokenPath

structure Service.Web (check : Url.Check) (s : Service) : Prop where
  port_pos : 1 ≤ s.port
  port_le : s.port ≤ 65535
  base : check s.checkedUrl = .ok ()

structure Service.Valid (check : Url.Check) (s : Service) : Prop where
  named : s.name ≠ ""
  web : s.protocol ≠ .file → s.Web check
  auth : ∀ table, s.auth = some table → Filled table

/-! ### Metrics -/

/-- One way to give the bounds of buckets, and bounds that stand apart. -/
inductive Histogram.Valid : Histogram → Prop
  | listed {bounds : List Float} (ne_nil : bounds ≠ []) (increasing : bounds.Pairwise (· < ·)) :
    Histogram.Valid ⟨some bounds, none⟩
  | powers {e : Exponential} (start : 0 < e.start) (factor : 1 < e.factor) (count : 1 ≤ e.count) :
    Histogram.Valid ⟨none, some e⟩

structure LabelEntry.Valid (l : LabelEntry) : Prop where
  name : LabelName l.name
  solver : l.solver.Valid

/-- What goes with the type of a metric. Nothing goes with a summary. -/
inductive Metric.Typed (m : Metric) : Prop
  | histogram {h : Histogram} (type : m.type = .histogram) (unlabelled : m.labels = [])
    (given : m.histogram = some h) (buckets : h.Valid)
  | single (type : m.type = .counter ∨ m.type = .gauge) (no_buckets : m.histogram = none)
    (items : m.labels ≠ [] → m.itemPath ≠ none)

structure Metric.Valid (m : Metric) : Prop where
  name : MetricName m.name
  solver : m.solver.Valid
  labels : ∀ l ∈ m.labels, l.Valid
  typed : m.Typed

/-! ### Definitions -/

structure Resource.Valid (r : Resource) (d : Definition) : Prop where
  method : MethodName r.method
  auth : ∀ table, r.auth = some (.own table) → Filled table
  forwarder : r.kind = .forwarder → r.metrics = []
  declared : ∀ name ∈ r.metrics, name ∈ d.metricNames

structure Definition.Valid (check : Url.Check) (d : Definition) : Prop where
  service : d.service.Valid check
  metrics : ∀ m ∈ d.metrics, m.Valid
  distinct : d.metricNames.Nodup
  resources : ∀ r ∈ d.resources, r.Valid d
  fed_once : d.fed.Nodup

end Config

open Config

structure Config.Valid (check : Url.Check) (c : Config) : Prop where
  metricsPath : ['/'] <+: c.settings.server.metricsPath.toList
  workers : 1 ≤ c.settings.scrape.workers
  definitions : ∀ d ∈ c.definitions, d.Valid check
  distinct : (c.definitions.map (·.service.name)).Nodup
  types : ∀ d ∈ c.definitions, ∀ m ∈ d.metrics, ∀ d' ∈ c.definitions, ∀ m' ∈ d'.metrics,
    m.name = m'.name → m.type = m'.type

structure Config.Histogram.Comparable (h : Histogram) : Prop where
  listed : ∀ bounds, h.buckets = some bounds → ∀ x ∈ bounds, x.isNaN = false
  powers : ∀ e, h.exponential = some e → e.start.isNaN = false ∧ e.factor.isNaN = false

/-- No bucket of the configuration is given by what is no number. -/
def Config.Comparable (c : Config) : Prop :=
  ∀ d ∈ c.definitions, ∀ m ∈ d.metrics, ∀ h, m.histogram = some h → h.Comparable

end MetricRelay
