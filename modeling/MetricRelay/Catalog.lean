import MetricRelay.Config.Model
import MetricRelay.Relabel
import MetricRelay.Url
/-!
The index that a scrape runs on: all services, resources and metrics in flat lists, each known by
its position. Building it loses nothing and checks nothing.
-/
namespace MetricRelay

structure ServiceId where
  index : Nat
  deriving DecidableEq, Repr

structure ResourceId where
  index : Nat
  deriving DecidableEq, Repr

structure MetricId where
  index : Nat
  deriving DecidableEq, Repr

namespace Method

/-- The characters that the name of a request method may have. -/
def isTokenChar (c : Char) : Bool :=
  c.isAlphanum || "!#$%&'*+-.^_`|~".toList.contains c

def isValid (method : String) : Bool :=
  !method.toList.isEmpty && method.toList.all isTokenChar

end Method

/-- Upper bounds of histogram buckets: a list, or powers of a factor. -/
inductive BucketSpec where
  | explicit (bounds : List Float)
  | exponential (start factor : Float) (count : Nat)

namespace BucketSpec

/-- `start`, `start · factor`, … -/
def powers (factor : Float) : Nat → Float → List Float
  | 0, _ => []
  | n + 1, x => x :: powers factor n (x * factor)

def bounds : BucketSpec → List Float
  | .explicit bounds => bounds
  | .exponential start factor count => powers factor count start

end BucketSpec

/-- What a metric turns a document into. -/
inductive Form where
  | scalar | vector | histogram
  deriving DecidableEq, Repr

/-- The owner of a token: a service, or one resource with a table of its own. -/
structure AuthScope where
  service : ServiceId
  resource : Option ResourceId
  deriving DecidableEq, Repr

/-- The auth of a resource in the index. -/
inductive AuthRule where
  | inherited
  | disabled
  | own (table : AuthTable)
  deriving DecidableEq, Repr

namespace Catalog

structure Service where
  id : ServiceId
  name : String
  protocol : Protocol
  host : String
  port : Nat
  basePath : String
  auth : Option AuthTable
  resources : List ResourceId
  deriving DecidableEq, Repr

namespace Service

/-- The host and the port, which tell one instance of a job from another. -/
def hostPort (s : Service) : String := s.host ++ ":" ++ Number.text s.port

def identity (s : Service) : Identity := ⟨s.name, s.hostPort⟩

/-- The origin of the self metrics of the whole service. -/
def origin (s : Service) : SelfMetrics.Origin := ⟨s.name, s.hostPort, none⟩

/-- The location that the resources of the service are joined to; for files it is the directory. -/
def baseUrl (s : Service) : String :=
  match s.protocol with
  | .file => "file://" ++ Url.withoutTrailingSlashes s.basePath
  | p => Url.join (p.text ++ "://" ++ s.hostPort) (Url.withoutTrailingSlashes s.basePath)

end Service

structure Resource where
  id : ResourceId
  service : ServiceId
  name : String
  uri : String
  method : String
  kind : ResourceKind
  decoder : Dialect
  auth : AuthRule
  metrics : List MetricId
  /-- The resolved location, which also names the source in the self metrics. -/
  url : String
  deriving DecidableEq, Repr

structure LabelSpec where
  name : String
  dialect : String
  path : String
  deriving DecidableEq, Repr

structure Metric where
  id : MetricId
  service : ServiceId
  name : String
  type : MetricType
  description : String
  dialect : String
  path : String
  labels : List LabelSpec
  buckets : Option BucketSpec
  itemPath : Option String

namespace Metric

def form (m : Metric) : Form :=
  match m.type with
  | .histogram => .histogram
  | _ => if m.labels.isEmpty then .scalar else .vector

/-- The description, or the name when there is none. -/
def help (m : Metric) : String := if m.description.isEmpty then m.name else m.description

end Metric
end Catalog

open Catalog in
structure Catalog where
  services : List Service := []
  resources : List Resource := []
  metrics : List Metric := []

namespace Catalog

def service? (c : Catalog) (id : ServiceId) : Option Service := c.services[id.index]?

def resource? (c : Catalog) (id : ResourceId) : Option Resource := c.resources[id.index]?

def metric? (c : Catalog) (id : MetricId) : Option Metric := c.metrics[id.index]?

def authTable (t : AuthTable) : AuthTable := { t with tokenPath := Url.rooted t.tokenPath }

def bucketSpec (h : Config.Histogram) : Option BucketSpec :=
  match h.buckets, h.exponential with
  | some bounds, _ => some (.explicit bounds)
  | none, some e => some (.exponential e.start e.factor e.count)
  | none, none => none

def metric (id : MetricId) (service : ServiceId) (m : Config.Metric) : Metric where
  id
  service
  name := m.name
  type := m.type
  description := m.description
  dialect := m.solver.dialect
  path := Url.rooted m.solver.path
  labels := m.labels.map fun l => ⟨l.name, l.solver.dialect, Url.rooted l.solver.path⟩
  buckets := m.histogram.bind bucketSpec
  itemPath := m.itemPath.map Url.rooted

def authRule : Option AuthChoice → AuthRule
  | none | some .inherit => .inherited
  | some .none => .disabled
  | some (.own table) => .own (authTable table)

/-- A resource in the index. The names it lists stand for the first metrics of its service with
these names; a method that cannot be sent stands for `GET`; a forwarder always reads exposition
text. -/
def resource (id : ResourceId) (service : Service) (owned : List Metric) (r : Config.Resource) :
    Resource where
  id
  service := service.id
  name := r.name
  uri := r.uri
  method := if Method.isValid r.method then r.method else "GET"
  kind := r.kind
  decoder := match r.kind with
    | .forwarder => .prometheus
    | .api => r.decoder
  auth := authRule r.auth
  metrics := r.metrics.filterMap fun name => (owned.find? (·.name == name)).map (·.id)
  url := Url.join service.baseUrl r.uri

/-- Add a service with its metrics and resources at the ends of the lists. -/
def append (c : Catalog) (d : Config.Definition) : Catalog :=
  let id : ServiceId := ⟨c.services.length⟩
  let service : Service := {
    id
    name := d.service.name
    protocol := d.service.protocol
    host := d.service.host
    port := d.service.port
    basePath := d.service.basePath
    auth := d.service.auth.map authTable
    resources := d.resources.mapIdx fun i _ => ⟨c.resources.length + i⟩ }
  let metrics := d.metrics.mapIdx fun i m => metric ⟨c.metrics.length + i⟩ id m
  let resources := d.resources.mapIdx fun i r =>
    resource ⟨c.resources.length + i⟩ service metrics r
  { services := c.services ++ [service]
    resources := c.resources ++ resources
    metrics := c.metrics ++ metrics }

def build (definitions : List Config.Definition) : Catalog := definitions.foldl append {}

/-- The auth that applies to a resource. A forwarder is authenticated only by a table of its own. -/
def authFor? (c : Catalog) (id : ResourceId) : Option (AuthScope × AuthTable) := do
  let resource ← c.resource? id
  let service ← c.service? resource.service
  match resource.auth with
  | .disabled => none
  | .own table => some (⟨service.id, some id⟩, table)
  | .inherited =>
    match resource.kind with
    | .forwarder => none
    | .api => service.auth.map fun table => (⟨service.id, none⟩, table)

/-- An auth scope with its table and the location its token comes from. -/
structure ScopeEntry where
  scope : AuthScope
  table : AuthTable
  url : String
  deriving DecidableEq, Repr

def scopeEntry? (c : Catalog) (id : ResourceId) : Option ScopeEntry := do
  let (scope, table) ← c.authFor? id
  let service ← c.service? scope.service
  some ⟨scope, table, Url.join service.baseUrl table.endpoint⟩

/-- Every scope once, in order of the first resource that needs it. -/
def scopes (c : Catalog) : List ScopeEntry :=
  (c.resources.filterMap fun r => c.scopeEntry? r.id).foldl
    (fun acc e => if acc.any (·.scope == e.scope) then acc else acc ++ [e]) []

end Catalog
end MetricRelay
