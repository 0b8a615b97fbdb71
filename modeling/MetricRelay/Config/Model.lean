import MetricRelay.Address
import MetricRelay.ByteSize
import MetricRelay.Document
import MetricRelay.SelfMetrics
/-!
What a configuration declares: settings of the exporter itself, and for each service its metrics and
resources, as its files state them and before any rule is checked.
-/
namespace MetricRelay

inductive Protocol where
  | http | https | file
  deriving DecidableEq, Repr

namespace Protocol

def text : Protocol → String
  | .http => "http"
  | .https => "https"
  | .file => "file"

def isHttp : Protocol → Bool
  | .http | .https => true
  | .file => false

end Protocol

/-- Which statuses of a data request make its token stale. -/
inductive RefreshPolicy where
  /-- Only 401 and 403. -/
  | auth
  /-- All but 200. -/
  | any
  deriving DecidableEq, Repr

namespace RefreshPolicy

def text : RefreshPolicy → String
  | .auth => "auth"
  | .any => "any"

def refreshes (policy : RefreshPolicy) (status : Nat) : Bool :=
  match policy with
  | .auth => status == 401 || status == 403
  | .any => status != 200

end RefreshPolicy

/-- Where a token comes from and how it is sent. -/
structure AuthTable where
  headerName : String
  endpoint : String
  tokenPath : String
  deriving DecidableEq, Repr

/-- What a resource says about auth when it says something. -/
inductive AuthChoice where
  | inherit
  | none
  | own (table : AuthTable)
  deriving DecidableEq, Repr

inductive ResourceKind where
  | api | forwarder
  deriving DecidableEq, Repr

inductive MetricType where
  | counter | gauge | histogram | summary
  deriving DecidableEq, Repr

namespace MetricType

/-- The word for the type in a definition. -/
def text : MetricType → String
  | .counter => "counter"
  | .gauge => "gauge"
  | .histogram => "histogram"
  | .summary => "summary"

/-- The word for the type in a message. -/
def title : MetricType → String
  | .counter => "Counter"
  | .gauge => "Gauge"
  | .histogram => "Histogram"
  | .summary => "Summary"

def kind : MetricType → MetricKind
  | .counter => .counter
  | .gauge => .gauge
  | .histogram => .histogram
  | .summary => .summary

end MetricType

namespace Config

structure Solver where
  dialect : String
  path : String
  deriving DecidableEq, Repr

structure LabelEntry where
  name : String
  solver : Solver
  deriving DecidableEq, Repr

structure Exponential where
  start : Float
  factor : Float
  count : Nat

structure Histogram where
  buckets : Option (List Float)
  exponential : Option Exponential

structure Metric where
  name : String
  type : MetricType
  description : String
  solver : Solver
  labels : List LabelEntry
  histogram : Option Histogram
  itemPath : Option String

structure Resource where
  name : String
  uri : String
  method : String
  kind : ResourceKind
  decoder : Dialect
  metrics : List String
  auth : Option AuthChoice

structure Service where
  name : String
  protocol : Protocol
  host : String
  port : Nat
  basePath : String
  auth : Option AuthTable

/-- A service with all that its own files declare. -/
structure Definition where
  service : Service
  metrics : List Metric
  resources : List Resource

structure Server where
  /-- The address to listen on. -/
  bindAddress : SocketAddress
  metricsPath : String

structure Scrape where
  workers : Nat
  timeout : Nanoseconds
  connectTimeout : Nanoseconds
  requestTimeout : Nanoseconds
  maxBodyBytes : ByteSize
  refreshOn : RefreshPolicy
  userAgent : String

structure Paths where
  services : String
  metrics : String
  resources : String

structure Settings where
  server : Server
  scrape : Scrape
  paths : Paths

def version : String := "0.1.0"

def Server.default : Server where
  bindAddress := .v4 ⟨[0, 0, 0, 0]⟩ 8080
  metricsPath := "/metrics"

def Scrape.default : Scrape where
  workers := 6
  timeout := .ofMilliseconds 10000
  connectTimeout := .ofMilliseconds 3000
  requestTimeout := .ofMilliseconds 5000
  maxBodyBytes := ⟨10 * 1024 * 1024⟩
  refreshOn := .auth
  userAgent := "scrapeproxy/" ++ version

def Paths.default : Paths where
  services := "services.toml"
  metrics := "metrics_for_services.toml"
  resources := "resource_paths_for_services.toml"

end Config

structure Config where
  settings : Config.Settings
  definitions : List Config.Definition

end MetricRelay
