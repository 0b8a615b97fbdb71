import MetricRelay.Exporter
/-!
The endpoints of an exporter: what a client that visits one is answered, and which answers are
compressed.
-/
namespace MetricRelay

inductive Endpoint where
  /-- A visit scrapes. -/
  | metrics
  /-- Tells that the exporter is alive. -/
  | health
  deriving DecidableEq, Repr

/-- A request of a client. -/
structure Visit where
  method : String
  /-- The path, and a query that does not matter. -/
  target : String
  acceptsGzip : Bool := false
  deriving DecidableEq, Repr

structure VisitAnswer where
  status : Nat
  contentType : Option String := none
  /-- The methods that would have been right. -/
  allow : Option String := none
  /-- The body before it is compressed. -/
  body : String := ""
  compressed : Bool := false
  deriving DecidableEq, Repr

namespace Visit

def path (v : Visit) : String :=
  String.ofList (v.target.toList.takeWhile fun c => c != '?' && c != '#')

end Visit

namespace Endpoint

def healthPath : String := "/health"

/-- The endpoint at a path; the path of the metrics is configured. -/
def ofPath? (metricsPath path : String) : Option Endpoint :=
  if path = metricsPath then some .metrics
  else if path = healthPath then some .health
  else none

def contentType : Endpoint → String
  | .metrics => "text/plain; version=0.0.4; charset=utf-8"
  | .health => "application/json"

end Endpoint

namespace VisitAnswer

/-- Bodies under this size are not worth compressing. -/
def leastCompressed : Nat := 32

/-- The answer to a visit that went well. A visit with `HEAD` is told what `GET` would bring,
without the body. -/
def ok (v : Visit) (endpoint : Endpoint) (body : String) : VisitAnswer where
  status := 200
  contentType := some endpoint.contentType
  body := if v.method = "HEAD" then "" else body
  compressed := v.acceptsGzip && leastCompressed ≤ body.utf8ByteSize

def notFound : VisitAnswer := { status := 404 }

def methodNotAllowed : VisitAnswer := { status := 405, allow := some "GET,HEAD" }

end VisitAnswer

namespace Exporter

def healthBody (e : Exporter) : String :=
  "\x7b\"status\":\"healthy\",\"services\":" ++ Number.text e.catalog.services.length
    ++ ",\"workers\":" ++ Number.text e.workers
    ++ ",\"version\":" ++ Json.quote Config.version ++ "\x7d"

/-- Answer a client. Only the metrics endpoint changes anything. -/
def visit (e : Exporter) (metricsPath : String) (v : Visit) : VisitAnswer × Exporter :=
  match Endpoint.ofPath? metricsPath v.path with
  | none => (.notFound, e)
  | some endpoint =>
    if v.method ≠ "GET" ∧ v.method ≠ "HEAD" then (.methodNotAllowed, e)
    else
      match endpoint with
      | .health => (.ok v endpoint e.healthBody, e)
      | .metrics =>
        let (outcome, e) := e.scrape
        (.ok v endpoint outcome.body, e)

end Exporter
end MetricRelay
