import MetricRelay.Fetch.Error
import MetricRelay.Shape
/-!
Why a task of a scrape failed, with the short kind that the log carries, and the answer that a
client gets when a whole scrape fails.
-/
namespace MetricRelay

inductive ScrapeError where
  | fetch (error : FetchError)
  | shape (error : ShapeError)
  /-- The deadline of the scrape passed. -/
  | timeout
  /-- The worker pool is shut down. -/
  | poolClosed

namespace ScrapeError

def poolClosedText : String := "worker pool is shut down"

def message : ScrapeError → String
  | .fetch error => error.message
  | .shape error => error.message
  | .timeout => "scrape deadline elapsed"
  | .poolClosed => poolClosedText

def kind : ScrapeError → String
  | .fetch (.transport ..) => "transport"
  | .fetch (.status ..) => "upstream_status"
  | .fetch (.tooLarge ..) => "body_too_large"
  | .fetch (.decode _) => "decode"
  | .fetch (.auth ..) => "auth"
  | .fetch .cancelled | .timeout => "timeout"
  | .shape (.path _) => "path"
  | .shape _ => "shape"
  | .poolClosed => "pool"

end ScrapeError

/-- What a client is told when a scrape fails as a whole. -/
structure FailureReport where
  status : Nat
  code : String
  message : String

namespace FailureReport

def ofError (error : ScrapeError) : FailureReport where
  status := 500
  code := "SCRAPE_FAILED"
  message := "scrape failed: " ++ error.message

/-- The body of the answer. -/
def body (r : FailureReport) : String :=
  "\x7b\"code\":" ++ Json.quote r.code ++ ",\"message\":" ++ Json.quote r.message ++ "\x7d"

end FailureReport
end MetricRelay
