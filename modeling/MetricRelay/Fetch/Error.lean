import MetricRelay.Document
/-!
Why a body was not obtained.
-/
namespace MetricRelay

inductive FetchError where
  | transport (url reason : String)
  | status (url : String) (status : Nat)
  | tooLarge (url : String) (limit : Nat)
  | decode (error : DecodeError)
  /-- No token could be had from `url`. -/
  | auth (url reason : String)
  | cancelled
  deriving DecidableEq, Repr

def FetchError.message : FetchError → String
  | .transport url reason => s!"request to {url} failed: {reason}"
  | .status url code => s!"{url} returned HTTP {code}"
  | .tooLarge url limit => s!"response from {url} exceeds {limit} bytes"
  | .decode error => error.message
  | .auth url reason => s!"cannot obtain token from {url}: {reason}"
  | .cancelled => "request cancelled"

end MetricRelay
