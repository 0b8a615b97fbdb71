import MetricRelay.Fetch.Request
/-!
A network whose answers are known beforehand. Each location has a queue of responses; every request
uses one up, the last one stays. All requests are kept in order.
-/
namespace MetricRelay

/-- What a location answers with. -/
inductive Response where
  | body (content : Text.Bytes)
  | status (code : Nat)
  | transport (reason : String)
  | tooLarge (limit : Nat)

def Response.answer (url : String) : Response → Answer
  | .body content => .ok content
  | .status code => .error (.status url code)
  | .transport reason => .error (.transport url reason)
  | .tooLarge limit => .error (.tooLarge url limit)

/-- A response and how long it takes. -/
structure TimedResponse where
  response : Response
  delay : Nat := 0

structure Network where
  queues : List (String × List TimedResponse) := []
  log : List Request := []

namespace Network

def queue (n : Network) (url : String) : List TimedResponse :=
  ((n.queues.find? (·.1 == url)).map (·.2)).getD []

def setQueue (n : Network) (url : String) (queue : List TimedResponse) : Network :=
  { n with queues := (url, queue) :: n.queues.filter (·.1 != url) }

/-- A location without responses is not found. -/
def missing : TimedResponse := ⟨.status 404, 0⟩

def request (n : Network) (r : Request) : Reply × Network :=
  let n := { n with log := n.log ++ [r] }
  let reply (t : TimedResponse) : Reply := ⟨t.response.answer r.url, t.delay⟩
  match n.queue r.url with
  | [] => (reply missing, n)
  | [last] => (reply last, n)
  | first :: rest => (reply first, n.setQueue r.url rest)

end Network
end MetricRelay
