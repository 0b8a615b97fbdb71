import MetricRelay.Node
import MetricRelay.Json.Reader
import MetricRelay.Text.Utf8
/-!
Why a body cannot be read as a document. An error keeps the leading part of the body for the log.
-/
namespace MetricRelay

/-- The two kinds of body an api resource may answer with. -/
inductive Dialect where
  | json | prometheus
  deriving DecidableEq, Repr

def Dialect.text : Dialect → String
  | .json => "json"
  | .prometheus => "prometheus"

structure DecodeError where
  dialect : Dialect
  reason : String
  preview : String
  deriving DecidableEq, Repr

namespace DecodeError

/-- The number of bytes of a bad body that are kept. -/
def previewLength : Nat := 512

def ofBody (dialect : Dialect) (reason : String) (body : Text.Bytes) : DecodeError :=
  ⟨dialect, reason, String.ofList (Text.Utf8.decodeLossy (body.take previewLength))⟩

def message (e : DecodeError) : String :=
  s!"failed to decode {e.dialect.text} body: {e.reason}"

end DecodeError

/-- A JSON body as a document. -/
def Node.ofJsonBody (body : Text.Bytes) : Except DecodeError Node :=
  let failed (reason : String) := Except.error (DecodeError.ofBody .json reason body)
  match Text.Utf8.decode body with
  | .error fault => failed fault.message
  | .ok text =>
    match Json.read? text with
    | none => failed "not a JSON text"
    | some value => .ok (Node.ofJson value)

end MetricRelay
