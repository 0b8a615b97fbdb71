import MetricRelay.Config.Model
import MetricRelay.Toml.Value
/-!
Services, metrics and resources read from the tables of their files. Unknown keys are ignored; a
missing field without a default or a value of the wrong type makes the whole table unreadable.
-/
namespace MetricRelay.Config

open Toml (string? natural? float? array? word? fields?)

def listOf {α : Type} (view : Toml → Option α) (value : Toml) : Option (List α) :=
  (array? value).bind (List.mapM view)

def readProtocol? (value : Toml) : Option Protocol :=
  (word? value).bind fun
    | "http" => some .http
    | "https" => some .https
    | "file" => some .file
    | _ => none

def authFields : List String :=
  ["kind", "token_header_key", "token_gen_endpoint", "token_path_in_response"]

/-- The only kind of auth, under either of its two spellings. -/
def readAuthKind? (value : Toml) : Option Unit :=
  (word? value).bind fun
    | "CSRF" | "csrf" => some ()
    | _ => none

def readAuth? (value : Toml) : Option AuthTable := do
  let fields ← fields? authFields value
  Fields.required fields "kind" readAuthKind?
  let headerName ← Fields.defaulted fields "token_header_key" "" string?
  let endpoint ← Fields.defaulted fields "token_gen_endpoint" "" string?
  let tokenPath ← Fields.defaulted fields "token_path_in_response" "" string?
  some { headerName, endpoint, tokenPath }

/-- The auth of a resource: one of two words, or a table of its own. -/
def readAuthChoice? (value : Toml) : Option AuthChoice :=
  match value with
  | .string "inherit" => some .inherit
  | .string "none" => some .none
  | _ => (readAuth? value).map .own

def readService? (value : Toml) : Option Service := do
  let fields ← fields? ["name", "protocol", "host", "port", "base_path", "auth"] value
  let name ← Fields.required fields "name" string?
  let protocol ← Fields.required fields "protocol" readProtocol?
  let host ← Fields.defaulted fields "host" "localhost" string?
  let port ← Fields.defaulted fields "port" 0 (natural? Number.maxU32)
  let basePath ← Fields.defaulted fields "base_path" "" string?
  let auth ← Fields.optional fields "auth" readAuth?
  some { name, protocol, host, port, basePath, auth }

def readResourceKind? (value : Toml) : Option ResourceKind :=
  (word? value).bind fun
    | "api" => some .api
    | "forwarder" => some .forwarder
    | _ => none

def readDialect? (value : Toml) : Option Dialect :=
  (word? value).bind fun
    | "json" => some .json
    | "prometheus" => some .prometheus
    | _ => none

def readResource? (value : Toml) : Option Resource := do
  let fields ← fields? ["name", "uri", "method", "kind", "decoder", "metrics", "auth"] value
  let name ← Fields.required fields "name" string?
  let uri ← Fields.defaulted fields "uri" "" string?
  let method ← Fields.defaulted fields "method" "GET" string?
  let kind ← Fields.defaulted fields "kind" .api readResourceKind?
  let decoder ← Fields.defaulted fields "decoder" .json readDialect?
  let metrics ← Fields.defaulted fields "metrics" [] (listOf string?)
  let auth ← Fields.optional fields "auth" readAuthChoice?
  some { name, uri, method, kind, decoder, metrics, auth }

def readMetricType? (value : Toml) : Option MetricType :=
  (word? value).bind fun
    | "counter" => some .counter
    | "gauge" => some .gauge
    | "histogram" => some .histogram
    | "summary" => some .summary
    | _ => none

def readSolver? (value : Toml) : Option Solver := do
  let fields ← fields? ["dialect", "path", "options"] value
  let dialect ← Fields.defaulted fields "dialect" "jsonPath" string?
  let path ← Fields.defaulted fields "path" "" string?
  some { dialect, path }

def readLabel? (value : Toml) : Option LabelEntry := do
  let fields ← fields? ["name", "node_solver"] value
  let name ← Fields.required fields "name" string?
  let solver ← Fields.required fields "node_solver" readSolver?
  some { name, solver }

def readExponential? (value : Toml) : Option Exponential := do
  let fields ← fields? ["start", "factor", "count"] value
  let start ← Fields.required fields "start" float?
  let factor ← Fields.required fields "factor" float?
  let count ← Fields.required fields "count" (natural? Number.maxU64)
  some { start, factor, count }

def readHistogram? (value : Toml) : Option Histogram := do
  let fields ← fields? ["buckets", "exponential"] value
  let buckets ← Fields.optional fields "buckets" (listOf float?)
  let exponential ← Fields.optional fields "exponential" readExponential?
  some { buckets, exponential }

def readItemPath? (value : Toml) : Option (Option String) := do
  let fields ← fields? ["item_path"] value
  Fields.optional fields "item_path" string?

def readMetric? (value : Toml) : Option Metric := do
  let fields ← fields?
    ["name", "type", "description", "node_solver", "labels", "histogram", "options"] value
  let name ← Fields.required fields "name" string?
  let type ← Fields.required fields "type" readMetricType?
  let description ← Fields.defaulted fields "description" "" string?
  let solver ← Fields.required fields "node_solver" readSolver?
  let labels ← Fields.defaulted fields "labels" [] (listOf readLabel?)
  let histogram ← Fields.optional fields "histogram" readHistogram?
  let itemPath ← Fields.defaulted fields "options" none readItemPath?
  some { name, type, description, solver, labels, histogram, itemPath }

/-- The list under the one key that a file of such tables has; an absent key is an empty list. -/
def readFile? {α : Type} (key : String) (view : Toml → Option α) (value : Toml) : Option (List α) :=
  (fields? [key] value).bind fun fields => Fields.defaulted fields key [] (listOf view)

/-- Which file holds what a service declares. -/
structure FileEntry where
  service : String
  file : String

def readFileEntry? (value : Toml) : Option FileEntry := do
  let fields ← fields? ["name", "file"] value
  let service ← Fields.required fields "name" string?
  let file ← Fields.required fields "file" string?
  some { service, file }

end MetricRelay.Config
