import MetricRelay.Address
import MetricRelay.Config.Model
import MetricRelay.Config.Variables
import MetricRelay.Toml.Reader
/-!
The settings of the exporter from their layers. A later layer is laid over an earlier one key by
key, and the result is read leniently: what is written as a number or a boolean may stand for a
text, and a text that reads as a number for a number.
-/
namespace MetricRelay.Config

/-! ## Layers -/

namespace Layers

abbrev Entries := List (String × Toml)

def entriesOf : Toml → Entries
  | .table entries => entries
  | _ => []

def get (key : String) (entries : Entries) : Toml := (Toml.entry? key entries).getD (.table [])

def put (key : String) (value : Toml) (entries : Entries) : Entries :=
  if entries.any (·.1 == key) then
    entries.map fun (k, old) => if k == key then (k, value) else (k, old)
  else entries ++ [(key, value)]

mutual

/-- Lay a value over another. Tables are merged key by key; any other value replaces what it
meets. -/
def cover (old : Toml) : Toml → Toml
  | .table entries => .table (coverAll (entriesOf old) entries)
  | value => value

def coverAll (old : Entries) : Entries → Entries
  | [] => old
  | (key, value) :: rest => coverAll (put key (cover (get key old) value) old) rest

end

/-- Lay a value over what is at the end of a path. -/
def coverAt (value : Toml) : List String → Toml → Toml
  | [], old => cover old value
  | key :: path, old =>
    let entries := entriesOf old
    .table (put key (coverAt value path (get key entries)) entries)

def isPathChar (c : Char) : Bool := c.isAlphanum || c == '_' || c == '-'

/-- The levels that a key spells with points between them. A key that is no such path is one
level. -/
def path (key : String) : List String :=
  let parts := Text.splitOn '.' key.toList
  if parts.all fun p => !p.isEmpty && p.all isPathChar then parts.map String.ofList else [key]

/-- Lay entries over a table, each at the path that its key spells. -/
def apply (base : Toml) (entries : Entries) : Toml :=
  entries.foldl (fun acc (key, value) => coverAt value (path key) acc) base

end Layers

/-! ## Lenient views -/

def text? : Toml → Option String
  | .string s => some s
  | .integer n => some (Number.signedText n)
  | .float x => some (Number.plainText x)
  | .boolean b => some (if b then "true" else "false")
  | .datetime t => some (Toml.datetimeText t)
  | .array _ | .table _ => none

/-- A whole number of 64 bits. A float is rounded and cut to the bounds, a switch counts as zero or
one. -/
def count? : Toml → Option Nat
  | .integer n => if 0 ≤ n then some n.toNat else none
  | .float x => some x.round.toUInt64.toNat
  | .boolean b => some (if b then 1 else 0)
  | .string s =>
    match String.ofList (s.toList.map Char.toLower) with
    | "true" | "on" | "yes" => some 1
    | "false" | "off" | "no" => some 0
    | _ => Number.readUnsigned? Number.maxU64 s.toList
  | _ => none

def duration? (value : Toml) : Option Nanoseconds := (text? value).bind Nanoseconds.read?

def byteSize? : Toml → Option ByteSize
  | .integer n => if 0 ≤ n then some ⟨UInt64.ofNat n.toNat⟩ else none
  | .string s => (ByteSize.read s).toOption
  | _ => none

/-- The word of a choice: a text, or the only key of a table. -/
def choice? : Toml → Option String
  | .string s => some s
  | .table [(word, _)] => some word
  | _ => none

def refreshPolicy? (value : Toml) : Option RefreshPolicy :=
  (choice? value).bind fun
    | "auth" => some .auth
    | "any" => some .any
    | _ => none

/-! ## Sections -/

def readServer? (value : Toml) : Option Server := do
  let fields ← Toml.fields? ["bind_addr", "metrics_path"] value
  let default := Server.default
  let bindAddress ← Fields.defaulted fields "bind_addr" default.bindAddress fun v =>
    (text? v).bind SocketAddress.read?
  let metricsPath ← Fields.defaulted fields "metrics_path" default.metricsPath text?
  some { bindAddress, metricsPath }

def scrapeFields : List String :=
  ["workers", "timeout", "connect_timeout", "request_timeout", "max_body_bytes", "refresh_on",
    "user_agent"]

def readScrape? (value : Toml) : Option Scrape := do
  let fields ← Toml.fields? scrapeFields value
  let default := Scrape.default
  let workers ← Fields.defaulted fields "workers" default.workers count?
  let timeout ← Fields.defaulted fields "timeout" default.timeout duration?
  let connectTimeout ← Fields.defaulted fields "connect_timeout" default.connectTimeout duration?
  let requestTimeout ← Fields.defaulted fields "request_timeout" default.requestTimeout duration?
  let maxBodyBytes ← Fields.defaulted fields "max_body_bytes" default.maxBodyBytes byteSize?
  let refreshOn ← Fields.defaulted fields "refresh_on" default.refreshOn refreshPolicy?
  let userAgent ← Fields.defaulted fields "user_agent" default.userAgent text?
  some { workers, timeout, connectTimeout, requestTimeout, maxBodyBytes, refreshOn, userAgent }

def readPaths? (value : Toml) : Option Paths := do
  let fields ← Toml.fields?
    ["services", "metrics_for_services", "resource_paths_for_services"] value
  let default := Paths.default
  let services ← Fields.defaulted fields "services" default.services text?
  let metrics ← Fields.defaulted fields "metrics_for_services" default.metrics text?
  let resources ← Fields.defaulted fields "resource_paths_for_services" default.resources text?
  some { services, metrics, resources }

def readSettings? (value : Toml) : Option Settings := do
  let fields ← Toml.fields? ["server", "scrape", "paths"] value
  let server ← Fields.defaulted fields "server" .default readServer?
  let scrape ← Fields.defaulted fields "scrape" .default readScrape?
  let paths ← Fields.defaulted fields "paths" .default readPaths?
  some { server, scrape, paths }

/-- The entries of a main file. Its whole numbers must fit 64 bits. -/
def readMainFile? (text : List Char) : Option (List (String × Toml)) :=
  (Toml.read? text).filter Toml.entriesAreNarrow

/-- The settings that a main file and the variables give, the variables on top. -/
def settings? (mainFile : List (String × Toml)) (vars : Variables) : Option Settings :=
  readSettings? (Layers.apply (Layers.apply (.table []) mainFile) vars.settings)

end MetricRelay.Config
