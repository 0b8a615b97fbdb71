import MetricRelay.Cli
import MetricRelay.Config.Load
import MetricRelay.Endpoint
/-!
The command line. `check` loads a configuration and tells what it holds. `server` answers the
visits on the lines of the standard input, each a method and a target. It reads the files of its
services anew for every visit; locations on the network are out of its reach, and their tasks
fail.
-/
namespace MetricRelay.Program

/-- The fault behind an error of the system. -/
def faultOf : IO.Error → FileFault
  | .noFileOrDirectory .. => .notFound
  | .inappropriateType _ 20 _ => .notDirectory
  | .inappropriateType .. => .isDirectory
  | e => .other (toString e)

def readFile (path : String) : IO (Except FileFault Text.Bytes) := do
  match ← (IO.FS.readBinFile path).toBaseIO with
  | .ok content => return .ok content.toList
  | .error e => return .error (faultOf e)

/-- The files of the system. -/
def systemFiles : FileAccess IO where
  workingDirectory := return (← IO.currentDir).toString
  kind path := do
    match ← readFile path with
    | .ok content => return .ok (.file content.length)
    | .error .isDirectory => return .ok .directory
    | .error fault => return .error fault
  read := readFile

/-- The variables that the program was started with. -/
def systemVariables : IO Config.Variables := do
  match ← readFile "/proc/self/environ" with
  | .error _ => return []
  | .ok content =>
    return (Text.splitOn '\x00' (Text.Utf8.decodeLossy content)).filterMap fun entry =>
      (Text.cutAt? '=' entry).map fun (name, value) => (String.ofList name, String.ofList value)

def fieldsText (fields : List (String × String)) : String :=
  String.join (fields.map fun (name, value) => s!" {name}={value}")

/-- Load the configuration that the command line names, or the usual one. -/
def load (path : Option String) : IO (Option Config) := do
  let vars ← systemVariables
  let loading := match path with
    | some path => Config.load systemFiles vars path
    | none => Config.loadDefault systemFiles vars
  let (result, warnings) ← loading.run.run []
  for w in warnings do
    IO.eprintln s!"warning: {w.message}{fieldsText w.fields}"
  match result with
  | .ok config => return some config
  | .error e =>
    IO.eprintln s!"error: {e.message}"
    return none

/-- Files as they were read beforehand; every other file is missing. -/
def recordedFiles (contents : List (String × Except FileFault Text.Bytes)) : FileAccess Id :=
  let read (path : String) : Except FileFault Text.Bytes :=
    match contents.find? (·.1 == path) with
    | some (_, content) => content
    | none => .error .notFound
  { workingDirectory := ""
    kind := fun path => (read path).map fun content => .file content.length
    read }

/-- The files that the services of a catalog are read from. -/
def filesOf (c : Catalog) : IO (FileAccess Id) := do
  let mut contents := []
  for r in c.resources do
    if (c.service? r.service).any (!·.protocol.isHttp) then
      contents := (Disk.path r.url, ← readFile (Disk.path r.url)) :: contents
  return recordedFiles contents

/-- A network on which nobody answers. -/
def silentNetwork (c : Catalog) : Network where
  queues := ((c.resources.map (·.url)) ++ c.scopes.map (·.url)).map fun url =>
    (url, [⟨.transport "no connection to the network", 0⟩])

def setupOf (s : Config.Settings) : ExporterSetup where
  workers := s.scrape.workers
  timeout := s.scrape.timeout.count / 1000000
  policy := s.scrape.refreshOn
  fileLimit := s.scrape.maxBodyBytes.bytes.toNat

def answerText (a : VisitAnswer) : String :=
  let header (name : String) : Option String → String
    | some value => s!"{name}: {value}\n"
    | none => ""
  s!"{Number.text a.status}\n" ++ header "content-type" a.contentType ++ header "allow" a.allow
    ++ "\n" ++ a.body

/-- Answer visit after visit until the input ends. -/
partial def serve (input : IO.FS.Stream) (metricsPath : String) (e : Exporter) : IO Unit := do
  let line ← input.getLine
  if line.isEmpty then return
  match (Text.words line.toList).map String.ofList with
  | [method, target] =>
    let e := e.setFiles (← filesOf e.catalog)
    let (answer, e) := e.visit metricsPath { method, target }
    let (failures, e) := e.takeFailures
    for f in failures do
      IO.eprintln s!"warning: {TaskFailure.message}{fieldsText f.fields}"
    IO.println (answerText answer)
    serve input metricsPath e
  | _ => serve input metricsPath e

def usage : String :=
  "usage: metricrelay server [--config FILE] [--port PORT]\n"
    ++ "       metricrelay check [--config FILE]"

def run (args : List String) : IO UInt32 := do
  match Cli.read args with
  | .error .version =>
    IO.println s!"metricrelay {Config.version}"
    return 0
  | .error .help =>
    IO.println usage
    return 0
  | .error _ =>
    IO.eprintln usage
    return 2
  | .ok (.check path) =>
    let some config ← load path | return 1
    let c := Catalog.build config.definitions
    IO.println s!"Configuration is valid: {c.services.length} services, {c.metrics.length} metrics"
    return 0
  | .ok (.server path _) =>
    let some config ← load path | return 1
    let c := Catalog.build config.definitions
    let e := Exporter.start (setupOf config.settings) c (recordedFiles []) (silentNetwork c)
    serve (← IO.getStdin) config.settings.server.metricsPath e
    return 0

end MetricRelay.Program

def main (args : List String) : IO UInt32 := MetricRelay.Program.run args
