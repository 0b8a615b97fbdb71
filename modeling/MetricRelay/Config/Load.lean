import MetricRelay.Config.Rules
import MetricRelay.Config.Settings
import MetricRelay.Config.Tables
import MetricRelay.Config.VariableFile
import MetricRelay.Files
import MetricRelay.Url.Host
/-!
A configuration loaded from its files. The main file and the variables come first; then the services
file, the two maps from services to files, and the files that they name, service by service. The
first file that cannot be used ends the loading; broken rules are collected at the end.
-/
namespace MetricRelay.Config

/-- Why there is no configuration. -/
inductive LoadError where
  /-- The main file and the variables together give no settings. -/
  | settings
  | unreadable (file : String) (fault : FileFault)
  | malformed (file : String)
  | unknownService (file service : String)
  | broken (problems : List Problem)

/-- The words for an error. What a malformed text says of itself is not part of them. -/
def LoadError.message : LoadError → String
  | .settings => "Failed to load configuration"
  | .unreadable file fault => s!"Failed to read {file}: {fault.message}"
  | .malformed file => s!"Failed to parse {file}"
  | .unknownService file service => s!"{file} references unknown service '{service}'"
  | .broken problems => "Configuration validation failed: " ++ Problem.summary problems

variable {m : Type → Type} [Monad m]

/-- Loading stops at an error and keeps the warnings up to there. -/
abbrev LoadT (m : Type → Type) := ExceptT LoadError (StateT (List Warning) m)

def warn (warning : Warning) : LoadT m Unit := modify (· ++ [warning])

/-- The content of a file as text. -/
def readText (files : FileAccess m) (path : String) : m (Except FileFault (List Char)) := do
  match ← files.read path with
  | .error fault => pure (.error fault)
  | .ok content => pure ((Text.Utf8.decode content).mapError fun _ => .notText)

/-- The entries of a file under `key`, each read by `view`. -/
def readEntries {α : Type} (files : FileAccess m) (path key : String) (view : Toml → Option α) :
    LoadT m (List α) := do
  match ← (readText files path : m _) with
  | .error fault => throw (.unreadable path fault)
  | .ok text =>
    match (Toml.read? text).bind fun entries => readFile? key view (.table entries) with
    | none => throw (.malformed path)
    | some entries => pure entries

/-- The file that each service is given, the last one if there are several. -/
abbrev FileMap := List FileEntry

def FileMap.get? (files : FileMap) (service : String) : Option String :=
  (files.reverse.find? (·.service == service)).map (·.file)

/-- The first entry for a service that there is not. -/
def FileMap.stray? (files : FileMap) (services : List Service) : Option FileEntry :=
  files.find? fun e => !services.any (·.name == e.service)

/-- A map of files, each path seen from the directory of the map. -/
def readFileMap (files : FileAccess m) (path : String) (services : List Service) :
    LoadT m FileMap := do
  let entries : FileMap ← readEntries files path "services" readFileEntry?
  match entries.stray? services with
  | some e => throw (.unknownService path e.service)
  | none =>
    let directory := FilePath.parent path
    pure (entries.map fun e => { e with file := FilePath.join directory e.file })

/-- What the file that a map names for a service holds; without one it is nothing, with a warning.
-/
def readListed {α : Type} (files : FileAccess m) (map : FileMap) (service key : String)
    (view : Toml → Option α) (missing : Warning) : LoadT m (List α) :=
  match map.get? service with
  | some path => readEntries files path key view
  | none => do
    warn missing
    pure []

def readDefinition (files : FileAccess m) (metricFiles resourceFiles : FileMap)
    (service : Service) : LoadT m Definition := do
  let metrics ← readListed files metricFiles service.name "metrics" readMetric?
    (.noMetricsFile service.name)
  let resources ← readListed files resourceFiles service.name "resources" readResource?
    (.noResourcesFile service.name)
  pure { service, metrics, resources }

/-- The services and what their files declare; `directory` is where the main file is. -/
def readDefinitions (files : FileAccess m) (directory : String) (paths : Paths) :
    LoadT m (List Definition) := do
  let services ← readEntries files (FilePath.join directory paths.services) "services" readService?
  let metricFiles ← readFileMap files (FilePath.join directory paths.metrics) services
  let resourceFiles ← readFileMap files (FilePath.join directory paths.resources) services
  services.mapM (readDefinition files metricFiles resourceFiles)

/-- The text of a main file; bytes that are no UTF-8 are replaced. -/
def mainText (content : Text.Bytes) : List Char := Text.Utf8.decodeLossy content

/-- The entries of a main file that exists. One that is a directory or is not named as a TOML file
holds none. -/
def readMain (files : FileAccess m) (path : String) (kind : FileKind) :
    m (Option (List (String × Toml))) := do
  match kind, FilePath.extension? path with
  | .file _, some "toml" =>
    match ← files.read path with
    | .error _ => pure (some [])
    | .ok content => pure (readMainFile? (mainText content))
  | _, _ => pure (some [])

def readSettings (files : FileAccess m) (vars : Variables) (path : String) : LoadT m Settings := do
  let mainFile ← match ← (files.kind path : m _) with
    | .ok kind => (readMain files path kind : m _)
    | .error _ => do
      warn (.mainFileMissing path)
      pure (some [])
  match mainFile.bind fun entries => settings? entries vars with
  | some settings => pure settings
  | none => throw .settings

/-- Load the configuration whose main file is at `path`. -/
def loadWith (check : Url.Check) (files : FileAccess m) (vars : Variables) (path : String) :
    LoadT m Config := do
  let settings ← readSettings files vars path
  let definitions ← readDefinitions files (FilePath.parent path) settings.paths
  let config : Config := { settings, definitions }
  modify (· ++ config.warnings)
  match config.problems check with
  | [] => pure config
  | problems => throw (.broken problems)

def load (files : FileAccess m) (vars : Variables) (path : String) : LoadT m Config :=
  loadWith Url.hosted files vars path

/-- The file of variables in a directory or in the nearest one above it. -/
def findVariableFile (files : FileAccess m) : Nat → String → m (Option Text.Bytes)
  | 0, _ => pure none
  | fuel + 1, directory => do
    let path := FilePath.join directory ".env"
    match ← files.kind path with
    | .ok (.file _) => pure (← files.read path).toOption
    | .ok .directory | .error .notFound =>
      match FilePath.parent directory with
      | "" => pure none
      | above => findVariableFile files fuel above
    | .error _ => pure none

/-- Load the configuration whose main file the variables name, or the one in its default place. A
file of variables adds to the variables first. -/
def loadDefault (files : FileAccess m) (vars : Variables) : LoadT m Config := do
  let directory ← (files.workingDirectory : m _)
  let found ← (findVariableFile files (directory.length + 1) directory : m _)
  let vars := match found with
    | some content => VariableFile.load vars content
    | none => vars
  load files vars ((vars.get? Variables.mainFile).getD "config/scrapeproxy.toml")

end MetricRelay.Config
