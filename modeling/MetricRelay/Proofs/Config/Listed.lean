import MetricRelay.Proofs.Config.Loading
import MetricRelay.Proofs.Text.Utf8

/-!
# What the maps of a configuration give to its services

A map names files for services. Each service gets what the file of its last
entry holds, and nothing if no entry names it. So what an entry names is lost
where a later entry for its service names a file that does not hold it too.
-/

namespace MetricRelay.Config

variable {α : Type} {w : List Warning} {files : FileAccess Id} {path key : String}
  {view : Toml → Option α} {xs : List α}

/-! ### A map of files -/

def FileMap.Last (map : FileMap) (service : String) (e : FileEntry) : Prop :=
  ∃ before after, map = before ++ e :: after ∧ e.service = service ∧
    ∀ later ∈ after, later.service ≠ service

namespace FileMap

variable {map : FileMap} {service : String}

theorem get?_eq_some_iff {file : String} :
    map.get? service = some file ↔ ∃ e, map.Last service e ∧ e.file = file := by
  rw [get?, Option.map_eq_some_iff]
  refine exists_congr fun e => and_congr_left' ?_
  rw [List.find?_eq_some_iff_append, beq_iff_eq]
  constructor
  · rintro ⟨hservice, after, before, hsplit, hafter⟩
    refine ⟨before.reverse, after.reverse, ?_, hservice, ?_⟩
    · rw [← List.reverse_reverse map, hsplit]
      simp
    · simpa using hafter
  · rintro ⟨before, after, rfl, hservice, hafter⟩
    exact ⟨hservice, after.reverse, before.reverse, by simp, by simpa using hafter⟩

theorem get?_eq_none_iff : map.get? service = none ↔ ∀ e ∈ map, e.service ≠ service := by
  simp [get?]

theorem exists_last {e : FileEntry} (h : e ∈ map) : ∃ last, map.Last e.service last := by
  cases hfile : map.get? e.service with
  | none => exact absurd rfl (get?_eq_none_iff.mp hfile e h)
  | some file =>
    obtain ⟨last, hlast, -⟩ := get?_eq_some_iff.mp hfile
    exact ⟨last, hlast⟩

end FileMap

/-- A map of files and where it is kept. -/
structure Listing where
  path : String
  entries : FileMap

/-- What the files of a map hold, and where it goes. -/
structure Part (α : Type) where
  key : String
  view : Toml → Option α
  inside : Definition → List α

def Part.metrics : Part Metric := ⟨"metrics", readMetric?, Definition.metrics⟩

def Part.resources : Part Resource := ⟨"resources", readResource?, Definition.resources⟩

namespace Listing

variable {l : Listing} {p : Part α} {services : List Service} {service : String}

def file (l : Listing) (e : FileEntry) : String := FilePath.join (FilePath.parent l.path) e.file

def Written (files : FileAccess Id) (l : Listing) : Prop :=
  Holds files l.path "services" readFileEntry? l.entries

theorem Written.unique {l' : Listing} (h : l.Written files) (h' : l'.Written files)
    (hpath : l.path = l'.path) : l = l' := by
  obtain ⟨path, entries⟩ := l
  cases hpath
  cases Holds.unique h h'
  rfl

/-- Every entry is for a service that there is. -/
def Declared (l : Listing) (services : List Service) : Prop :=
  ∀ e ∈ l.entries, ∃ s ∈ services, s.name = e.service

/-- What the map gives to a service. -/
structure Gives (files : FileAccess Id) (l : Listing) (p : Part α) (service : String)
    (xs : List α) : Prop where
  nothing : (∀ e ∈ l.entries, e.service ≠ service) → xs = []
  last : ∀ e, l.entries.Last service e → Holds files (l.file e) p.key p.view xs

/-- All that the file of an entry holds is in the definition of its service. -/
def Effective (files : FileAccess Id) (l : Listing) (p : Part α) (definitions : List Definition)
    (e : FileEntry) : Prop :=
  ∀ xs, Holds files (l.file e) p.key p.view xs →
    ∃ d ∈ definitions, d.service.name = e.service ∧ xs ⊆ p.inside d

/-- The file of the last entry for the service of an entry holds all that its own file does. -/
def Kept (files : FileAccess Id) (l : Listing) (p : Part α) (e : FileEntry) : Prop :=
  ∀ last xs ys, l.entries.Last e.service last → Holds files (l.file e) p.key p.view xs →
    Holds files (l.file last) p.key p.view ys → xs ⊆ ys

/-- The map as it is used, with its files seen from outside. -/
def placed (l : Listing) : FileMap := l.entries.map fun e => { e with file := l.file e }

theorem get?_placed (l : Listing) (service : String) : l.placed.get? service =
    (l.entries.get? service).map fun file => FilePath.join (FilePath.parent l.path) file := by
  rw [FileMap.get?, placed, ← List.map_reverse, List.find?_map, FileMap.get?, Option.map_map,
    Option.map_map]
  rfl

theorem declared_iff : l.Declared services ↔ l.entries.stray? services = none := by
  simp [Declared, FileMap.stray?]

theorem outcome_readFileMap_eq_ok {map : FileMap} :
    (readFileMap files path services).outcome w = .ok map ↔
      ∃ l : Listing, l.path = path ∧ l.Written files ∧ l.Declared services ∧ l.placed = map := by
  simp only [readFileMap, outcome_bind_eq_ok, outcome_readEntries_eq_ok]
  constructor
  · rintro ⟨entries, hwritten, h⟩
    split at h
    · cases h
    · next hstray =>
      cases h
      exact ⟨⟨path, entries⟩, rfl, hwritten, declared_iff.mpr hstray, rfl⟩
  · rintro ⟨l, rfl, hwritten, hdeclared, rfl⟩
    refine ⟨l.entries, hwritten, ?_⟩
    rw [declared_iff.mp hdeclared]
    rfl

/-- An entry for a service that there is not ends the loading. -/
theorem outcome_readFileMap_of_stray (hwritten : l.Written files) (h : ¬ l.Declared services) :
    ∃ service, (readFileMap files l.path services).outcome w =
      .error (.unknownService l.path service) ∧ ∀ s ∈ services, s.name ≠ service := by
  rw [declared_iff, ← ne_eq, Option.ne_none_iff_exists'] at h
  obtain ⟨e, he⟩ := h
  refine ⟨e.service, ?_, ?_⟩
  · rw [readFileMap, outcome_bind_of_ok (outcome_readEntries_eq_ok.mpr hwritten), he]
    rfl
  · simpa using List.find?_some he

theorem gives_iff_of_unlisted {xs : List α} (h : l.entries.get? service = none) :
    l.Gives files p service xs ↔ xs = [] := by
  constructor
  · intro hgives
    exact hgives.nothing (FileMap.get?_eq_none_iff.mp h)
  · intro hxs
    refine ⟨fun _ => hxs, fun e hlast => ?_⟩
    cases h.symm.trans (FileMap.get?_eq_some_iff.mpr ⟨e, hlast, rfl⟩)

theorem gives_iff_of_listed {xs : List α} {file : String}
    (h : l.entries.get? service = some file) : l.Gives files p service xs ↔
      Holds files (FilePath.join (FilePath.parent l.path) file) p.key p.view xs := by
  constructor
  · intro hgives
    obtain ⟨e, hlast, rfl⟩ := FileMap.get?_eq_some_iff.mp h
    exact hgives.last e hlast
  · intro hholds
    refine ⟨fun hnone => ?_, fun e hlast => ?_⟩
    · cases h.symm.trans (FileMap.get?_eq_none_iff.mpr hnone)
    · cases h.symm.trans (FileMap.get?_eq_some_iff.mpr ⟨e, hlast, rfl⟩)
      exact hholds

theorem outcome_readListed_eq_ok {missing : Warning} {xs : List α} :
    (readListed files l.placed service p.key p.view missing).outcome w = .ok xs ↔
      l.Gives files p service xs := by
  rw [readListed, get?_placed]
  cases hfile : l.entries.get? service with
  | none =>
    change Except.ok [] = Except.ok xs ↔ _
    rw [gives_iff_of_unlisted hfile, Except.ok.injEq, eq_comm]
  | some file => rw [gives_iff_of_listed hfile, Option.map_some, outcome_readEntries_eq_ok]

/-- An entry takes effect if what its file holds is kept by the last one for its service. -/
theorem effective_iff_kept {ds : List Definition}
    (hgives : ∀ d ∈ ds, l.Gives files p d.service.name (p.inside d))
    (hdeclared : l.Declared (ds.map (·.service))) {e : FileEntry} (he : e ∈ l.entries) :
    l.Effective files p ds e ↔ l.Kept files p e := by
  constructor
  · intro h last xs ys hlast hxs hys
    obtain ⟨d, hd, hname, hinside⟩ := h xs hxs
    rw [hys.unique ((hgives d hd).last last (hname ▸ hlast))]
    exact hinside
  · intro h xs hxs
    obtain ⟨last, hlast⟩ := FileMap.exists_last he
    obtain ⟨s, hs, hname⟩ := hdeclared e he
    obtain ⟨d, hd, rfl⟩ := List.mem_map.mp hs
    exact ⟨d, hd, hname, h last xs _ hlast hxs ((hgives d hd).last last (hname ▸ hlast))⟩

end Listing

/-! ### A whole configuration -/

/-- The services, and the two maps that name their files. -/
structure Layout where
  services : List Service
  metrics : Listing
  resources : Listing

namespace Layout

variable {l : Layout} {directory : String} {paths : Paths} {ds : List Definition}

structure Written (files : FileAccess Id) (directory : String) (paths : Paths) (l : Layout) :
    Prop where
  services : Holds files (FilePath.join directory paths.services) "services" readService?
    l.services
  metrics : l.metrics.path = FilePath.join directory paths.metrics ∧ l.metrics.Written files
  resources : l.resources.path = FilePath.join directory paths.resources ∧
    l.resources.Written files

structure Declared (l : Layout) : Prop where
  metrics : l.metrics.Declared l.services
  resources : l.resources.Declared l.services

/-- One definition for each service, in their order, with what the maps give to it. -/
structure Defines (files : FileAccess Id) (l : Layout) (ds : List Definition) : Prop where
  services : ds.map (·.service) = l.services
  metrics : ∀ d ∈ ds, l.metrics.Gives files .metrics d.service.name d.metrics
  resources : ∀ d ∈ ds, l.resources.Gives files .resources d.service.name d.resources

theorem Written.unique {l' : Layout} (h : l.Written files directory paths)
    (h' : l'.Written files directory paths) : l = l' := by
  have hmetrics := h.metrics.2.unique h'.metrics.2 (h.metrics.1.trans h'.metrics.1.symm)
  have hresources := h.resources.2.unique h'.resources.2 (h.resources.1.trans h'.resources.1.symm)
  obtain ⟨services, metrics, resources⟩ := l
  cases h.services.unique h'.services
  cases hmetrics
  cases hresources
  rfl

end Layout

theorem forall₂_service_iff {P : Definition → Prop} {services : List Service}
    {ds : List Definition} : List.Forall₂ (fun s d => d.service = s ∧ P d) services ds ↔
      ds.map (·.service) = services ∧ ∀ d ∈ ds, P d := by
  induction ds generalizing services with
  | nil => cases services <;> simp
  | cons d ds ih => cases services <;> simp [ih, and_assoc, and_left_comm]

theorem outcome_readDefinition_eq_ok {metrics resources : Listing} {s : Service}
    {d : Definition} :
    (readDefinition files metrics.placed resources.placed s).outcome w = .ok d ↔
      d.service = s ∧ metrics.Gives files .metrics d.service.name d.metrics ∧
        resources.Gives files .resources d.service.name d.resources := by
  simp only [readDefinition, outcome_bind_eq_ok, outcome_pure]
  constructor
  · rintro ⟨ms, hms, rs, hrs, ⟨⟩⟩
    exact ⟨rfl, (Listing.outcome_readListed_eq_ok (p := Part.metrics)).mp hms,
      (Listing.outcome_readListed_eq_ok (p := Part.resources)).mp hrs⟩
  · rintro ⟨rfl, hms, hrs⟩
    exact ⟨_, (Listing.outcome_readListed_eq_ok (p := Part.metrics)).mpr hms,
      _, (Listing.outcome_readListed_eq_ok (p := Part.resources)).mpr hrs, rfl⟩

theorem outcome_readDefinitions_eq_ok {directory : String} {paths : Paths}
    {ds : List Definition} : (readDefinitions files directory paths).outcome w = .ok ds ↔
      ∃ l : Layout, l.Written files directory paths ∧ l.Declared ∧ l.Defines files ds := by
  simp only [readDefinitions, outcome_bind_eq_ok, outcome_readEntries_eq_ok,
    Listing.outcome_readFileMap_eq_ok]
  constructor
  · rintro ⟨services, hservices, _, ⟨ms, hmpath, hms, hmdeclared, rfl⟩, _,
      ⟨rs, hrpath, hrs, hrdeclared, rfl⟩, h⟩
    obtain ⟨hmap, hgives⟩ := forall₂_service_iff.mp
      ((outcome_mapM_eq_ok fun _ _ _ => outcome_readDefinition_eq_ok).mp h)
    exact ⟨⟨services, ms, rs⟩, ⟨hservices, ⟨hmpath, hms⟩, ⟨hrpath, hrs⟩⟩,
      ⟨hmdeclared, hrdeclared⟩, hmap, fun d hd => (hgives d hd).1, fun d hd => (hgives d hd).2⟩
  · rintro ⟨l, hwritten, hdeclared, hdefines⟩
    refine ⟨l.services, hwritten.services,
      _, ⟨l.metrics, hwritten.metrics.1, hwritten.metrics.2, hdeclared.metrics, rfl⟩,
      _, ⟨l.resources, hwritten.resources.1, hwritten.resources.2, hdeclared.resources, rfl⟩, ?_⟩
    refine (outcome_mapM_eq_ok fun _ _ _ => outcome_readDefinition_eq_ok).mpr ?_
    exact forall₂_service_iff.mpr ⟨hdefines.services,
      fun d hd => ⟨hdefines.metrics d hd, hdefines.resources d hd⟩⟩

theorem outcome_readDefinitions_of_stray {directory : String} {paths : Paths} {l : Layout}
    (hwritten : l.Written files directory paths) (h : ¬ l.Declared) :
    ∃ file service, (readDefinitions files directory paths).outcome w =
      .error (.unknownService file service) ∧ ∀ s ∈ l.services, s.name ≠ service := by
  rw [readDefinitions, outcome_bind_of_ok (outcome_readEntries_eq_ok.mpr hwritten.services),
    ← hwritten.metrics.1]
  by_cases hmetrics : l.metrics.Declared l.services
  · rw [outcome_bind_of_ok (Listing.outcome_readFileMap_eq_ok.mpr
      ⟨l.metrics, rfl, hwritten.metrics.2, hmetrics, rfl⟩), ← hwritten.resources.1]
    obtain ⟨service, hstray, hnone⟩ := Listing.outcome_readFileMap_of_stray hwritten.resources.2
      fun hresources => h ⟨hmetrics, hresources⟩
    exact ⟨_, service, outcome_bind_of_error hstray, hnone⟩
  · obtain ⟨service, hstray, hnone⟩ :=
      Listing.outcome_readFileMap_of_stray hwritten.metrics.2 hmetrics
    exact ⟨_, service, outcome_bind_of_error hstray, hnone⟩

theorem outcome_loadWith_eq_ok {check : Url.Check} {vars : Variables} {config : Config} :
    (loadWith check files vars path).outcome w = .ok config ↔
      (readSettings files vars path).outcome w = .ok config.settings ∧
      (∃ l : Layout, l.Written files (FilePath.parent path) config.settings.paths ∧ l.Declared ∧
        l.Defines files config.definitions) ∧ config.problems check = [] := by
  simp only [loadWith, outcome_bind_eq_ok, outcome_readDefinitions_eq_ok]
  constructor
  · rintro ⟨settings, hsettings, ds, hds, ⟨⟩, hmodify, h⟩
    split at h
    · next hproblems =>
      cases h
      exact ⟨hsettings, hds, hproblems⟩
    · cases h
  · rintro ⟨hsettings, hds, hproblems⟩
    refine ⟨_, hsettings, _, hds, (), rfl, ?_⟩
    rw [hproblems]
    rfl

/-- Whatever check of locations is used, loading gives one definition for each service in the order
of the services, and nothing to a service that no entry names. What an entry names is in the
definition of its service if, and only if, the file of the last entry for the service holds it too.
An entry for a service that there is not ends the loading. -/
theorem entries_take_effect_iff (check : Url.Check) (files : FileAccess Id) (vars : Variables)
    (path : String) :
    (∀ config, (loadWith check files vars path).outcome [] = .ok config →
      ∃ l : Layout, l.Written files (FilePath.parent path) config.settings.paths ∧ l.Declared ∧
        config.definitions.map (·.service) = l.services ∧
        (∀ d ∈ config.definitions,
          ((∀ e ∈ l.metrics.entries, e.service ≠ d.service.name) → d.metrics = []) ∧
          ((∀ e ∈ l.resources.entries, e.service ≠ d.service.name) → d.resources = [])) ∧
        (∀ e ∈ l.metrics.entries,
          l.metrics.Effective files .metrics config.definitions e ↔
            l.metrics.Kept files .metrics e) ∧
        ∀ e ∈ l.resources.entries,
          l.resources.Effective files .resources config.definitions e ↔
            l.resources.Kept files .resources e) ∧
    ∀ (settings : Settings) (l : Layout),
      (readSettings files vars path).outcome [] = .ok settings →
      l.Written files (FilePath.parent path) settings.paths → ¬ l.Declared →
      ∃ file service, (loadWith check files vars path).outcome [] =
          .error (.unknownService file service) ∧
        ∀ s ∈ l.services, s.name ≠ service := by
  constructor
  · intro config h
    obtain ⟨-, ⟨l, hwritten, hdeclared, hdefines⟩, -⟩ := outcome_loadWith_eq_ok.mp h
    refine ⟨l, hwritten, hdeclared, hdefines.services, fun d hd => ?_, fun e he => ?_,
      fun e he => ?_⟩
    · exact ⟨(hdefines.metrics d hd).nothing, (hdefines.resources d hd).nothing⟩
    · exact Listing.effective_iff_kept hdefines.metrics
        (hdefines.services ▸ hdeclared.metrics) he
    · exact Listing.effective_iff_kept hdefines.resources
        (hdefines.services ▸ hdeclared.resources) he
  · intro settings l hsettings hwritten hstray
    obtain ⟨file, service, hfails, hnone⟩ := outcome_readDefinitions_of_stray hwritten hstray
    refine ⟨file, service, ?_, hnone⟩
    rw [loadWith, outcome_bind_of_ok hsettings]
    exact outcome_bind_of_error hfails

/-! ### A service that is named twice -/

def textFiles (texts : List (String × String)) : FileAccess Id :=
  FileTree.access
    { files := (["scrapeproxy.toml"], []) ::
        texts.map fun (name, text) => ([name], Text.Utf8.encode text) } "/"

theorem outcome_readSettings_textFiles (texts : List (String × String)) :
    (readSettings (textFiles texts) [] "scrapeproxy.toml").outcome w =
      .ok ⟨.default, .default, .default⟩ := by
  have hkind : (textFiles texts).kind "scrapeproxy.toml" = Except.ok (.file 0) := rfl
  have hread : (textFiles texts).read "scrapeproxy.toml" = Except.ok [] := rfl
  have hname : FilePath.extension? "scrapeproxy.toml" = some "toml" := rfl
  have hentries : readMainFile? (mainText []) = some [] := by
    rw [mainText, Text.Utf8.decodeLossy]
    rfl
  have hmain : readMain (textFiles texts) "scrapeproxy.toml" (.file 0) =
      (some [] : Option (List (String × Toml))) := by
    simp only [readMain, hname, hread]
    exact hentries
  have hsettings : settings? [] [] = some ⟨.default, .default, .default⟩ := rfl
  rw [readSettings, outcome_bind_eq_ok]
  refine ⟨_, congrArg Except.ok hkind, outcome_bind_eq_ok.mpr ⟨_, congrArg Except.ok hmain, ?_⟩⟩
  simp only [Option.bind_some, hsettings]
  rfl

deriving instance DecidableEq for FileEntry, Exponential, Histogram, Metric, Service

theorem holds_of_text {text : String}
    (hcontent : bytesOf files path = .ok (Text.Utf8.encode text))
    (hread : (Toml.read? text.toList).bind (fun tables => readFile? key view (.table tables)) =
      some xs) : Holds files path key view xs := by
  obtain ⟨tables, htables, hview⟩ := Option.bind_eq_some_iff.mp hread
  exact ⟨_, _, _, hcontent, Text.Utf8.decode_encode text, htables, hview⟩

def nodeText : String :=
  "[[services]]\nname = \"node\"\nprotocol = \"file\"\nbase_path = \"/srv\"\n"

def twiceText : String :=
  "[[services]]\nname = \"node\"\nfile = \"chain.toml\"\n" ++
    "[[services]]\nname = \"node\"\nfile = \"peers.toml\"\n"

def chainText : String :=
  "[[metrics]]\nname = \"height\"\ntype = \"gauge\"\nnode_solver = \x7b path = \"/value\" \x7d\n"

def peersText : String :=
  "[[metrics]]\nname = \"peers\"\ntype = \"gauge\"\nnode_solver = \x7b path = \"/value\" \x7d\n"

/-- Two files of metrics are named for one service. -/
def twiceFiles : FileAccess Id :=
  textFiles [("services.toml", nodeText), ("metrics_for_services.toml", twiceText),
    ("resource_paths_for_services.toml", ""), ("chain.toml", chainText), ("peers.toml", peersText)]

def nodeService : Service := ⟨"node", .file, "localhost", 0, "/srv", none⟩

def valueGauge (name : String) : Metric where
  name := name
  type := .gauge
  description := ""
  solver := ⟨"jsonPath", "/value"⟩
  labels := []
  histogram := none
  itemPath := none

def twiceListing : Listing where
  path := "metrics_for_services.toml"
  entries := [⟨"node", "chain.toml"⟩, ⟨"node", "peers.toml"⟩]

def twiceLayout (services : List Service) : Layout where
  services := services
  metrics := twiceListing
  resources := ⟨"resource_paths_for_services.toml", []⟩

theorem holds_nodeText (hcontent : bytesOf files path = .ok (Text.Utf8.encode nodeText)) :
    Holds files path "services" readService? [nodeService] :=
  holds_of_text hcontent (by decide +kernel)

theorem holds_twiceText (hcontent : bytesOf files path = .ok (Text.Utf8.encode twiceText)) :
    Holds files path "services" readFileEntry?
      [⟨"node", "chain.toml"⟩, ⟨"node", "peers.toml"⟩] :=
  holds_of_text hcontent (by decide +kernel)

theorem holds_empty (hcontent : bytesOf files path = .ok (Text.Utf8.encode "")) :
    Holds files path key view [] :=
  holds_of_text hcontent rfl

theorem twiceLayout_written : (twiceLayout [nodeService]).Written twiceFiles "" .default where
  services := holds_nodeText rfl
  metrics := ⟨rfl, holds_twiceText rfl⟩
  resources := ⟨rfl, holds_empty rfl⟩

/-- Only the metrics of the second file are there. -/
def twiceConfig : Config where
  settings := ⟨.default, .default, .default⟩
  definitions := [⟨nodeService, [valueGauge "peers"], []⟩]

theorem outcome_load_twice :
    (load twiceFiles [] "scrapeproxy.toml").outcome [] = .ok twiceConfig := by
  have hdeclared : (twiceLayout [nodeService]).Declared :=
    ⟨by simp [Listing.Declared, twiceLayout, twiceListing, nodeService],
      by simp [Listing.Declared, twiceLayout]⟩
  have hdefines : (twiceLayout [nodeService]).Defines twiceFiles twiceConfig.definitions := by
    refine ⟨rfl, fun d hd => ?_, fun d hd => ?_⟩
    · cases List.mem_singleton.mp hd
      exact (Listing.gives_iff_of_listed rfl).mpr (holds_of_text rfl (by decide +kernel))
    · cases List.mem_singleton.mp hd
      exact (Listing.gives_iff_of_unlisted rfl).mpr rfl
  exact outcome_loadWith_eq_ok.mpr ⟨outcome_readSettings_textFiles _,
    ⟨_, twiceLayout_written, hdeclared, hdefines⟩, by decide +kernel⟩

/-- The same entries, without the service that they are for. -/
def strayFiles : FileAccess Id :=
  textFiles [("services.toml", ""), ("metrics_for_services.toml", twiceText),
    ("resource_paths_for_services.toml", "")]

theorem entries_take_effect_iff_twice :
    (load twiceFiles [] "scrapeproxy.toml").outcome [] = .ok twiceConfig ∧
    (∀ e ∈ twiceListing.entries,
      twiceListing.Effective twiceFiles .metrics twiceConfig.definitions e ↔
        twiceListing.Kept twiceFiles .metrics e) ∧
    (twiceLayout []).Written strayFiles "" .default ∧ ¬ (twiceLayout []).Declared ∧
    ∃ file service, (load strayFiles [] "scrapeproxy.toml").outcome [] =
      .error (.unknownService file service) := by
  have hwritten : (twiceLayout []).Written strayFiles "" .default :=
    ⟨holds_empty rfl, ⟨rfl, holds_twiceText rfl⟩, ⟨rfl, holds_empty rfl⟩⟩
  have hstray : ¬ (twiceLayout []).Declared := by
    rintro ⟨hmetrics, -⟩
    simpa [twiceLayout] using hmetrics ⟨"node", "chain.toml"⟩ List.mem_cons_self
  obtain ⟨l, hl, -, -, -, hmetrics, -⟩ :=
    (entries_take_effect_iff Url.hosted twiceFiles [] "scrapeproxy.toml").1 _ outcome_load_twice
  cases hl.unique twiceLayout_written
  obtain ⟨file, service, hfails, -⟩ :=
    (entries_take_effect_iff Url.hosted strayFiles [] "scrapeproxy.toml").2 _ _
      (outcome_readSettings_textFiles _) hwritten hstray
  exact ⟨outcome_load_twice, hmetrics, hwritten, hstray, file, service, hfails⟩

/-- The metric of the file that is named first is not there. -/
theorem not_entries_take_effect_twice :
    (load twiceFiles [] "scrapeproxy.toml").outcome [] = .ok twiceConfig ∧
    twiceListing.Written twiceFiles ∧
    ∃ e ∈ twiceListing.entries,
      ¬ twiceListing.Effective twiceFiles .metrics twiceConfig.definitions e := by
  refine ⟨outcome_load_twice, twiceLayout_written.metrics.2, ⟨"node", "chain.toml"⟩,
    List.mem_cons_self, fun h => ?_⟩
  obtain ⟨d, hd, -, hinside⟩ := h [valueGauge "height"] (holds_of_text rfl (by decide +kernel))
  cases List.mem_singleton.mp hd
  have hmem := hinside List.mem_cons_self
  simp [Part.metrics, valueGauge] at hmem

end MetricRelay.Config
