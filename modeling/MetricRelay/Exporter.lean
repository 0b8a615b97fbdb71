import MetricRelay.Scrape.Job
/-!
An exporter: an index of services, the sources they live on, a pool for the tasks of its scrapes,
and the latest good value of every metric. Its owner asks for one thing after another; time passes
only while the owner waits.
-/
namespace MetricRelay

/-- What runs in an exporter. -/
inductive Activity where
  | task (job : ScrapeJob)
  | fetch (resource : ResourceId) (talk : Talk FetchCall)
  | token (scope : AuthScope) (talk : Talk TokenCall)

/-- What an activity ends with. -/
inductive Finding where
  | report (report : TaskReport)
  | answer (answer : Answer)
  | token (result : Except FetchError String)

namespace Activity

variable {κ β : Type}

/-- The turn of a caller that talks to a source and does nothing else. -/
def turnOfTalk (w : World) (p : Talk.Progress κ β) : Turn World (Talk κ) β where
  shared := { w with supply := p.supply }
  woken := p.woken
  stop := match p.pause with
    | .wait talk => .wait talk
    | .sleep time talk => .sleep time talk
    | .done result => .finished result

/-- A fetch of a resource that is not in the index comes to nothing. -/
def behaveFetch (r : ResourceId) : Behaviour World (Talk FetchCall) Answer := fun now me talk w =>
  match w.catalog.resource? r, (w.catalog.resource? r).bind (w.catalog.service? ·.service) with
  | some resource, some service =>
    let plan := FetchPlan.ofResource w.catalog w.policy service resource
    turnOfTalk w (talk.turn (FetchCall.dialogue plan) now me w.supply)
  | _, _ => { shared := w, stop := .crashed }

def behave : Behaviour World Activity Finding := fun now me activity w =>
  match activity with
  | .task job => (ScrapeJob.behave now me job w).map .task .report
  | .fetch r talk => (behaveFetch r now me talk w).map (.fetch r) .answer
  | .token scope talk =>
    (turnOfTalk w (talk.turn (TokenCall.dialogue scope) now me w.supply)).map (.token scope) .token

end Activity

/-- What can be set on an exporter; times are in milliseconds. -/
structure ExporterSetup where
  workers : Nat := 6
  /-- How long a scrape may take. -/
  timeout : Nat := 10000
  policy : RefreshPolicy := .auth
  /-- Files over this size are not read. -/
  fileLimit : Nat := 1048576

structure Exporter where
  loop : EventLoop World Activity Finding
  timeout : Nat
  lastGood : LastGood := {}
  /-- The failed tasks since they were last looked at. -/
  failures : List TaskFailure := []

/-- What a scrape brings. -/
structure ScrapeOutcome where
  body : String
  /-- How many loads it has started. -/
  fetches : Nat
  failures : Nat

namespace Exporter

def start (setup : ExporterSetup) (catalog : Catalog) (files : FileAccess Id) (network : Network) :
    Exporter where
  loop := .start setup.workers {
    catalog
    policy := setup.policy
    supply := {
      sources := { network, files, fileLimit := setup.fileLimit }
      slots := Token.Slots.ofCatalog catalog } }
  timeout := setup.timeout

def world (e : Exporter) : World := e.loop.shared

def catalog (e : Exporter) : Catalog := e.world.catalog

def workers (e : Exporter) : Nat := e.loop.pool.size

def now (e : Exporter) : Nat := e.loop.now

def changeWorld (e : Exporter) (f : World → World) : Exporter :=
  { e with loop := { e.loop with shared := f e.loop.shared } }

def changeSupply (e : Exporter) (f : Supply → Supply) : Exporter :=
  e.changeWorld fun w => { w with supply := f w.supply }

def changeSources (e : Exporter) (f : Sources → Sources) : Exporter :=
  e.changeSupply fun s => { s with sources := f s.sources }

/-- Give some locations other responses. -/
def respond (e : Exporter) (queues : List (String × List TimedResponse)) : Exporter :=
  e.changeSources fun s =>
    { s with network := queues.foldl (fun n (url, queue) => n.setQueue url queue) s.network }

/-- Give the exporter other files. -/
def setFiles (e : Exporter) (files : FileAccess Id) : Exporter :=
  e.changeSources fun s => { s with files }

/-- The requests since they were last looked at. -/
def takeRequests (e : Exporter) : List Request × Exporter :=
  (e.world.supply.sources.network.log,
    e.changeSources fun s => { s with network := { s.network with log := [] } })

def takeFailures (e : Exporter) : List TaskFailure × Exporter :=
  (e.failures, { e with failures := [] })

def sleep (e : Exporter) (milliseconds : Nat) : Exporter :=
  { e with loop := e.loop.pause Activity.behave milliseconds }

/-- Stop the pool. Later scrapes have only failed tasks. -/
def shutDown (e : Exporter) : Exporter := { e with loop := e.loop.shutDown Activity.behave }

/-! ### Scrapes -/

/-- Where a task of a scrape is: refused, or a job with a number. -/
abbrev Submission := Except TaskReport (ScrapeTask × Nat)

def failed (l : EventLoop World Activity Finding) (task : ScrapeTask) (error : ScrapeError) :
    TaskReport where
  task
  finished := l.now
  result := .error error

/-- Submit a task of the scrape with number `snapshot`. -/
def submit (snapshot deadline : Nat) (l : EventLoop World Activity Finding) (task : ScrapeTask) :
    Submission × EventLoop World Activity Finding :=
  match l.submit Activity.behave (some deadline) (.task { snapshot, task }) with
  | (.ok number, l) => (.ok (task, number), l)
  | (.error .closed, l) => (.error (failed l task .poolClosed), l)
  | (.error .late, l) => (.error (failed l task .timeout), l)

/-- Submit task after task. -/
def submitAll (snapshot deadline : Nat) (l : EventLoop World Activity Finding) :
    List ScrapeTask → List Submission × EventLoop World Activity Finding
  | [] => ([], l)
  | task :: rest =>
    let (first, l) := submit snapshot deadline l task
    let (others, l) := submitAll snapshot deadline l rest
    (first :: others, l)

/-- Wait for the report of a job. -/
def collect (deadline : Nat) (l : EventLoop World Activity Finding) (task : ScrapeTask)
    (number : Nat) : TaskReport × EventLoop World Activity Finding :=
  match l.await Activity.behave (some deadline) number with
  | (.result (.report report), l) => (report, l)
  | (.late, l) => (failed l task .timeout, l)
  | (_, l) => (failed l task .poolClosed, l)

/-- Wait for the reports of all jobs, one after another. -/
def collectAll (deadline : Nat) (l : EventLoop World Activity Finding) :
    List (ScrapeTask × Nat) → List TaskReport × EventLoop World Activity Finding
  | [] => ([], l)
  | (task, number) :: rest =>
    let (first, l) := collect deadline l task number
    let (others, l) := collectAll deadline l rest
    (first :: others, l)

/-- The tasks that run for a scrape. -/
def runningTasks (snapshot : Nat) (l : EventLoop World Activity Finding) : List Nat :=
  (l.tasks.zipIdx.filter fun (t, _) => match t with
    | .live (.task job) => job.snapshot == snapshot && !job.isFresh
    | _ => false).map (·.2)

/-- Mark a scrape as over. -/
def cancel (snapshot : Nat) (w : World) : World :=
  { w with snapshots := w.snapshots.modify snapshot fun s => { s with cancelled := true } }

/-- Run a task for everything in the index, and put the reports together: first those of the tasks
that were refused, then the others in the order of the tasks. What is not done by the deadline has
failed. -/
def scrape (e : Exporter) : ScrapeOutcome × Exporter :=
  let started := e.now
  let deadline := started + e.timeout
  let snapshot := e.world.snapshots.length
  let fresh := Snapshot.fresh e.world.seriesKey started
  let e := e.changeWorld fun w => { w with snapshots := w.snapshots ++ [fresh] }
  let (submissions, l) := submitAll snapshot deadline e.loop e.catalog.plan
  let refused := submissions.filterMap fun
    | .error report => some report
    | .ok _ => none
  let (collected, l) := collectAll deadline l (submissions.filterMap Except.toOption)
  let l := { l with shared := cancel snapshot l.shared }.wakeTasks (runningTasks snapshot l)
  let composed := Composition.ofReports e.catalog e.lastGood (refused ++ collected)
  let state := (l.shared.snapshots[snapshot]?).getD fresh
  ({ body := composed.body e.catalog started state.metrics
     fetches := state.fetches
     failures := composed.failures.length },
    { e with
      loop := l
      lastGood := composed.lastGood
      failures := e.failures ++ composed.failures })

/-! ### Single requests -/

/-- Start an activity of its own. -/
def spawn (e : Exporter) (a : Activity) : Nat × Exporter :=
  let (number, loop) := e.loop.spawn a
  (number, { e with loop })

/-- Wait for an activity, as long as it takes. -/
def await (e : Exporter) (number : Nat) : Option Finding × Exporter :=
  match e.loop.await Activity.behave none number with
  | (.result finding, loop) => (some finding, { e with loop })
  | (_, loop) => (none, { e with loop })

/-- The protocol of a service; one that is not in the index would speak `http`. -/
def protocolOf (e : Exporter) (service : Option ServiceId) : Protocol :=
  ((service.bind e.catalog.service?).map (·.protocol)).getD .http

def spawnFetch (e : Exporter) (r : ResourceId) : Nat × Exporter :=
  let protocol := e.protocolOf ((e.catalog.resource? r).map (·.service))
  e.spawn (.fetch r { protocol, state := .fresh })

def awaitFetch (e : Exporter) (number : Nat) : Answer × Exporter :=
  match e.await number with
  | (some (.answer answer), e) => (answer, e)
  | (_, e) => (.error .cancelled, e)

/-- Fetch the body of a resource. -/
def fetch (e : Exporter) (r : ResourceId) : Answer × Exporter :=
  let (number, e) := e.spawnFetch r
  e.awaitFetch number

def spawnFetches (e : Exporter) : List ResourceId → List Nat × Exporter
  | [] => ([], e)
  | r :: rest =>
    let (number, e) := e.spawnFetch r
    let (numbers, e) := spawnFetches e rest
    (number :: numbers, e)

def awaitFetches (e : Exporter) : List Nat → List Answer × Exporter
  | [] => ([], e)
  | number :: rest =>
    let (answer, e) := e.awaitFetch number
    let (answers, e) := awaitFetches e rest
    (answer :: answers, e)

/-- Fetch the bodies of some resources side by side. -/
def fetchAll (e : Exporter) (rs : List ResourceId) : List Answer × Exporter :=
  let (numbers, e) := e.spawnFetches rs
  e.awaitFetches numbers

/-- The token of a scope. -/
def token (e : Exporter) (scope : AuthScope) : Except FetchError String × Exporter :=
  let protocol := e.protocolOf (some scope.service)
  let (number, e) := e.spawn (.token scope { protocol, state := .fresh })
  match e.await number with
  | (some (.token result), e) => (result, e)
  | (_, e) => (.error .cancelled, e)

/-- Throw a token of a scope away, if it is still the current one. -/
def invalidate (e : Exporter) (scope : AuthScope) (stale : String) : Exporter :=
  e.changeSupply fun s => { s with slots := s.slots.invalidate scope stale }

/-- How many token requests a scope has made. -/
def tokenRequests (e : Exporter) (scope : AuthScope) : Nat := e.world.supply.slots.requests scope

end Exporter
end MetricRelay
