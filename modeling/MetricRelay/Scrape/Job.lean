import MetricRelay.EventLoop
import MetricRelay.Scrape.Snapshot
/-!
The job of one task of a scrape. It gets what its resource holds from the shelf of the scrape,
loading it if nobody has, and makes a value of it. When the scrape is over it lets go of
everything it holds.
-/
namespace MetricRelay

/-- What all tasks of an exporter share. -/
structure World where
  catalog : Catalog
  policy : RefreshPolicy
  supply : Supply
  /-- All scrapes so far, by number. -/
  snapshots : List Snapshot := []
  /-- How the gauges of every scrape find their series. -/
  seriesKey : SelfMetrics.Key := SelfMetrics.hashed

/-- Where a job stands. -/
inductive JobStage where
  | fresh
  /-- It waits for what another job loads. -/
  | inLine
  /-- It loads, since this time. -/
  | loading (began : Nat) (talk : Talk FetchCall)

structure ScrapeJob where
  /-- The number of the scrape. -/
  snapshot : Nat
  task : ScrapeTask
  stage : JobStage := .fresh

namespace ScrapeJob

/-- It has not had a turn yet. -/
def isFresh (j : ScrapeJob) : Bool :=
  match j.stage with
  | .fresh => true
  | _ => false

abbrev JobTurn := Turn World ScrapeJob TaskReport

/-- What a task works on. -/
structure Scene where
  service : Catalog.Service
  resource : Catalog.Resource
  snapshot : Snapshot

def scene? (j : ScrapeJob) (w : World) : Option Scene := do
  let resource ← w.catalog.resource? j.task.resource
  let service ← w.catalog.service? resource.service
  let snapshot ← w.snapshots[j.snapshot]?
  some ⟨service, resource, snapshot⟩

def withSnapshot (j : ScrapeJob) (w : World) (s : Snapshot) : World :=
  { w with snapshots := w.snapshots.set j.snapshot s }

def report (j : ScrapeJob) (now : Nat) (result : Except ScrapeError TaskValue) : TaskReport where
  task := j.task
  finished := now
  result := result

variable {ν : Type}

/-- End with what the shelf holds. -/
def finish (j : ScrapeJob) (now : Nat) (conclude : ν → Except ScrapeError TaskValue)
    (value : Except FetchError ν) : Stop ScrapeJob TaskReport :=
  .finished (j.report now ((value.mapError .fetch).bind conclude))

/-- Load on, and share the result once it is there. -/
def load (j : ScrapeJob) (now caller : Nat) (shelf : Snapshot.Shelf ν)
    (conclude : ν → Except ScrapeError TaskValue) (scene : Scene) (w : World) (began : Nat)
    (talk : Talk FetchCall) : JobTurn :=
  let plan := FetchPlan.ofResource w.catalog w.policy scene.service scene.resource
  let progress := talk.turn (FetchCall.dialogue plan) now caller w.supply
  let w := { j.withSnapshot w scene.snapshot with supply := progress.supply }
  match progress.pause with
  | .wait talk =>
    { shared := w, woken := progress.woken, stop := .wait { j with stage := .loading began talk } }
  | .sleep time talk =>
    { shared := w, woken := progress.woken
      stop := .sleep time { j with stage := .loading began talk } }
  | .done answer =>
    let value := shelf.decodeAnswer scene.service scene.resource answer
    let snapshot := shelf.note scene.service scene.resource began now scene.snapshot
    let (woken, flight) := (shelf.flight snapshot).complete scene.resource.url value
    { shared := j.withSnapshot w (shelf.withFlight flight snapshot)
      woken := progress.woken ++ woken
      stop := j.finish now conclude value }

/-- Act on what the shelf asks for. -/
def enter (j : ScrapeJob) (now caller : Nat) (shelf : Snapshot.Shelf ν)
    (conclude : ν → Except ScrapeError TaskValue) (scene : Scene) (w : World) :
    SingleFlight.Entry (Except FetchError ν) × SingleFlight (Except FetchError ν) → JobTurn
  | (.take value, flight) =>
    { shared := j.withSnapshot w (shelf.withFlight flight scene.snapshot)
      stop := j.finish now conclude value }
  | (.wait, flight) =>
    { shared := j.withSnapshot w (shelf.withFlight flight scene.snapshot)
      stop := .wait { j with stage := .inLine } }
  | (.load, flight) =>
    let scene := { scene with snapshot := shelf.withFlight flight scene.snapshot }
    j.load now caller shelf conclude scene w now
      { protocol := scene.service.protocol, state := .fresh }

/-- Let go of the shelf and of the right to a token. -/
def abandon (j : ScrapeJob) (now caller : Nat) (shelf : Snapshot.Shelf ν) (scene : Scene)
    (w : World) : JobTurn :=
  let (freed, slots) := w.supply.slots.abandon caller
  let (woken, flight) := (shelf.flight scene.snapshot).abandon scene.resource.url caller
  { shared := j.withSnapshot { w with supply := { w.supply with slots } }
      (shelf.withFlight flight scene.snapshot)
    woken := freed ++ woken
    stop := .finished (j.report now (.error (.fetch .cancelled))) }

/-- A turn at a shelf. -/
def turnAt (j : ScrapeJob) (now caller : Nat) (shelf : Snapshot.Shelf ν)
    (conclude : ν → Except ScrapeError TaskValue) (scene : Scene) (w : World) : JobTurn :=
  if scene.snapshot.cancelled then j.abandon now caller shelf scene w
  else
    let flight := shelf.flight scene.snapshot
    match j.stage with
    | .fresh => j.enter now caller shelf conclude scene w (flight.enter scene.resource.url caller)
    | .inLine => j.enter now caller shelf conclude scene w (flight.resume scene.resource.url caller)
    | .loading began talk => j.load now caller shelf conclude scene w began talk

/-- The value of a metric in a document. -/
def concludeMetric (m : Catalog.Metric) (doc : Node) : Except ScrapeError TaskValue :=
  match shape m doc with
  | .ok value => .ok (.shaped value)
  | .error e => .error (.shape e)

/-- A job whose resource or metric is not in the index has nothing to do. -/
def behave : Behaviour World ScrapeJob TaskReport := fun now caller j w =>
  match j.scene? w with
  | none => { shared := w, stop := .crashed }
  | some scene =>
    match j.task with
    | .forward .. =>
      j.turnAt now caller Snapshot.expositionShelf (fun fs => .ok (.families fs)) scene w
    | .metric _ _ id =>
      match w.catalog.metric? id with
      | none => { shared := w, stop := .crashed }
      | some m => j.turnAt now caller Snapshot.documentShelf (concludeMetric m) scene w

end ScrapeJob
end MetricRelay
