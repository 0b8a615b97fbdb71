/-!
A pool of workers. Accepted jobs stand in a queue of bounded length; the dispatcher takes the
first and hands it to the worker that has been idle longest. Every move of the dispatcher and of a
worker is a step of its own, and a step that has to wait is `none`.
-/
namespace MetricRelay

/-- What a worker does. -/
inductive Station where
  /-- It is about to say that it is idle. -/
  | announcing
  /-- It has said so and looks into its inbox. -/
  | listening
  /-- A job lies in its inbox. -/
  | handed (job : Nat)
  | running (job : Nat)
  | stopped
  deriving DecidableEq, Repr

/-- Jobs are known by numbers. -/
structure Pool where
  /-- How many workers there are. -/
  size : Nat
  queue : List Nat := []
  /-- The job that the dispatcher has taken and not handed on. -/
  held : Option Nat := none
  /-- The workers that have said they are idle, in order. -/
  idle : List Nat := []
  stations : List Station
  dispatching : Bool := true
  closed : Bool := false

namespace Pool

/-- A pool of at least one worker. -/
def start (workers : Nat) : Pool :=
  let size := max workers 1
  { size, stations := List.replicate size .announcing }

/-- How many jobs may stand in the queue. -/
def room (p : Pool) : Nat := 2 * p.size

def hasRoom (p : Pool) : Bool := p.queue.length < p.room

/-- Put a job at the end of the queue. -/
def submit? (p : Pool) (job : Nat) : Option Pool :=
  if p.hasRoom then some { p with queue := p.queue ++ [job] } else none

/-- The dispatcher takes the first job. -/
def take? (p : Pool) : Option Pool :=
  if p.dispatching ∧ p.held = none then
    match p.queue with
    | [] => none
    | job :: rest => some { p with queue := rest, held := some job }
  else none

def station? (p : Pool) (worker : Nat) : Option Station := p.stations[worker]?

def setStation (p : Pool) (worker : Nat) (s : Station) : Pool :=
  { p with stations := p.stations.set worker s }

/-- The dispatcher puts the job it holds into the inbox of the worker that is idle longest. -/
def hand? (p : Pool) : Option (Nat × Pool) :=
  match p.held, p.idle with
  | some job, worker :: rest =>
    if p.dispatching ∧ p.station? worker = some .listening then
      some (worker, { p.setStation worker (.handed job) with held := none, idle := rest })
    else none
  | _, _ => none

/-- A worker says that it is idle. -/
def announce? (p : Pool) (worker : Nat) : Option Pool :=
  if p.station? worker = some .announcing ∧ p.idle.length < p.size then
    some { p.setStation worker .listening with idle := p.idle ++ [worker] }
  else none

/-- A worker starts the job in its inbox. -/
def receive? (p : Pool) (worker : Nat) : Option (Nat × Pool) :=
  match p.station? worker with
  | some (.handed job) => some (job, p.setStation worker (.running job))
  | _ => none

/-- The worker that runs a job. -/
def runner? (p : Pool) (job : Nat) : Option Nat := p.stations.idxOf? (.running job)

/-- A job has ended, well or not, and its worker is free. -/
def finish? (p : Pool) (job : Nat) : Option (Nat × Pool) :=
  (p.runner? job).map fun worker => (worker, p.setStation worker .announcing)

/-- Accept no more jobs and let everyone stop. -/
def close (p : Pool) : Pool := { p with closed := true }

/-- The dispatcher stops, and drops the jobs that it has not handed on. -/
def stopDispatcher (p : Pool) : List Nat × Pool :=
  (p.held.toList ++ p.queue, { p with dispatching := false, held := none, queue := [] })

/-- A worker that runs nothing stops, and drops the job in its inbox. -/
def stopWorker (p : Pool) (worker : Nat) : List Nat × Pool :=
  match p.station? worker with
  | some (.handed job) => ([job], p.setStation worker .stopped)
  | _ => ([], p.setStation worker .stopped)

/-- Nobody is at work any more. -/
def isStopped (p : Pool) : Bool := !p.dispatching && p.stations.all (· == .stopped)

/-- How many jobs run. -/
def busy (p : Pool) : Nat :=
  p.stations.countP fun s => match s with
    | .running _ => true
    | _ => false

end Pool
end MetricRelay
