import MetricRelay.Agenda
import MetricRelay.Pool
/-!
Tasks that take turns on one processor, some of them as jobs of a pool. A task runs until it has to
wait; what it does in a turn is given by its behaviour. Between turns of the tasks the owner of the
loop acts: it starts tasks, submits jobs and waits for results, and time passes only while all tasks
wait.
-/
namespace MetricRelay

/-- What a task has come to. -/
inductive Task (τ α : Type) where
  /-- It waits, to go on in this state. -/
  | live (state : τ)
  | finished (result : α)
  /-- It ended without a result. -/
  | lost

/-- Where a turn ends. -/
inductive Stop (τ α : Type) where
  /-- At a wait that somebody else ends. -/
  | wait (state : τ)
  /-- At a sleep until a time, or until it is woken before. -/
  | sleep (time : Nat) (state : τ)
  | finished (result : α)
  | crashed

/-- One turn: what the tasks share after it, whom it woke, and where it ended. -/
structure Turn (σ τ α : Type) where
  shared : σ
  woken : List Nat := []
  stop : Stop τ α

namespace Turn

variable {σ τ α : Type}

/-- A turn of a task that is one kind of task among others. -/
def map {τ' α' : Type} (f : τ → τ') (g : α → α') (t : Turn σ τ α) : Turn σ τ' α' where
  shared := t.shared
  woken := t.woken
  stop := match t.stop with
    | .wait state => .wait (f state)
    | .sleep time state => .sleep time (f state)
    | .finished result => .finished (g result)
    | .crashed => .crashed

end Turn

/-- What a task does in a turn, given the time, its number, its state and what the tasks share. -/
abbrev Behaviour (σ τ α : Type) := Nat → Nat → τ → σ → Turn σ τ α

/-- Who takes turns. -/
inductive Runner where
  | dispatcher
  | worker (index : Nat)
  | task (number : Nat)
  deriving DecidableEq, Repr

structure EventLoop (σ τ α : Type) where
  agenda : Agenda Runner := {}
  pool : Pool
  /-- All tasks so far, by number. -/
  tasks : List (Task τ α) := []
  shared : σ

namespace EventLoop

variable {σ τ α : Type}

/-- A loop with a pool whose workers and dispatcher are about to start. -/
def start (workers : Nat) (shared : σ) : EventLoop σ τ α :=
  let pool := Pool.start workers
  { pool
    shared
    agenda := { ready := (List.range pool.size).map Runner.worker ++ [.dispatcher] } }

def now (l : EventLoop σ τ α) : Nat := l.agenda.now

def wake (l : EventLoop σ τ α) (r : Runner) : EventLoop σ τ α :=
  { l with agenda := l.agenda.wake r }

def wakeTasks (l : EventLoop σ τ α) (numbers : List Nat) : EventLoop σ τ α :=
  { l with agenda := l.agenda.wakeAll (numbers.map Runner.task) }

def task? (l : EventLoop σ τ α) (number : Nat) : Option (Task τ α) := l.tasks[number]?

def setTask (l : EventLoop σ τ α) (number : Nat) (t : Task τ α) : EventLoop σ τ α :=
  { l with tasks := l.tasks.set number t }

/-- Tasks that will never run. -/
def lose (l : EventLoop σ τ α) (numbers : List Nat) : EventLoop σ τ α :=
  numbers.foldl (fun l n => l.setTask n .lost) l

/-- A task is over: it sleeps no more, and the worker that ran it is free. -/
def retire (l : EventLoop σ τ α) (number : Nat) (t : Task τ α) : EventLoop σ τ α :=
  let l := { l.setTask number t with agenda := l.agenda.forget (.task number) }
  match l.pool.finish? number with
  | none => l
  | some (worker, pool) => { l with pool }.wake (.worker worker)

def runTask (behave : Behaviour σ τ α) (l : EventLoop σ τ α) (number : Nat) : EventLoop σ τ α :=
  match l.task? number with
  | some (.live state) =>
    let turn := behave l.now number state l.shared
    let l := { l with shared := turn.shared }.wakeTasks turn.woken
    match turn.stop with
    | .wait state => l.setTask number (.live state)
    | .sleep time state =>
      { l.setTask number (.live state) with agenda := l.agenda.sleep time (.task number) }
    | .finished result => l.retire number (.finished result)
    | .crashed => l.retire number .lost
  | _ => l

/-- The dispatcher takes and hands on jobs as long as it can. -/
def runDispatcher : Nat → EventLoop σ τ α → EventLoop σ τ α
  | 0, l => l
  | fuel + 1, l =>
    if l.pool.closed then
      let (dropped, pool) := l.pool.stopDispatcher
      { l with pool }.lose dropped
    else
      let pool := l.pool.take?.getD l.pool
      match pool.hand? with
      | none => { l with pool }
      | some (worker, pool) => runDispatcher fuel ({ l with pool }.wake (.worker worker))

/-- A worker says that it is idle, and then starts the job that it has been handed. -/
def runWorker (l : EventLoop σ τ α) (worker : Nat) : EventLoop σ τ α :=
  let l := match l.pool.announce? worker with
    | none => l
    | some pool => { l with pool }.wake .dispatcher
  match l.pool.station? worker with
  | some (.running _) | some .stopped | none => l
  | _ =>
    if l.pool.closed then
      let (dropped, pool) := l.pool.stopWorker worker
      { l with pool }.lose dropped
    else
      match l.pool.receive? worker with
      | none => l
      | some (job, pool) => { l with pool }.wake (.task job)

def run (behave : Behaviour σ τ α) (l : EventLoop σ τ α) : Runner → EventLoop σ τ α
  | .dispatcher => l.runDispatcher (l.pool.queue.length + 2)
  | .worker index => l.runWorker index
  | .task number => l.runTask behave number

/-- Turn after turn until nobody may run, or for as many turns as there are. -/
def drain (behave : Behaviour σ τ α) : Nat → EventLoop σ τ α → EventLoop σ τ α
  | 0, l => l
  | fuel + 1, l =>
    match l.agenda.next? with
    | none => l
    | some (runner, agenda) => drain behave fuel ({ l with agenda }.run behave runner)

/-- The earlier of two times that there may be. -/
def earlier : Option Nat → Option Nat → Option Nat
  | some a, some b => some (min a b)
  | a, none => a
  | none, b => b

/-- How many turns fit between two ticks of the clock. -/
def turnsPerTick : Nat := 1000000

/-- The next time at which anything happens: somebody wakes up, or the deadline comes. A clock that
ticks moves on. -/
def nextTick? (l : EventLoop σ τ α) (deadline : Option Nat) : Option Nat :=
  (earlier l.agenda.alarm? deadline).map (max (l.now + 1))

/-- Wait until `done` holds, over at most so many ticks. The answer is `false` when the deadline
comes first; at the deadline itself nobody else runs any more. -/
def wait (behave : Behaviour σ τ α) (done : EventLoop σ τ α → Bool) (deadline : Option Nat) :
    Nat → EventLoop σ τ α → Bool × EventLoop σ τ α
  | 0, l => (false, l)
  | fuel + 1, l =>
    if done l then (true, l)
    else if deadline.any (· ≤ l.now) then (false, l)
    else
      let l := l.drain behave turnsPerTick
      if done l then (true, l)
      else
        match l.nextTick? deadline with
        | none => (false, l)
        | some time => wait behave done deadline fuel { l with agenda := l.agenda.advance time }

/-- How many ticks the owner of a loop waits for: up to the deadline, or else for very long. -/
def patience (l : EventLoop σ τ α) : Option Nat → Nat
  | some deadline => deadline - l.now + 1
  | none => 1000000

/-- Add a task to the list; it does not run yet. -/
def add (l : EventLoop σ τ α) (state : τ) : Nat × EventLoop σ τ α :=
  (l.tasks.length, { l with tasks := l.tasks ++ [.live state] })

/-- Start a task of its own. -/
def spawn (l : EventLoop σ τ α) (state : τ) : Nat × EventLoop σ τ α :=
  let (number, l) := l.add state
  (number, l.wake (.task number))

/-- Why a job was not accepted. -/
inductive Refusal where
  | closed
  /-- There was no room before the deadline. -/
  | late
  deriving DecidableEq, Repr

/-- Submit a job, waiting for room in the queue. -/
def submit (behave : Behaviour σ τ α) (deadline : Option Nat) (l : EventLoop σ τ α) (state : τ) :
    Except Refusal Nat × EventLoop σ τ α :=
  if l.pool.closed then (.error .closed, l)
  else
    let (found, l) := l.wait behave (·.pool.hasRoom) deadline (l.patience deadline)
    let (number, next) := l.add state
    match if found then next.pool.submit? number else none with
    | none => (.error .late, l)
    | some pool => (.ok number, { next with pool }.wake .dispatcher)

def isOver (number : Nat) (l : EventLoop σ τ α) : Bool :=
  match l.task? number with
  | some (.live _) => false
  | _ => true

/-- What the owner learns of a task. -/
inductive Outcome (α : Type) where
  | result (a : α)
  | lost
  /-- The deadline came first. -/
  | late

/-- Wait for a task to end. -/
def await (behave : Behaviour σ τ α) (deadline : Option Nat) (l : EventLoop σ τ α) (number : Nat) :
    Outcome α × EventLoop σ τ α :=
  let (_, l) := l.wait behave (isOver number) deadline (l.patience deadline)
  match l.task? number with
  | some (.finished a) => (.result a, l)
  | some .lost | none => (.lost, l)
  | some (.live _) => (.late, l)

/-- Let time pass. -/
def pause (behave : Behaviour σ τ α) (l : EventLoop σ τ α) (milliseconds : Nat) :
    EventLoop σ τ α :=
  let deadline := some (l.now + milliseconds)
  (l.wait behave (fun _ => false) deadline (l.patience deadline)).2

/-- Close the pool and wait until nobody in it is at work. -/
def shutDown (behave : Behaviour σ τ α) (l : EventLoop σ τ α) : EventLoop σ τ α :=
  let everyone := Runner.dispatcher :: (List.range l.pool.size).map Runner.worker
  let l := { l with pool := l.pool.close, agenda := l.agenda.wakeAll everyone }
  (l.wait behave (·.pool.isStopped) none (l.patience none)).2

end EventLoop
end MetricRelay
