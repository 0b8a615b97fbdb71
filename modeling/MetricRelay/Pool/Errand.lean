import MetricRelay.EventLoop
/-!
The plainest jobs: they take some time and then end, well or not. Together they show how a pool
spreads work over time.
-/
namespace MetricRelay

/-- A job that takes `duration` milliseconds. -/
structure Errand where
  duration : Nat
  fails : Bool
  /-- When it started, once it has. -/
  started : Option Nat := none

namespace Errand

/-- When an errand ran. -/
structure Times where
  started : Nat
  finished : Nat
  deriving DecidableEq, Repr

/-- How many errands run, and how many have at most run at once. -/
structure Load where
  running : Nat := 0
  peak : Nat := 0
  deriving DecidableEq, Repr

def Load.more (l : Load) : Load := ⟨l.running + 1, max l.peak (l.running + 1)⟩

def Load.less (l : Load) : Load := { l with running := l.running - 1 }

def finish (now : Nat) (started : Nat) (e : Errand) (load : Load) : Turn Load Errand Times where
  shared := load.less
  stop := if e.fails then .crashed else .finished ⟨started, now⟩

def behave : Behaviour Load Errand Times := fun now _ e load =>
  match e.started with
  | some started =>
    if now < started + e.duration then { shared := load, stop := .wait e }
    else finish now started e load
  | none =>
    if e.duration = 0 then finish now now e load.more
    else { shared := load.more, stop := .sleep (now + e.duration) { e with started := some now } }

end Errand
end MetricRelay
