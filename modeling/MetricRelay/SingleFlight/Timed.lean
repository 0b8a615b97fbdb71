import MetricRelay.EventLoop
import MetricRelay.SingleFlight
/-!
Callers of a single flight whose loads take time.
-/
namespace MetricRelay.SingleFlight

/-- A caller for `key`, which would load `value` in `delay` milliseconds. -/
structure Caller (ν : Type) where
  key : String
  value : ν
  delay : Nat

namespace Caller

/-- Where a caller stands. -/
inductive Stage where
  | fresh
  | inLine
  /-- Its load is done at this time. -/
  | loading (due : Nat)
  deriving DecidableEq, Repr

variable {ν : Type}

abbrev CallerTurn (ν : Type) := Turn (SingleFlight ν) (Caller ν × Stage) ν

def finishLoad (c : Caller ν) (f : SingleFlight ν) : CallerTurn ν :=
  let (woken, f) := f.complete c.key c.value
  { shared := f, woken, stop := .finished c.value }

def go (now : Nat) (c : Caller ν) : Entry ν × SingleFlight ν → CallerTurn ν
  | (.take value, f) => { shared := f, stop := .finished value }
  | (.wait, f) => { shared := f, stop := .wait (c, .inLine) }
  | (.load, f) =>
    if c.delay = 0 then c.finishLoad f
    else { shared := f, stop := .sleep (now + c.delay) (c, .loading (now + c.delay)) }

def behave : Behaviour (SingleFlight ν) (Caller ν × Stage) ν := fun now me (c, stage) f =>
  match stage with
  | .fresh => c.go now (f.enter c.key me)
  | .inLine => c.go now (f.resume c.key me)
  | .loading due => if now < due then { shared := f, stop := .wait (c, stage) } else c.finishLoad f

end Caller
end MetricRelay.SingleFlight
