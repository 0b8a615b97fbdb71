/-!
The agenda of cooperating runners on a clock of whole milliseconds: who may run now, first come
first served, and who sleeps until when. The clock only moves on request.
-/
namespace MetricRelay

structure Agenda (ρ : Type) where
  now : Nat := 0
  /-- Who may run, in order. -/
  ready : List ρ := []
  /-- Who sleeps until when, the earliest first; of one time the one that fell asleep first. -/
  timers : List (Nat × ρ) := []

namespace Agenda

variable {ρ : Type} [DecidableEq ρ]

/-- Let a runner run after all that may run already. One that may run keeps its place. -/
def wake (a : Agenda ρ) (r : ρ) : Agenda ρ :=
  if r ∈ a.ready then a else { a with ready := a.ready ++ [r] }

def wakeAll (a : Agenda ρ) (rs : List ρ) : Agenda ρ := rs.foldl wake a

/-- Put an entry behind all that are not later. -/
def insertTimer (time : Nat) (r : ρ) : List (Nat × ρ) → List (Nat × ρ)
  | [] => [(time, r)]
  | (t, s) :: rest =>
    if t ≤ time then (t, s) :: insertTimer time r rest else (time, r) :: (t, s) :: rest

def sleep (a : Agenda ρ) (time : Nat) (r : ρ) : Agenda ρ :=
  { a with timers := insertTimer time r a.timers }

/-- Take the sleep of a runner away. -/
def forget (a : Agenda ρ) (r : ρ) : Agenda ρ :=
  { a with timers := a.timers.filter (·.2 ≠ r) }

/-- The runner whose turn it is. -/
def next? (a : Agenda ρ) : Option (ρ × Agenda ρ) :=
  match a.ready with
  | [] => none
  | r :: rest => some (r, { a with ready := rest })

/-- When the first sleeper wakes up. -/
def alarm? (a : Agenda ρ) : Option Nat := a.timers.head?.map (·.1)

/-- Move the clock and wake everyone whose time has come. -/
def advance (a : Agenda ρ) (time : Nat) : Agenda ρ :=
  let due := (a.timers.takeWhile (·.1 ≤ time)).map (·.2)
  wakeAll { a with now := time, timers := a.timers.dropWhile (·.1 ≤ time) } due

@[simp] theorem now_wake (a : Agenda ρ) (r : ρ) : (a.wake r).now = a.now := by
  unfold wake
  split <;> rfl

theorem now_wakeAll (a : Agenda ρ) (rs : List ρ) : (a.wakeAll rs).now = a.now := by
  induction rs generalizing a with
  | nil => rfl
  | cons r rest ih => exact (ih (a.wake r)).trans (now_wake a r)

@[simp] theorem now_advance (a : Agenda ρ) (time : Nat) : (a.advance time).now = time :=
  now_wakeAll _ _

end Agenda
end MetricRelay
