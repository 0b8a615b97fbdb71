import MetricRelay.EventLoop

/-!
# What a wait comes to

The owner of a loop waits until something holds or a deadline comes. Between two
ticks of the clock the runners take their turns, and the clock passes neither an
alarm nor the deadline. So a submission is turned down only if the pool is
closed, or if there is no room at the deadline; and a task that is waited for is
over, or still under way at the deadline.
-/

namespace MetricRelay

namespace EventLoop

variable {σ τ α : Type}

/-! ### The clock stands still while turns are taken -/

@[simp] theorem now_wake (l : EventLoop σ τ α) (r : Runner) :
    (l.wake r).agenda.now = l.agenda.now :=
  Agenda.now_wake l.agenda r

@[simp] theorem now_wakeTasks (l : EventLoop σ τ α) (numbers : List Nat) :
    (l.wakeTasks numbers).agenda.now = l.agenda.now :=
  Agenda.now_wakeAll l.agenda _

@[simp] theorem now_lose (l : EventLoop σ τ α) (numbers : List Nat) :
    (l.lose numbers).agenda.now = l.agenda.now := by
  rw [lose]
  induction numbers generalizing l with
  | nil => rfl
  | cons number rest ih => exact ih (l.setTask number .lost)

@[simp] theorem now_retire (l : EventLoop σ τ α) (number : Nat) (t : Task τ α) :
    (l.retire number t).agenda.now = l.agenda.now := by
  rw [retire]
  dsimp only
  split
  · rfl
  · exact now_wake _ _

theorem now_runTask (behave : Behaviour σ τ α) (l : EventLoop σ τ α) (number : Nat) :
    (l.runTask behave number).agenda.now = l.agenda.now := by
  rw [runTask]
  split
  · dsimp only
    split
    · exact now_wakeTasks _ _
    · exact now_wakeTasks _ _
    · exact (now_retire _ _ _).trans (now_wakeTasks _ _)
    · exact (now_retire _ _ _).trans (now_wakeTasks _ _)
  · rfl

theorem now_runDispatcher (fuel : Nat) (l : EventLoop σ τ α) :
    (l.runDispatcher fuel).agenda.now = l.agenda.now := by
  induction fuel generalizing l with
  | zero => rfl
  | succ fuel ih =>
    rw [runDispatcher]
    split
    · exact now_lose _ _
    · dsimp only
      split
      · rfl
      · exact (ih _).trans (now_wake _ _)

theorem now_runWorker (l : EventLoop σ τ α) (worker : Nat) :
    (l.runWorker worker).agenda.now = l.agenda.now := by
  rw [runWorker]
  cases l.pool.announce? worker
  all_goals
    dsimp only
    split
    · simp
    · simp
    · simp
    · split
      · simp
      · split
        · simp
        · simp

theorem now_run (behave : Behaviour σ τ α) (l : EventLoop σ τ α) (runner : Runner) :
    (l.run behave runner).agenda.now = l.agenda.now := by
  cases runner with
  | dispatcher => exact now_runDispatcher _ l
  | worker index => exact now_runWorker l index
  | task number => exact now_runTask behave l number

variable (behave : Behaviour σ τ α)

/-- The turns between two ticks: one after another in the order of the agenda, until nobody may run
or as many were taken as there is time for. -/
inductive Turns : Nat → EventLoop σ τ α → EventLoop σ τ α → Prop
  | spent {l : EventLoop σ τ α} : Turns 0 l l
  | idle {n : Nat} {l : EventLoop σ τ α} (hready : l.agenda.ready = []) : Turns (n + 1) l l
  | turn {n : Nat} {l l' : EventLoop σ τ α} {runner : Runner} {rest : List Runner}
      (hready : l.agenda.ready = runner :: rest)
      (hrest : Turns n ({ l with agenda := { l.agenda with ready := rest } }.run behave runner)
        l') : Turns (n + 1) l l'

theorem drain_turns (n : Nat) (l : EventLoop σ τ α) : Turns behave n l (l.drain behave n) := by
  induction n generalizing l with
  | zero => exact .spent
  | succ n ih =>
    rw [drain, Agenda.next?]
    cases hready : l.agenda.ready with
    | nil => exact .idle hready
    | cons runner rest => exact .turn hready (ih _)

variable {behave}

theorem Turns.now_eq {n : Nat} {l l' : EventLoop σ τ α} (h : Turns behave n l l') :
    l'.now = l.now := by
  induction h with
  | spent => rfl
  | idle hready => rfl
  | turn hready hrest ih => exact ih.trans (now_run behave _ _)

variable (behave)

/-- A wait for `done`: whether it holds before the deadline, and the loop at the end. -/
inductive Waits (done : EventLoop σ τ α → Bool) (deadline : Nat) :
    EventLoop σ τ α → Bool → EventLoop σ τ α → Prop
  | here {l : EventLoop σ τ α} (hdone : done l = true) : Waits done deadline l true l
  | due {l : EventLoop σ τ α} (hdone : done l = false) (hdue : deadline ≤ l.now) :
    Waits done deadline l false l
  | reached {l l' : EventLoop σ τ α} (hearlier : done l = false) (hearly : l.now < deadline)
      (hturns : Turns behave turnsPerTick l l') (hdone : done l' = true) :
    Waits done deadline l true l'
  /-- The clock passes no alarm, and not the deadline. -/
  | tick {l next l' : EventLoop σ τ α} {found : Bool} {time : Nat} (hearlier : done l = false)
      (hearly : l.now < deadline) (hturns : Turns behave turnsPerTick l next)
      (hdone : done next = false) (hlater : next.now < time) (htime : time ≤ deadline)
      (halarm : ∀ alarm, next.agenda.alarm? = some alarm → next.now < alarm → time ≤ alarm)
      (hrest : Waits done deadline { next with agenda := next.agenda.advance time } found l') :
    Waits done deadline l found l'

variable {behave} {done : EventLoop σ τ α → Bool} {deadline : Nat} {l l' : EventLoop σ τ α}
  {found : Bool}

theorem Waits.done_eq (h : Waits behave done deadline l found l') : done l' = found := by
  induction h with
  | here hdone => exact hdone
  | due hdone hdue => exact hdone
  | reached hearlier hearly hturns hdone => exact hdone
  | tick hearlier hearly hturns hdone hlater htime halarm hrest ih => exact ih

/-- A wait is given up at the deadline only. -/
theorem Waits.deadline_le (h : Waits behave done deadline l false l') : deadline ≤ l'.now := by
  generalize hfound : false = found at h
  induction h with
  | here hdone => cases hfound
  | due hdone hdue => exact hdue
  | reached hearlier hearly hturns hdone => cases hfound
  | tick hearlier hearly hturns hdone hlater htime halarm hrest ih => exact ih hfound

theorem nextTick?_eq (l : EventLoop σ τ α) (deadline : Nat) (h : l.now < deadline) :
    ∃ time, l.nextTick? (some deadline) = some time ∧ l.now < time ∧ time ≤ deadline ∧
      ∀ alarm, l.agenda.alarm? = some alarm → l.now < alarm → time ≤ alarm := by
  rw [nextTick?]
  cases halarm : l.agenda.alarm? with
  | none => exact ⟨max (l.now + 1) deadline, rfl, by omega, by omega, fun alarm h => nomatch h⟩
  | some first =>
    refine ⟨max (l.now + 1) (min first deadline), rfl, by omega, by omega, ?_⟩
    intro alarm hfirst hlater
    obtain rfl := Option.some.inj hfirst
    omega

variable (behave)

/-- With one tick for every millisecond up to the deadline, a wait is never broken off. -/
theorem wait_waits (done : EventLoop σ τ α → Bool) (deadline : Nat) {ticks : Nat}
    {l : EventLoop σ τ α} (hticks : deadline - l.now < ticks) :
    Waits behave done deadline l (l.wait behave done (some deadline) ticks).1
      (l.wait behave done (some deadline) ticks).2 := by
  induction ticks generalizing l with
  | zero => omega
  | succ ticks ih =>
    rw [wait]
    split
    · next hdone => exact .here hdone
    · next hdone =>
      have hearlier : done l = false := by simpa using hdone
      split
      · next hdue => exact .due hearlier (by simpa using hdue)
      · next hdue =>
        have hearly : l.now < deadline := by simpa using hdue
        have hturns := drain_turns behave turnsPerTick l
        dsimp only
        split
        · next hdone => exact .reached hearlier hearly hturns hdone
        · next hstill =>
          have hnow := hturns.now_eq
          obtain ⟨time, hnext, hlater, htime, halarm⟩ :=
            nextTick?_eq (l.drain behave turnsPerTick) deadline (hnow ▸ hearly)
          rw [hnext]
          refine .tick hearlier hearly hturns (by simpa using hstill) hlater htime halarm (ih ?_)
          have hadvanced : ∀ next : EventLoop σ τ α,
              EventLoop.now { next with agenda := next.agenda.advance time } = time :=
            fun next => Agenda.now_advance next.agenda time
          rw [hadvanced]
          omega

/-! ### Submissions -/

def enqueue (l : EventLoop σ τ α) (state : τ) : EventLoop σ τ α :=
  let (number, next) := l.add state
  { next with pool := { l.pool with queue := l.pool.queue ++ [number] } }.wake .dispatcher

/-- A submission: a closed pool refuses the job, a pool that has no room up to the deadline does not
take it, and any other one takes it under the next number. -/
inductive Submits (deadline : Nat) (state : τ) :
    EventLoop σ τ α → Except Refusal Nat → EventLoop σ τ α → Prop
  | closed {l : EventLoop σ τ α} (hclosed : l.pool.closed = true) :
    Submits deadline state l (.error .closed) l
  | late {l l' : EventLoop σ τ α} (hopen : l.pool.closed = false)
      (hfull : Waits behave (·.pool.hasRoom) deadline l false l') :
    Submits deadline state l (.error .late) l'
  | accepted {l l' : EventLoop σ τ α} (hopen : l.pool.closed = false)
      (hroom : Waits behave (·.pool.hasRoom) deadline l true l') :
    Submits deadline state l (.ok l'.tasks.length) (l'.enqueue state)

theorem submit_submits (deadline : Nat) (l : EventLoop σ τ α) (state : τ) :
    Submits behave deadline state l (l.submit behave (some deadline) state).1
      (l.submit behave (some deadline) state).2 := by
  rw [submit]
  split
  · next hclosed => exact .closed hclosed
  · next hclosed =>
    have hopen : l.pool.closed = false := by simpa using hclosed
    have hwait := wait_waits behave (·.pool.hasRoom) deadline
      (Nat.lt_succ_self (deadline - l.now))
    rw [patience]
    revert hwait
    generalize l.wait behave (·.pool.hasRoom) (some deadline) (deadline - l.now + 1) = waited
    obtain ⟨found, next⟩ := waited
    intro hwait
    cases found with
    | false => exact .late hopen hwait
    | true =>
      have hroom : next.pool.hasRoom = true := hwait.done_eq
      have htaken : next.pool.submit? next.tasks.length =
          some { next.pool with queue := next.pool.queue ++ [next.tasks.length] } := if_pos hroom
      have hsubmits : Submits behave deadline state l (.ok next.tasks.length)
          (next.enqueue state) := .accepted hopen hwait
      simp only [add, if_true, htaken]
      exact hsubmits

/-! ### Results -/

/-- Waiting for a task: it has ended, with a result or without one, or the deadline came first. -/
inductive Awaits (deadline number : Nat) :
    EventLoop σ τ α → Outcome α → EventLoop σ τ α → Prop
  | result {l l' : EventLoop σ τ α} {a : α}
      (hover : Waits behave (isOver number) deadline l true l')
      (htask : l'.task? number = some (.finished a)) : Awaits deadline number l (.result a) l'
  | lost {l l' : EventLoop σ τ α} (hover : Waits behave (isOver number) deadline l true l')
      (htask : l'.task? number = some .lost) : Awaits deadline number l .lost l'
  | missing {l l' : EventLoop σ τ α} (hover : Waits behave (isOver number) deadline l true l')
      (htask : l'.task? number = none) : Awaits deadline number l .lost l'
  | late {l l' : EventLoop σ τ α} (hunder : Waits behave (isOver number) deadline l false l') :
    Awaits deadline number l .late l'

theorem await_awaits (deadline number : Nat) (l : EventLoop σ τ α) :
    Awaits behave deadline number l (l.await behave (some deadline) number).1
      (l.await behave (some deadline) number).2 := by
  have hwait := wait_waits behave (isOver number) deadline
    (Nat.lt_succ_self (deadline - l.now))
  rw [await, patience]
  revert hwait
  generalize l.wait behave (isOver number) (some deadline) (deadline - l.now + 1) = waited
  obtain ⟨found, next⟩ := waited
  intro hwait
  have hover : isOver number next = found := hwait.done_eq
  dsimp only
  cases htask : next.task? number with
  | none =>
    rw [isOver, htask] at hover
    subst hover
    exact .missing hwait htask
  | some t =>
    rw [isOver, htask] at hover
    cases t with
    | live state =>
      subst hover
      exact .late hwait
    | finished a =>
      subst hover
      exact .result hwait htask
    | lost =>
      subst hover
      exact .lost hwait htask

end EventLoop
end MetricRelay
